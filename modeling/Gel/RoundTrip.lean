import Gel.Disassembler
import Gel.Machine

/-!
# RoundTrip — what the assembler emits reads back

The interpreter's fetch loop and the disassembler read the code of any sequence of the assembler's
operations from its start: both visit the operations the assembler emitted, where it emitted them
(`instructions_assembled`).  The operand of a jump leads exactly to the label when the jump comes
first, and one byte past it otherwise (`jumpsExact_iff`).
-/

namespace Gel

open FlowGraphCompiler Layout

namespace Disassembler

section Decoder

variable {objects : List Value} {region : List UInt8} {pos : Nat} {α : Type}

theorem nextUWord_bind (f : UInt64 → Decoder α) :
    (nextUWord region >>= f) pos = (Words.loadWord region pos).bind fun w => f w (pos + 8) := by
  change ((Words.loadWord region pos).map fun w => (w, pos + 8)).bind (fun p => f p.1 p.2) = _
  rw [Option.bind_map]
  rfl

theorem nextWord_bind (f : Int → Decoder α) :
    (nextWord region >>= f) pos =
      (Words.loadWord region pos).bind fun w => f (Words.toInt w) (pos + 8) := by
  rw [nextWord, bind_assoc, nextUWord_bind]
  rfl

theorem nextObjectPointer_bind (f : Value → Decoder α) :
    (nextObjectPointer objects region >>= f) pos =
      (Bytecode.object? objects region pos).bind fun v => f v (pos + 8) := by
  rw [nextObjectPointer, bind_assoc, nextUWord_bind, Bytecode.object?, Option.bind_assoc]
  refine congrArg _ (funext fun w => ?_)
  cases objects[w.toNat]? <;> rfl

/-- **The disassembler reads what the interpreter reads.** -/
theorem instruction_eq_decode (objects : List Value) (region : List UInt8) (pos : Nat) :
    instruction objects region pos = Bytecode.decode objects region pos := by
  have hrun : instruction objects region pos = (region[pos]?).bind fun b =>
      (Op.ofRaw b).bind fun op => operands objects region op (pos + 1) := by
    change (((region[pos]?).map fun b => (b, pos + 1)).bind fun p => _) = _
    rw [Option.bind_map]
    refine congrArg _ (funext fun b => ?_)
    simp only [Function.comp_apply]
    cases Op.ofRaw b <;> rfl
  rw [hrun, Bytecode.decode]
  simp only [Option.bind_eq_bind]
  refine congrArg _ (funext fun b => congrArg _ (funext fun op => ?_))
  cases op with
  | invoke | invokeNative | new =>
      simp only [operands, invoke, nextObjectPointer_bind, nextUWord_bind]
      rfl
  | pushI | loadLocal | storeLocal | invokeDynamic =>
      simp only [operands, invoke, nextUWord_bind]
      rfl
  | jump | jz | jnz | jeq | jne =>
      simp only [operands, nextWord_bind]
      rfl
  | pushQ | storeField | loadField | checkInstance | cast =>
      simp only [operands, nextObjectPointer_bind]
      rfl
  | _ => rfl

end Decoder

end Disassembler

/-! ### Walking a region -/

/-- A loop that decodes one operation after the other from a position to the end of a region,
without following jumps: the operations and where they stand. -/
def instructions (next : Nat → Option (Bytecode × Nat)) (ending : Nat) :
    Nat → Nat → Option (List (Nat × Bytecode))
  | 0, pos => if pos < ending then none else some []
  | n + 1, pos =>
      if pos < ending then do
        let (code, pos') ← next pos
        return (pos, code) :: (← instructions next ending n pos')
      else some []

/-- The operations the assembler emits for items from position `pos` on, where they stand; the
operand of a jump is the word the finished buffer holds for it. -/
def emitted (buffer : List UInt8) : Nat → List Item → List (Nat × Bytecode)
  | _, [] => []
  | pos, .code c :: is => (pos, c) :: emitted buffer (pos + c.size) is
  | pos, .jump op _ :: is =>
      (pos, .jump op (Words.toInt ((Words.loadWord buffer (pos + 1)).getD 0))) ::
        emitted buffer (pos + 9) is
  | pos, _ :: is => emitted buffer pos is

/-- An item the assembler has a method for. -/
def Item.Assembles : Item → Prop
  | .code c => c.isJump = false
  | .jump op _ => op ∈ Bytecode.jumpOps
  | _ => True

section Walk

variable {objs : List Value} {is : List Item} {c : FlowGraphCompiler}

/-- The loop goes from item to item. -/
theorem instructions_from {xs ys : List Item} {next : Nat → Option (Bytecode × Nat)}
    (hnext : ∀ pos, next pos = Bytecode.decode c.assembler.objects c.assembler.buffer pos)
    (hl : Loaded (xs ++ ys) 0
      { objects := c.assembler.objects, regions := [c.assembler.buffer] })
    (hlen : c.assembler.buffer.length = size (xs ++ ys)) (hys : ∀ it ∈ ys, it.Assembles) {n : Nat}
    (hn : size ys ≤ n) : instructions next c.assembler.buffer.length n (size xs) =
      some (emitted c.assembler.buffer (size xs) ys) := by
  induction ys generalizing xs n with
  | nil =>
      have hend : ¬ size xs < c.assembler.buffer.length := by simp [hlen]
      cases n <;> simp [instructions, hend, emitted]
  | cons it ys ih =>
      obtain ⟨hit, hrest⟩ := List.forall_mem_cons.mp hys
      have hl' : Loaded ((xs ++ [it]) ++ ys) 0
          { objects := c.assembler.objects, regions := [c.assembler.buffer] } := by simpa using hl
      have hlen' : c.assembler.buffer.length = size ((xs ++ [it]) ++ ys) := by simpa using hlen
      have hstep := fun n hn => @ih (xs ++ [it]) hl' hlen' hrest n hn
      cases it with
      | visit i | bind b =>
          simp only [size_append, size_cons, Item.size, size_nil, Nat.add_zero, Nat.zero_add] at hstep hn
          exact hstep n hn
      | code bc =>
          have hdec := hl.decode_code hit
          simp only [List.getElem?_cons_zero, Option.bind_some] at hdec
          have hpos := Bytecode.size_pos hit
          simp only [size_append, size_cons, Item.size, size_nil, Nat.add_zero] at hstep hn hlen
          obtain ⟨n, rfl⟩ : ∃ k, n = k + 1 := ⟨n - 1, by omega⟩
          have hlt : size xs < c.assembler.buffer.length := by omega
          rw [instructions, if_pos hlt, hnext, hdec]
          simp [hstep n (by omega), emitted]
      | jump op b =>
          obtain ⟨w, -, -, hword, hdec⟩ := hl.decode_jump hit
          simp only [List.getElem?_cons_zero, Option.bind_some] at hword hdec
          simp only [size_append, size_cons, Item.size, size_nil, Nat.add_zero] at hstep hn hlen
          obtain ⟨n, rfl⟩ : ∃ k, n = k + 1 := ⟨n - 1, by omega⟩
          have hlt : size xs < c.assembler.buffer.length := by omega
          rw [instructions, if_pos hlt, hnext, hdec]
          simp [hstep n (by omega), emitted, hword]

/-- **Round trip.**  The interpreter's fetch loop and the disassembler, started at the beginning of
what the assembler made of any operations, jumps and binds, visit exactly the operations that were
emitted, where they were emitted, and read their operands back. -/
theorem instructions_assembled (hwf : ∀ it ∈ is, it.Assembles) (hfit : size is < 2 ^ 63)
    (hobjs : (objs ++ refs is).length ≤ 2 ^ 64) (hrun : runItems is (start objs) = some c) :
    let b := c.assembler.buffer
    instructions (Bytecode.decode c.assembler.objects b) b.length b.length 0
        = some (emitted b 0 is) ∧
      instructions (Disassembler.instruction c.assembler.objects b) b.length b.length 0
        = some (emitted b 0 is) := by
  obtain ⟨w, c', hrun', hl⟩ := runItems_laid objs hfit
  cases hrun.symm.trans hrun'
  have hloaded : Loaded ([] ++ is) 0
      { objects := c.assembler.objects, regions := [c.assembler.buffer] } :=
    ⟨objs, w, c, hl, rfl, List.prefix_refl _, hfit, hl.objects ▸ hobjs⟩
  have hlen := hl.length
  refine ⟨instructions_from (fun _ => rfl) hloaded hlen hwf hlen.ge, ?_⟩
  exact instructions_from (fun pos => Disassembler.instruction_eq_decode _ _ pos) hloaded hlen hwf
    hlen.ge

end Walk

/-- A push of an object, both forms of a load, and a jump over one of them. -/
def roundTripSample : List Item :=
  [.code (.push (.string "gel")), .code (.loadLocal 3), .jump .jeq 0, .code (.loadLocal 12902),
    .bind 0, .code .ret]

theorem instructions_assembled_sample : ∃ c, runItems roundTripSample (start []) = some c ∧
    instructions (Bytecode.decode c.assembler.objects c.assembler.buffer)
        c.assembler.buffer.length c.assembler.buffer.length 0
      = some (emitted c.assembler.buffer 0 roundTripSample) := by
  obtain ⟨w, c, hrun, -⟩ := runItems_laid [] (show size roundTripSample < 2 ^ 63 by decide)
  refine ⟨c, hrun, (instructions_assembled ?_ (by decide) (by decide) hrun).1⟩
  simp [roundTripSample, Item.Assembles, Bytecode.isJump, Bytecode.jumpOps]

/-! ### Jumps -/

section Jumps

variable {objs : List Value} {is : List Item} {c : FlowGraphCompiler}

/-- Where the interpreter goes from a jump at `pos`: the code starts at zero. -/
def jumpTarget (buffer : List UInt8) (pos : Nat) : Option Int :=
  (Words.loadWord buffer (pos + 1)).map fun w => pos + Words.toInt w

/-- The word of a jump, and what the layout says of it. -/
theorem jumpTarget_eq (hfit : size is < 2 ^ 63) (hrun : runItems is (start objs) = some c)
    {xs ys : List Item} {op : Op} {b : BlockId} (his : is = xs ++ .jump op b :: ys) :
    ∃ w, jumpTarget c.assembler.buffer (size xs) = some (size xs + Words.toInt (w (size xs + 1))) ∧
      OperandOk w xs b ys := by
  obtain ⟨w, c', hrun', hl⟩ := runItems_laid objs hfit
  cases hrun.symm.trans hrun'
  refine ⟨w, ?_, hl.operand xs op b ys his⟩
  rw [jumpTarget, hl.buffer, his, loadWord_render]
  rfl

/-- **A jump to a label that is bound later** leads to the bind. -/
theorem jumpTarget_forward (hfit : size is < 2 ^ 63) (hrun : runItems is (start objs) = some c)
    {xs zs ws : List Item} {op : Op} {b : BlockId}
    (his : is = xs ++ .jump op b :: (zs ++ .bind b :: ws)) (hxs : Item.bind b ∉ xs)
    (hzs : Item.bind b ∉ zs) :
    jumpTarget c.assembler.buffer (size xs) = some (size (xs ++ .jump op b :: zs) : Nat) := by
  obtain ⟨w, htarget, hop⟩ := jumpTarget_eq hfit hrun his
  obtain ⟨ps, hps⟩ := track_pending_iff.mpr hxs
  rw [OperandOk, hps] at hop
  have hsize := congrArg size his
  simp only [size_append, size_cons, Item.size] at hsize
  rw [htarget, hop zs ws rfl hzs, Words.toInt_ofInt (by omega) (by omega)]
  simp only [size_append, size_cons, Item.size]
  rfl

/-- **A jump to a label that is bound already** leads one byte past the bind. -/
theorem jumpTarget_back (hfit : size is < 2 ^ 63) (hrun : runItems is (start objs) = some c)
    {xs zs ys : List Item} {op : Op} {b : BlockId}
    (his : is = xs ++ .bind b :: (zs ++ .jump op b :: ys)) (hzs : Item.bind b ∉ zs) :
    jumpTarget c.assembler.buffer (size (xs ++ .bind b :: zs)) = some (size xs + 1 : Nat) := by
  have his' : is = (xs ++ .bind b :: zs) ++ .jump op b :: ys := by simpa using his
  obtain ⟨w, htarget, hop⟩ := jumpTarget_eq hfit hrun his'
  have hbound : track b (xs ++ .bind b :: zs) = .bound (size xs) := by
    rw [track, trackFrom_append, trackFrom, LabelState.next, if_pos rfl, trackFrom_bound hzs,
      Nat.zero_add]
  rw [OperandOk, hbound] at hop
  have hsize := congrArg size his'
  simp only [size_append, size_cons, Item.size, Nat.zero_add] at hsize hop
  rw [htarget]
  simp only [size_append, size_cons, Item.size, Nat.zero_add]
  rw [hop, Words.toInt_ofInt (by omega) (by omega)]
  congr 1
  push_cast
  omega

/-- Every jump to a label leads to the position at which the label was bound. -/
def JumpsExact (is : List Item) (buffer : List UInt8) : Prop :=
  ∀ xs op b ys xs' ys', is = xs ++ .jump op b :: ys → is = xs' ++ .bind b :: ys' →
    jumpTarget buffer (size xs) = some (size xs' : Nat)

/-- No jump is emitted after the bind of its label. -/
def JumpsForward (is : List Item) : Prop :=
  ∀ xs op b ys, is = xs ++ .jump op b :: ys → Item.bind b ∉ xs

/-- The only bind of a label splits the items in one way. -/
theorem bind_unique {xs ys xs' ys' : List Item} {b : BlockId}
    (h : xs ++ .bind b :: ys = xs' ++ .bind b :: ys')
    (honce : (xs ++ .bind b :: ys).count (.bind b) ≤ 1) : xs = xs' ∧ ys = ys' := by
  have hcount : xs.count (.bind b) + ys.count (.bind b) = 0 := by
    simpa [List.count_append, ← Nat.add_assoc] using honce
  obtain ⟨hxs, hys⟩ := Nat.add_eq_zero_iff.mp hcount
  rcases List.append_eq_append_iff.mp h with ⟨zs, rfl, hz⟩ | ⟨zs, rfl, hz⟩
  · cases zs with
    | nil => simpa using hz
    | cons z zs =>
        obtain ⟨-, rfl⟩ := List.cons.inj hz
        exact absurd (List.count_eq_zero.mp hys) (by simp)
  · cases zs with
    | nil => simpa using hz.symm
    | cons z zs =>
        obtain ⟨rfl, -⟩ := List.cons.inj hz
        exact absurd (List.count_eq_zero.mp hxs) (by simp)

/-- **Jump targets.**  For items that bind every label at most once, every jump to a bound label
leads to where the label was bound if and only if no jump comes after the bind of its label. -/
theorem jumpsExact_iff (honce : ∀ b, is.count (.bind b) ≤ 1) (hfit : size is < 2 ^ 63)
    (hrun : runItems is (start objs) = some c) :
    JumpsExact is c.assembler.buffer ↔ JumpsForward is := by
  constructor
  · intro h xs op b ys his hmem
    obtain ⟨us, vs, rfl⟩ := List.append_of_mem hmem
    have hvs : Item.bind b ∉ vs := by
      have hcount := honce b
      rw [his] at hcount
      have hvs : vs.count (.bind b) = 0 := by
        simp at hcount
        omega
      exact List.count_eq_zero.mp hvs
    have his' : is = us ++ .bind b :: (vs ++ .jump op b :: ys) := by simpa using his
    have hexact := h _ op b ys us _ his his'
    rw [jumpTarget_back hfit hrun his' hvs] at hexact
    simp at hexact
  · intro h xs op b ys xs' ys' his his'
    have hxs := h xs op b ys his
    have hmem : Item.bind b ∈ ys := by
      have : Item.bind b ∈ xs ++ .jump op b :: ys := his ▸ his' ▸ by simp
      simpa [hxs] using this
    obtain ⟨zs, ws, rfl, hzs⟩ := List.eq_append_cons_of_mem hmem
    rw [jumpTarget_forward hfit hrun his hxs hzs]
    have hsplit : (xs ++ .jump op b :: zs) ++ .bind b :: ws = xs' ++ .bind b :: ys' := by
      simpa using his.symm.trans his'
    have h1 := honce b
    rw [his', ← hsplit] at h1
    rw [(bind_unique hsplit h1).1]

end Jumps

theorem jumpsExact_iff_sample :
    ∃ c, runItems [.jump .jump 0, .bind 0] (start []) = some c ∧
      (JumpsExact [.jump .jump 0, .bind 0] c.assembler.buffer ↔
        JumpsForward [.jump .jump 0, .bind 0]) := by
  obtain ⟨w, c, hrun, -⟩ := runItems_laid [] (show size [.jump .jump 0, .bind 0] < 2 ^ 63 by decide)
  refine ⟨c, hrun, jumpsExact_iff (fun b => ?_) (by decide) hrun⟩
  by_cases hb : (0 : BlockId) = b <;> simp [List.count_cons, hb]

/-- A jump back to the start of the buffer leads one byte too far. -/
theorem jumpsExact_back_fails : ∃ c, runItems [.bind 0, .jump .jump 0] (start []) = some c ∧
    ¬ JumpsExact [.bind 0, .jump .jump 0] c.assembler.buffer := by
  obtain ⟨w, c, hrun, -⟩ := runItems_laid [] (show size [.bind 0, .jump .jump 0] < 2 ^ 63 by decide)
  refine ⟨c, hrun, fun h => ?_⟩
  have hback := jumpTarget_back (by decide) hrun (show [.bind 0, .jump .jump 0]
    = [] ++ Item.bind 0 :: ([] ++ .jump .jump 0 :: []) from rfl) (by simp)
  rw [show ([] : List Item) ++ .bind 0 :: [] = [.bind 0] from rfl,
    h [.bind 0] .jump 0 [] [] _ rfl rfl] at hback
  simp at hback

end Gel
