import Gel.Emission
import Mathlib.Data.List.Induction

/-!
# Layout — what the bytes of the assembled code are

Items have sizes, and doing them from an empty buffer lays them out one behind the other.
`render` writes the layout down with the operands of the jumps left open; `OperandOk` says which
operands they are.  A label that has been bound gives a later jump an offset one past the bound
position, a label that is bound later gives an earlier jump the exact distance.

* `runItems_laid`: doing items from an empty buffer succeeds and lays them out.
* `LaidWith.label`: a label that nothing binds still holds the chain of the jumps to it.
-/

namespace Gel

namespace Bytecode

/-- The bytes of an operation, when the table holds `n` objects. -/
def bytes (n : Nat) : Bytecode → List UInt8
  | nop => [Op.nop.raw]
  | pop => [Op.pop.raw]
  | dup => [Op.dup.raw]
  | lookup => [Op.lookup.raw]
  | ret => [Op.ret.raw]
  | throw => [Op.throw.raw]
  | push v => match v with
      | .null => [Op.pushN.raw]
      | .long k => Op.pushI.raw :: Words.encode k
      | .bool true => [Op.pushT.raw]
      | .bool false => [Op.pushF.raw]
      | _ => Op.pushQ.raw :: Words.encode (.ofNat n)
  | storeLocal idx =>
      if h : idx.toNat < 4 then [(Op.storeLocalN ⟨idx.toNat, h⟩).raw]
      else Op.storeLocal.raw :: Words.encode idx
  | loadLocal idx =>
      if h : idx.toNat < 4 then [(Op.loadLocalN ⟨idx.toNat, h⟩).raw]
      else Op.loadLocal.raw :: Words.encode idx
  | invoke _ k => Op.invoke.raw :: (Words.encode (.ofNat n) ++ Words.encode k)
  | invokeDynamic k => Op.invokeDynamic.raw :: Words.encode k
  | invokeNative _ k => Op.invokeNative.raw :: (Words.encode (.ofNat n) ++ Words.encode k)
  | checkInstance _ => Op.checkInstance.raw :: Words.encode (.ofNat n)
  | jump .. => []
  | cast _ => Op.cast.raw :: Words.encode (.ofNat n)
  | new _ k => Op.new.raw :: (Words.encode (.ofNat n) ++ Words.encode k)
  | loadField _ => Op.loadField.raw :: Words.encode (.ofNat n)
  | storeField _ => Op.storeField.raw :: Words.encode (.ofNat n)
  | unary op => [(Op.unary op).raw]
  | binary op => [(Op.binary op).raw]

/-- The objects whose addresses an operation holds. -/
def refs : Bytecode → List Value
  | push v => match v with
      | .null | .long _ | .bool _ => []
      | v => [v]
  | invoke f _ | invokeNative f _ => [f]
  | checkInstance c | cast c | new c _ => [c]
  | loadField f | storeField f => [f]
  | _ => []

/-- The number of bytes of an operation. -/
def size (c : Bytecode) : Nat := (c.bytes 0).length

theorem length_bytes (c : Bytecode) (n : Nat) : (c.bytes n).length = c.size := by
  cases c with
  | push v => cases v with
      | bool b => cases b <;> rfl
      | _ => simp [size, bytes.eq_def]
  | _ => simp [size, bytes.eq_def]

theorem emit_eq (c : Bytecode) (a : Assembler) :
    c.emit a = { buffer := a.buffer ++ c.bytes a.objects.length, objects := a.objects ++ c.refs } := by
  cases c with
  | push v => cases v with
      | bool b =>
          cases b <;>
            simp [emit, Assembler.push.eq_def, bytes.eq_def, refs.eq_def, Assembler.emitOp]
      | _ => simp [emit, Assembler.push.eq_def, bytes.eq_def, refs.eq_def, Assembler.emitOp,
          Assembler.emitAddress, Assembler.emit]
  | storeLocal idx | loadLocal idx =>
      simp only [emit, Assembler.storeLocal, Assembler.loadLocal, bytes.eq_def, refs.eq_def]
      split <;> simp [Assembler.emitOp, Assembler.emit]
  | _ => simp [emit, Assembler.invoke, Assembler.invokeDynamic, Assembler.invokeNative,
      Assembler.ldfield, Assembler.stfield, bytes.eq_def, refs.eq_def, Assembler.emitOp,
      Assembler.emitAddress, Assembler.emit]

end Bytecode

namespace Item

/-- The number of bytes an item takes. -/
def size : Item → Nat
  | visit _ | bind _ => 0
  | code c => c.size
  | jump .. => 9

/-- The objects whose addresses an item holds. -/
def refs : Item → List Value
  | code c => c.refs
  | _ => []

end Item

namespace Layout

open FlowGraphCompiler

/-- The number of bytes items take. -/
def size (is : List Item) : Nat := (is.map Item.size).sum

/-- The objects whose addresses items hold. -/
def refs (is : List Item) : List Value := is.flatMap Item.refs

@[simp] theorem size_nil : size [] = 0 := rfl

@[simp] theorem size_cons (i : Item) (is : List Item) : size (i :: is) = i.size + size is := by
  simp [size]

@[simp] theorem size_append (is ks : List Item) : size (is ++ ks) = size is + size ks := by
  simp [size]

@[simp] theorem refs_append (is ks : List Item) : refs (is ++ ks) = refs is ++ refs ks := by
  simp [refs]

/-- The bytes of items from position `p` on, behind `n` objects, where `w` gives the operand of the
jump whose operand is at a position. -/
def render (w : Nat → UInt64) : Nat → Nat → List Item → List UInt8
  | _, _, [] => []
  | n, p, .visit _ :: is => render w n p is
  | n, p, .code c :: is => c.bytes n ++ render w (n + c.refs.length) (p + c.size) is
  | n, p, .jump op _ :: is => op.raw :: (Words.encode (w (p + 1)) ++ render w n (p + 9) is)
  | n, p, .bind _ :: is => render w n p is

theorem length_render (w : Nat → UInt64) (n p : Nat) (is : List Item) :
    (render w n p is).length = size is := by
  induction is generalizing n p with
  | nil => rfl
  | cons i is ih =>
      cases i with
      | jump =>
          simp [render, ih, Item.size]
          omega
      | _ => simp [render, ih, Item.size, Bytecode.length_bytes]

theorem render_append (w : Nat → UInt64) (n p : Nat) (is ks : List Item) :
    render w n p (is ++ ks) = render w n p is ++ render w (n + (refs is).length) (p + size is) ks := by
  induction is generalizing n p with
  | nil => rfl
  | cons i is ih =>
      cases i <;> simp [render, ih, Item.size, Item.refs, refs, Nat.add_assoc]

/-- Only the operands inside the layout matter. -/
theorem render_congr {w w' : Nat → UInt64} {n p : Nat} {is : List Item}
    (h : ∀ q, p ≤ q → q < p + size is → w q = w' q) : render w n p is = render w' n p is := by
  induction is generalizing n p with
  | nil => rfl
  | cons i is ih =>
      have htail : render w (n + i.refs.length) (p + i.size) is
          = render w' (n + i.refs.length) (p + i.size) is := by
        refine ih fun q hlo hhi => h q (by omega) ?_
        rw [size_cons]
        omega
      cases i with
      | visit | bind => exact htail
      | code c => rw [render, render]; exact congrArg _ htail
      | jump op b =>
          have hw : w (p + 1) = w' (p + 1) := h _ (by omega) (by rw [size_cons, Item.size]; omega)
          rw [render, render, hw]
          exact congrArg (fun r => op.raw :: (Words.encode (w' (p + 1)) ++ r)) htail

/-! ### The label of a block -/

/-- Where a label stands after some items: the position of its last bind, or the operands of the
jumps that wait for one, the last jump first. -/
inductive LabelState where
  | bound (pos : Nat)
  | pending (operands : List Nat)
  deriving DecidableEq

/-- The effect of an item at position `p` on the label of `b`. -/
def LabelState.next (b : BlockId) (p : Nat) : Item → LabelState → LabelState
  | .bind b', s => if b' = b then .bound p else s
  | .jump _ b', .pending ps => if b' = b then .pending ((p + 1) :: ps) else .pending ps
  | _, s => s

/-- The label of `b` after items from position `p` on. -/
def trackFrom (b : BlockId) : Nat → LabelState → List Item → LabelState
  | _, s, [] => s
  | p, s, i :: is => trackFrom b (p + i.size) (s.next b p i) is

/-- The label of `b` after all items. -/
def track (b : BlockId) (is : List Item) : LabelState := trackFrom b 0 (.pending []) is

theorem trackFrom_append (b : BlockId) (p : Nat) (s : LabelState) (is ks : List Item) :
    trackFrom b p s (is ++ ks) = trackFrom b (p + size is) (trackFrom b p s is) ks := by
  induction is generalizing p s with
  | nil => rfl
  | cons i is ih => rw [List.cons_append, trackFrom, trackFrom, ih, size_cons, Nat.add_assoc]

theorem track_snoc (b : BlockId) (is : List Item) (i : Item) :
    track b (is ++ [i]) = (track b is).next b (size is) i := by
  rw [track, trackFrom_append, Nat.zero_add]
  rfl

/-- Items that do not bind `b` leave a bound label where it is. -/
theorem trackFrom_bound {b : BlockId} {is : List Item} (h : Item.bind b ∉ is) (p q : Nat) :
    trackFrom b p (.bound q) is = .bound q := by
  induction is generalizing p with
  | nil => rfl
  | cons i is ih =>
      have hn : (LabelState.bound q).next b p i = .bound q := by
        cases i with
        | bind b' =>
            have hne : b' ≠ b := fun he => h (he ▸ List.mem_cons_self)
            simp [LabelState.next, hne]
        | _ => rfl
      rw [trackFrom, hn, ih fun hm => h (List.mem_cons_of_mem _ hm)]

/-- Without a bind, the label of `b` is not bound. -/
theorem trackFrom_pending {b : BlockId} {is : List Item} (h : Item.bind b ∉ is) (p : Nat)
    (ps : List Nat) : ∃ qs, trackFrom b p (.pending ps) is = .pending qs := by
  induction is generalizing p ps with
  | nil => exact ⟨ps, rfl⟩
  | cons i is ih =>
      have hn : ∃ qs, (LabelState.pending ps).next b p i = .pending qs := by
        cases i with
        | bind b' =>
            have hne : b' ≠ b := fun he => h (he ▸ List.mem_cons_self)
            exact ⟨ps, by simp [LabelState.next, hne]⟩
        | jump op b' =>
            simp only [LabelState.next]
            split <;> exact ⟨_, rfl⟩
        | _ => exact ⟨ps, rfl⟩
      obtain ⟨qs, hqs⟩ := hn
      rw [trackFrom, hqs]
      exact ih (fun hm => h (List.mem_cons_of_mem _ hm)) _ _

/-- A bound label stays bound. -/
theorem trackFrom_bound_stays (b : BlockId) (is : List Item) (p q : Nat) :
    ∃ q', trackFrom b p (.bound q) is = .bound q' := by
  induction is generalizing p q with
  | nil => exact ⟨q, rfl⟩
  | cons i is ih =>
      cases i with
      | bind b' =>
          rw [trackFrom, LabelState.next]
          split
          · exact ih _ _
          · exact ih _ _
      | _ => exact ih _ _

/-- A label that some item binds is bound. -/
theorem trackFrom_bound_of_mem {b : BlockId} {is : List Item} (h : Item.bind b ∈ is) (p : Nat)
    (s : LabelState) : ∃ q, trackFrom b p s is = .bound q := by
  induction is generalizing p s with
  | nil => cases h
  | cons i is ih =>
      by_cases hm : Item.bind b ∈ is
      · exact ih hm _ _
      · obtain rfl : Item.bind b = i := by simpa [hm] using h
        refine ⟨p, ?_⟩
        rw [trackFrom, LabelState.next, if_pos rfl, trackFrom_bound hm]

/-- The label of `b` is unbound exactly when nothing binds it. -/
theorem track_pending_iff {b : BlockId} {is : List Item} :
    (∃ ps, track b is = .pending ps) ↔ Item.bind b ∉ is := by
  refine ⟨fun ⟨ps, hps⟩ hm => ?_, fun h => trackFrom_pending h 0 []⟩
  obtain ⟨q, hq⟩ := trackFrom_bound_of_mem hm 0 (.pending [])
  exact nomatch hps.symm.trans hq

/-- The operands that wait for an unbound label are those of all the jumps to it. -/
theorem mem_trackFrom_pending {b : BlockId} {is : List Item} {p x : Nat} {ps qs : List Nat}
    (h : trackFrom b p (.pending ps) is = .pending qs) :
    x ∈ qs ↔ x ∈ ps ∨ ∃ xs op ys, is = xs ++ .jump op b :: ys ∧ x = p + size xs + 1 := by
  induction is generalizing p ps with
  | nil =>
      cases h
      simp
  | cons i is ih =>
      have hshift : (∃ xs op ys, i :: is = xs ++ .jump op b :: ys ∧ x = p + size xs + 1) ↔
          (∃ op, i = .jump op b ∧ x = p + 1) ∨
            ∃ xs op ys, is = xs ++ .jump op b :: ys ∧ x = p + i.size + size xs + 1 := by
        constructor
        · rintro ⟨xs, op, ys, he, rfl⟩
          cases xs with
          | nil => exact .inl ⟨op, (List.cons.inj he).1, rfl⟩
          | cons y xs =>
              obtain ⟨rfl, rfl⟩ := List.cons.inj he
              exact .inr ⟨xs, op, ys, rfl, by rw [size_cons]; omega⟩
        · rintro (⟨op, rfl, rfl⟩ | ⟨xs, op, ys, rfl, rfl⟩)
          · exact ⟨[], op, is, rfl, rfl⟩
          · exact ⟨i :: xs, op, ys, rfl, by rw [size_cons]; omega⟩
      rw [hshift]
      rw [trackFrom] at h
      cases i with
      | bind b' =>
          by_cases he : b' = b
          · rw [LabelState.next, if_pos he] at h
            obtain ⟨q, hq⟩ := trackFrom_bound_stays b is (p + (Item.bind b').size) p
            exact nomatch h.symm.trans hq
          · rw [LabelState.next, if_neg he] at h
            rw [ih h]
            simp
      | jump op b' =>
          rw [LabelState.next] at h
          by_cases he : b' = b
          · rw [if_pos he] at h
            rw [ih h, List.mem_cons, or_comm (a := x = p + 1), or_assoc]
            simp [he]
          · rw [if_neg he] at h
            rw [ih h]
            simp [he]
      | _ =>
          rw [ih h]
          simp

/-- Two jumps of a layout whose operands are at one position are one jump. -/
theorem jump_unique {xs xs' ys ys' : List Item} {op op' : Op} {b b' : BlockId}
    (h : xs ++ .jump op b :: ys = xs' ++ .jump op' b' :: ys') (hs : size xs = size xs') :
    xs = xs' ∧ op = op' ∧ b = b' ∧ ys = ys' := by
  induction xs generalizing xs' with
  | nil =>
      cases xs' with
      | nil =>
          obtain ⟨h₁, rfl⟩ := List.cons.inj h
          cases h₁
          exact ⟨rfl, rfl, rfl, rfl⟩
      | cons x xs' =>
          obtain ⟨rfl, -⟩ := List.cons.inj h
          rw [size_nil, size_cons, Item.size] at hs
          omega
  | cons x xs ih =>
      cases xs' with
      | nil =>
          obtain ⟨rfl, -⟩ := List.cons.inj h
          rw [size_nil, size_cons, Item.size] at hs
          omega
      | cons x' xs' =>
          obtain ⟨rfl, ht⟩ := List.cons.inj h
          rw [size_cons, size_cons] at hs
          obtain ⟨rfl, hrest⟩ := ih ht (by omega)
          exact ⟨rfl, hrest⟩

/-! ### The invariant of the assembler -/

/-- A label's word, and behind it the words of the operands that wait for the label. -/
def Chain (w : Nat → UInt64) : Int → List Nat → Prop
  | x, [] => x = 0
  | x, p :: ps => x = (p : Int) + 8 ∧ Chain w (Words.toInt (w p)) ps

/-- The word of a label in the state it is in. -/
def LabelOk (w : Nat → UInt64) (l : Label) : LabelState → Prop
  | .bound q => l = .bindTo ((q : Int) + 1)
  | .pending ps => Chain w l.pos ps

/-- The operand of a jump to `b` behind `xs` and before `ys`: to a label that is bound already it
leads one past the bound position, to the next bind of the label it leads exactly. -/
def OperandOk (w : Nat → UInt64) (xs : List Item) (b : BlockId) (ys : List Item) : Prop :=
  match track b xs with
  | .bound q => w (size xs + 1) = Words.ofInt ((q : Int) + 1 - size xs)
  | .pending _ => ∀ zs ws, ys = zs ++ .bind b :: ws → Item.bind b ∉ zs →
      w (size xs + 1) = Words.ofInt (9 + size zs)

/-- The items have been laid out from an empty buffer, behind a table of objects, with `w` the
operands of the jumps. -/
structure LaidWith (objs : List Value) (is : List Item) (w : Nat → UInt64)
    (c : FlowGraphCompiler) : Prop where
  buffer : c.assembler.buffer = render w objs.length 0 is
  objects : c.assembler.objects = objs ++ refs is
  label : ∀ b, LabelOk w (c.labels b) (track b is)
  operand : ∀ xs op b ys, is = xs ++ .jump op b :: ys → OperandOk w xs b ys

theorem LaidWith.length {objs : List Value} {is : List Item} {w : Nat → UInt64}
    {c : FlowGraphCompiler} (h : LaidWith objs is w c) : c.assembler.buffer.length = size is := by
  rw [h.buffer, length_render]

/-- A chain does not see operands outside it. -/
theorem Chain.congr {w w' : Nat → UInt64} {x : Int} {ps : List Nat}
    (h : Chain w x ps) (hw : ∀ p ∈ ps, w p = w' p) : Chain w' x ps := by
  induction ps generalizing x with
  | nil => exact h
  | cons p ps ih =>
      refine ⟨h.1, ?_⟩
      rw [← hw p List.mem_cons_self]
      exact ih h.2 fun q hq => hw q (List.mem_cons_of_mem _ hq)

/-- The operands of pending jumps lie inside the layout. -/
theorem pending_lt {b : BlockId} {is : List Item} {ps : List Nat} (h : track b is = .pending ps)
    {p : Nat} (hp : p ∈ ps) : p < size is := by
  obtain hn | ⟨xs, op, ys, rfl, rfl⟩ := (mem_trackFrom_pending h).mp hp
  · cases hn
  · simp only [size_append, size_cons, Item.size]
    omega

/-- Where an item lies in a list that ends in `i`: it is the last one, or it lies before. -/
theorem snoc_eq_append_cons {is xs ys : List Item} {i x : Item}
    (h : is ++ [i] = xs ++ x :: ys) :
    (i = x ∧ ys = [] ∧ xs = is) ∨ ∃ zs, ys = zs ++ [i] ∧ is = xs ++ x :: zs := by
  rcases List.eq_nil_or_concat' ys with rfl | ⟨zs, z, rfl⟩
  · obtain ⟨h₁, h₂⟩ := List.append_inj' h rfl
    exact .inl ⟨List.singleton_inj.mp h₂, rfl, h₁.symm⟩
  · rw [← List.cons_append, ← List.append_assoc] at h
    obtain ⟨h₁, h₂⟩ := List.append_inj' h rfl
    exact .inr ⟨zs, by rw [List.singleton_inj.mp h₂], h₁⟩

/-- Items behind a jump that do not bind its label leave its operand alone. -/
theorem OperandOk.snoc {w : Nat → UInt64} {xs ys : List Item} {b : BlockId} {i : Item}
    (h : OperandOk w xs b ys) (hi : i ≠ .bind b) : OperandOk w xs b (ys ++ [i]) := by
  rw [OperandOk] at h ⊢
  cases ht : track b xs with
  | bound q => rw [ht] at h; exact h
  | pending ps =>
      rw [ht] at h
      intro zs ws he hz
      obtain ⟨hb, -⟩ | ⟨vs, -, he'⟩ := snoc_eq_append_cons he
      · exact absurd hb hi
      · exact h zs vs he' hz

/-- Visiting an instruction emits nothing. -/
theorem LaidWith.visit {objs : List Value} {is : List Item} {w : Nat → UInt64}
    {c : FlowGraphCompiler} (h : LaidWith objs is w c) (i : InstrId) :
    LaidWith objs (is ++ [.visit i]) w c where
  buffer := by rw [render_append, ← h.buffer, render, render, List.append_nil]
  objects := by rw [refs_append, h.objects]; simp [refs, Item.refs]
  label b := by rw [track_snoc]; exact h.label b
  operand xs op b ys he := by
    obtain ⟨hj, -⟩ | ⟨zs, rfl, he'⟩ := snoc_eq_append_cons he
    · cases hj
    · exact (h.operand xs op b zs he').snoc nofun

/-- An operation is laid out behind the others. -/
theorem LaidWith.code {objs : List Value} {is : List Item} {w : Nat → UInt64}
    {c : FlowGraphCompiler} (h : LaidWith objs is w c) (bc : Bytecode) :
    LaidWith objs (is ++ [.code bc]) w (c.emit bc.emit) where
  buffer := by
    rw [FlowGraphCompiler.emit, Bytecode.emit_eq, render_append, ← h.buffer, h.objects, render,
      render, List.append_nil, List.length_append]
  objects := by
    rw [FlowGraphCompiler.emit, Bytecode.emit_eq, refs_append, h.objects]
    simp [refs, Item.refs]
  label b := by rw [track_snoc]; exact h.label b
  operand xs op b ys he := by
    obtain ⟨hj, -⟩ | ⟨zs, rfl, he'⟩ := snoc_eq_append_cons he
    · cases hj
    · exact (h.operand xs op b zs he').snoc nofun

/-! ### Jumps and binds -/

/-- The pending operands of a label are distinct, and there are no more of them than bytes. -/
theorem pending_nodup {b : BlockId} {is : List Item} {ps : List Nat}
    (h : track b is = .pending ps) : ps.Nodup ∧ ps.length ≤ size is := by
  induction is using List.reverseRecOn generalizing ps with
  | nil =>
      cases h
      simp
  | append_singleton is i ih =>
      rw [track_snoc] at h
      cases ht : track b is with
      | bound q =>
          rw [ht] at h
          cases i with
          | bind b' => rw [LabelState.next] at h; split at h <;> cases h
          | _ => cases h
      | pending qs =>
          rw [ht] at h
          obtain ⟨hn, hl⟩ := ih ht
          cases i with
          | bind b' =>
              rw [LabelState.next] at h
              split at h
              · cases h
              · cases h
                simpa [Item.size] using ⟨hn, hl⟩
          | jump op b' =>
              rw [LabelState.next] at h
              split at h
              · cases h
                refine ⟨List.nodup_cons.mpr ⟨fun hm => ?_, hn⟩, ?_⟩
                · have := pending_lt ht hm
                  omega
                · simp only [List.length_cons, size_append, size_cons, Item.size, size_nil]
                  omega
              · cases h
                refine ⟨hn, ?_⟩
                rw [size_append]
                omega
          | _ =>
              cases h
              refine ⟨hn, ?_⟩
              rw [size_append]
              omega

/-- A pending label's word is not negative, and in the range of words. -/
theorem Chain.range {w : Nat → UInt64} {x : Int} {ps : List Nat} {n : Nat} (h : Chain w x ps)
    (hlt : ∀ p ∈ ps, p < n) : 0 ≤ x ∧ x < n + 8 := by
  cases ps with
  | nil =>
      rw [Chain] at h
      omega
  | cons p ps =>
      have := hlt p List.mem_cons_self
      have := h.1
      omega

theorem render_update {w : Nat → UInt64} {n : Nat} {is : List Item} {q : Nat} {x : UInt64}
    (h : size is ≤ q) : render (Function.update w q x) n 0 is = render w n 0 is :=
  render_congr fun _ _ hp => Function.update_of_ne (by omega) _ _

/-- A jump is laid out behind the others.  To a bound label it gets its operand, otherwise its
operand joins the chain of the label. -/
theorem LaidWith.jump {objs : List Value} {is : List Item} {w : Nat → UInt64}
    {c : FlowGraphCompiler} (h : LaidWith objs is w c) (op : Op) (b : BlockId)
    (hfit : size is + 9 < 2 ^ 63) :
    ∃ w', LaidWith objs (is ++ [.jump op b]) w' (c.jump op b) := by
  have hlen := h.length
  -- what both cases share: one more operand `x`, and a label `l` for `b`
  have key : ∀ (x : UInt64) (l : Label),
      c.assembler.jump op (c.labels b) = (l, (c.assembler.emitOp op).emit x) →
      LabelOk (Function.update w (size is + 1) x) l (track b (is ++ [.jump op b])) →
      OperandOk (Function.update w (size is + 1) x) is b [] →
      LaidWith objs (is ++ [.jump op b]) (Function.update w (size is + 1) x) (c.jump op b) := by
    intro x l hj hl ho
    have hold : ∀ q, q < size is + 1 → Function.update w (size is + 1) x q = w q :=
      fun q hq => Function.update_of_ne (by omega) _ _
    have hcj : c.jump op b = { assembler := (c.assembler.emitOp op).emit x
                               labels := Function.update c.labels b l } := by
      rw [FlowGraphCompiler.jump, hj]
    rw [hcj]
    refine ⟨?_, ?_, fun b' => ?_, fun xs op' b' ys he => ?_⟩
    · rw [render_append, render_update (by omega), ← h.buffer]
      simp [Assembler.emit, Assembler.emitOp, render]
    · rw [refs_append]
      simpa [Assembler.emit, Assembler.emitOp, refs, Item.refs] using h.objects
    · by_cases hb : b' = b
      · rw [hb]
        simpa using hl
      · have hlab := h.label b'
        rw [track_snoc]
        change LabelOk _ (Function.update c.labels b l b') _
        rw [Function.update_of_ne hb]
        cases ht : track b' is with
        | bound q => rw [ht] at hlab; exact hlab
        | pending ps =>
            rw [ht] at hlab
            rw [LabelState.next, if_neg (Ne.symm hb)]
            exact hlab.congr fun p hp => (hold p (Nat.lt_succ_of_lt (pending_lt ht hp))).symm
    · obtain ⟨hj', rfl, rfl⟩ | ⟨zs, rfl, he'⟩ := snoc_eq_append_cons he
      · cases hj'
        exact ho
      · have hq : size xs + 1 < size is + 1 := by
          rw [he', size_append, size_cons, Item.size]
          omega
        have hop := (h.operand xs op' b' zs he').snoc (i := .jump op b) nofun
        rw [OperandOk] at hop ⊢
        rwa [hold _ hq]
  have hlab := h.label b
  cases ht : track b is with
  | bound q =>
      rw [ht] at hlab
      have hbound : (c.labels b).isBound = true := by
        rw [hlab]
        exact decide_eq_true (show -((q : Int) + 1) - 8 < 0 by omega)
      have hpos : (c.labels b).getPos = (q : Int) + 1 := by
        rw [Label.getPos, if_pos hbound, hlab]
        simp only [Label.bindTo]
        omega
      refine ⟨_, key (Words.ofInt ((q : Int) + 1 - size is)) (c.labels b) ?_ ?_ ?_⟩
      · rw [Assembler.jump, if_pos hbound, hpos, hlen]
      · rw [track_snoc, ht]
        exact hlab
      · rw [OperandOk, ht]
        exact Function.update_self _ _ _
  | pending ps =>
      rw [ht] at hlab
      obtain ⟨hlo, hhi⟩ := hlab.range fun p hp => pending_lt ht hp
      have hbound : (c.labels b).isBound = false := by
        rw [Label.isBound, decide_eq_false_iff_not]
        omega
      refine ⟨_, key (Words.ofInt (c.labels b).pos) (.linkTo ((size is : Int) + 1)) ?_ ?_ ?_⟩
      · rw [Assembler.jump, hbound, if_neg Bool.false_ne_true, Assembler.emitLabelLink]
        simp [Assembler.emitOp, hlen]
      · rw [track_snoc, ht, LabelState.next, if_pos rfl]
        refine ⟨by rw [Label.linkTo]; push_cast; rfl, ?_⟩
        rw [Function.update_self, Words.toInt_ofInt (by omega) (by omega)]
        exact hlab.congr fun p hp =>
          (Function.update_of_ne (by have := pending_lt ht hp; omega) _ _).symm
      · rw [OperandOk, ht]
        intro zs ws he
        simp at he

/-- The operands of `ps`, with those in the list patched to lead to `bound`. -/
def patched (w : Nat → UInt64) (ps : List Nat) (bound : Int) (p : Nat) : UInt64 :=
  if p ∈ ps then Words.ofInt (bound - p) else w p

/-- Storing at the operand of a jump. -/
theorem storeWord_render {w : Nat → UInt64} {n : Nat} {xs ys : List Item} {op : Op} {b : BlockId}
    (x : UInt64) :
    Words.storeWord (render w n 0 (xs ++ .jump op b :: ys)) (size xs + 1) x =
      render (Function.update w (size xs + 1) x) n 0 (xs ++ .jump op b :: ys) := by
  have hxs : (render w n 0 xs ++ [op.raw]).length = size xs + 1 := by
    rw [List.length_append, length_render]
    rfl
  have hys : render (Function.update w (size xs + 1) x) (n + (refs xs).length) (size xs + 9) ys
      = render w (n + (refs xs).length) (size xs + 9) ys :=
    render_congr fun q hq _ => Function.update_of_ne (by omega) _ _
  have hstore := Words.storeWord_append (render w n 0 xs ++ [op.raw]) (w (size xs + 1)) x
    (render w (n + (refs xs).length) (size xs + 9) ys)
  rw [hxs] at hstore
  rw [render_append, render_append, render_update (by omega), Nat.zero_add, render, render, hys,
    Function.update_self]
  simpa using hstore

/-- The operand of a jump reads back. -/
theorem loadWord_render {w : Nat → UInt64} {n : Nat} {xs ys : List Item} {op : Op} {b : BlockId} :
    Words.loadWord (render w n 0 (xs ++ .jump op b :: ys)) (size xs + 1)
      = some (w (size xs + 1)) := by
  have hxs : (render w n 0 xs ++ [op.raw]).length = size xs + 1 := by
    rw [List.length_append, length_render]
    rfl
  have hload := Words.loadWord_append (render w n 0 xs ++ [op.raw]) (w (size xs + 1))
    (render w (n + (refs xs).length) (size xs + 9) ys)
  rw [hxs] at hload
  rw [render_append, Nat.zero_add, render]
  simpa using hload

/-- The loop of `Bind` patches the operands of the label's chain, and nothing else. -/
theorem patch_chain {n : Nat} {is : List Item} (bound : Int) {ps : List Nat} {fuel : Nat}
    {a : Assembler} {l : Label} {w : Nat → UInt64} (ha : a.buffer = render w n 0 is)
    (hc : Chain w l.pos ps) (hn : ps.Nodup) (hf : ps.length ≤ fuel)
    (hps : ∀ p ∈ ps, ∃ xs op b ys, is = xs ++ .jump op b :: ys ∧ p = size xs + 1) :
    Assembler.patch bound fuel a l = some { a with buffer := render (patched w ps bound) n 0 is } := by
  induction ps generalizing fuel a l w with
  | nil =>
      have hl : l.isLinked = false := by
        rw [Chain] at hc
        exact decide_eq_false (by omega)
      have hw : patched w [] bound = w := rfl
      cases fuel <;> simp [Assembler.patch, hl, hw, ← ha]
  | cons p ps ih =>
      obtain ⟨fuel, rfl⟩ : ∃ m, fuel = m + 1 := ⟨fuel - 1, by simp at hf; omega⟩
      obtain ⟨hp, hc⟩ := hc
      obtain ⟨hnp, hn⟩ := List.nodup_cons.mp hn
      have hl : l.isLinked = true := decide_eq_true (by omega)
      have hpos : l.getLinkPos.toNat = p := by rw [Label.getLinkPos]; omega
      obtain ⟨xs, op, b, ys, rfl, hx⟩ := hps p List.mem_cons_self
      have hload : Words.loadWord a.buffer p = some (w p) := by rw [ha, hx]; exact loadWord_render
      have hstore : Words.storeWord a.buffer p (Words.ofInt (bound - p)) =
          render (Function.update w p (Words.ofInt (bound - p))) n 0 (xs ++ .jump op b :: ys) := by
        rw [ha, hx]
        exact storeWord_render _
      have hrest : Chain (Function.update w p (Words.ofInt (bound - p))) (Words.toInt (w p)) ps :=
        hc.congr fun q hq =>
          (Function.update_of_ne (fun he : q = p => hnp (he ▸ hq)) _ _).symm
      have hw : patched (Function.update w p (Words.ofInt (bound - p))) ps bound
          = patched w (p :: ps) bound := by
        funext q
        by_cases hq : q = p
        · simp [patched, hq, hnp]
        · simp [patched, hq]
      have hnext := ih (a := { a with
          buffer := Words.storeWord a.buffer p (Words.ofInt (bound - p)) })
        (l := ⟨Words.toInt (w p)⟩) hstore hrest hn (by simpa using hf)
        (fun q hq => hps q (List.mem_cons_of_mem _ hq))
      simp only [Assembler.patch, hl, if_true, hpos, hload, Option.bind_eq_bind, Option.bind_some]
      rw [hnext, hw]

/-- On a bound label the loop of `Bind` does nothing. -/
theorem patch_bound {bound : Int} {fuel : Nat} {a : Assembler} {l : Label}
    (h : l.isLinked = false) : Assembler.patch bound fuel a l = some a := by
  cases fuel <;> simp [Assembler.patch, h]

/-- A jump whose label is bound before the end keeps its operand at a further bind. -/
theorem OperandOk.snoc_of_bound {w : Nat → UInt64} {xs ys : List Item} {b : BlockId} {i : Item}
    (h : OperandOk w xs b ys) (hb : Item.bind b ∈ xs ∨ Item.bind b ∈ ys) :
    OperandOk w xs b (ys ++ [i]) := by
  rw [OperandOk] at h ⊢
  cases ht : track b xs with
  | bound q => rw [ht] at h; exact h
  | pending ps =>
      rw [ht] at h
      have hys : Item.bind b ∈ ys := hb.resolve_left (track_pending_iff.mp ⟨ps, ht⟩)
      intro zs ws he hz
      obtain ⟨-, -, rfl⟩ | ⟨vs, -, he'⟩ := snoc_eq_append_cons he
      · exact absurd hys hz
      · exact h zs vs he' hz

/-- Binding a label takes no bytes; the operands of its pending jumps lead here. -/
theorem LaidWith.bind {objs : List Value} {is : List Item} {w : Nat → UInt64}
    {c : FlowGraphCompiler} (h : LaidWith objs is w c) (b : BlockId) :
    ∃ w' c', c.bind b = some c' ∧ LaidWith objs (is ++ [.bind b]) w' c' := by
  have hlen := h.length
  have hlab := h.label b
  have hrefs : refs (is ++ [.bind b]) = refs is := by rw [refs_append]; exact List.append_nil _
  have hrender : ∀ w, render w objs.length 0 (is ++ [.bind b]) = render w objs.length 0 is :=
    fun w => by rw [render_append]; exact List.append_nil _
  cases ht : track b is with
  | bound q =>
      rw [ht] at hlab
      have hlink : (c.labels b).isLinked = false := by
        rw [hlab]
        exact decide_eq_false (show ¬ 0 < -((q : Int) + 1) - 8 by omega)
      refine ⟨w, { assembler := c.assembler
                   labels := Function.update c.labels b (.bindTo ((size is : Int) + 1)) }, ?_,
        ?_, ?_, fun b' => ?_, fun xs op b' ys he => ?_⟩
      · rw [FlowGraphCompiler.bind, Assembler.bind, patch_bound hlink, hlen]
        rfl
      · rw [hrender]
        exact h.buffer
      · rw [hrefs]
        exact h.objects
      · rw [track_snoc]
        by_cases hb : b' = b
        · rw [hb, LabelState.next, if_pos rfl]
          exact Function.update_self _ _ _
        · rw [LabelState.next, if_neg (Ne.symm hb)]
          change LabelOk _ (Function.update c.labels b _ b') _
          rw [Function.update_of_ne hb]
          exact h.label b'
      · obtain ⟨hj, -⟩ | ⟨zs, rfl, he'⟩ := snoc_eq_append_cons he
        · cases hj
        · have ho := h.operand xs op b' zs he'
          by_cases hb : b' = b
          · refine ho.snoc_of_bound ?_
            have hm : Item.bind b ∈ is := by
              by_contra hno
              obtain ⟨ps, hps⟩ := track_pending_iff.mpr hno
              exact nomatch ht.symm.trans hps
            rw [he', hb] at *
            simpa using hm
          · exact ho.snoc fun hi => hb (Item.bind.inj hi).symm
  | pending ps =>
      rw [ht] at hlab
      obtain ⟨hnodup, hcount⟩ := pending_nodup ht
      have hjump : ∀ p ∈ ps, ∃ xs op ys, is = xs ++ .jump op b :: ys ∧ p = size xs + 1 := by
        intro p hp
        obtain hn | ⟨xs, op, ys, he, hx⟩ := (mem_trackFrom_pending ht).mp hp
        · cases hn
        · exact ⟨xs, op, ys, he, by omega⟩
      have hpatch := patch_chain ((size is : Int) + 1) h.buffer hlab hnodup
        (hcount.trans hlen.ge)
        (fun p hp => let ⟨xs, op, ys, he, hx⟩ := hjump p hp; ⟨xs, op, b, ys, he, hx⟩)
      -- the operands of other labels, and of jumps that are resolved, are not in `ps`
      have hother : ∀ xs op b' ys, is = xs ++ .jump op b' :: ys → b' ≠ b → size xs + 1 ∉ ps := by
        intro xs op b' ys he hne hp
        obtain ⟨xs', op', ys', he', hx⟩ := hjump _ hp
        exact hne (jump_unique (he.symm.trans he') (by omega)).2.2.1
      have hsame : ∀ xs op b' ys, is = xs ++ .jump op b' :: ys → b' ≠ b →
          patched w ps ((size is : Int) + 1) (size xs + 1) = w (size xs + 1) :=
        fun xs op b' ys he hne => if_neg (hother xs op b' ys he hne)
      refine ⟨patched w ps ((size is : Int) + 1),
        { assembler := { c.assembler with
            buffer := render (patched w ps ((size is : Int) + 1)) objs.length 0 is }
          labels := Function.update c.labels b (.bindTo ((size is : Int) + 1)) }, ?_,
        ?_, ?_, fun b' => ?_, fun xs op b' ys he => ?_⟩
      · rw [FlowGraphCompiler.bind, Assembler.bind, hlen, ← hlen, hlen] at *
        simp only [hpatch]
        rfl
      · rw [hrender]
      · rw [hrefs]
        exact h.objects
      · rw [track_snoc]
        by_cases hb : b' = b
        · rw [hb, LabelState.next, if_pos rfl]
          exact Function.update_self _ _ _
        · rw [LabelState.next, if_neg (Ne.symm hb)]
          change LabelOk _ (Function.update c.labels b _ b') _
          rw [Function.update_of_ne hb]
          have hlab' := h.label b'
          cases ht' : track b' is with
          | bound q => rw [ht'] at hlab'; exact hlab'
          | pending qs =>
              rw [ht'] at hlab'
              refine hlab'.congr fun p hp => ?_
              obtain hn | ⟨xs, op, ys, he, hx⟩ := (mem_trackFrom_pending ht').mp hp
              · cases hn
              · rw [hx, Nat.zero_add]
                exact (hsame xs op b' ys he hb).symm
      · obtain ⟨hj, -⟩ | ⟨zs, rfl, he'⟩ := snoc_eq_append_cons he
        · cases hj
        · by_cases hb : b' = b
          · obtain rfl := hb
            have hno : Item.bind b' ∉ is := track_pending_iff.mp ⟨ps, ht⟩
            obtain ⟨qs, hqs⟩ := track_pending_iff.mpr
              (fun hm => hno (he' ▸ List.mem_append_left _ hm) : Item.bind b' ∉ xs)
            rw [OperandOk, hqs]
            intro us ws heq hus
            obtain ⟨-, -, rfl⟩ | ⟨vs, -, heq'⟩ := snoc_eq_append_cons heq
            · have hmem : size xs + 1 ∈ ps :=
                (mem_trackFrom_pending ht).mpr (.inr ⟨xs, op, us, he', by omega⟩)
              rw [patched, if_pos hmem, he', size_append, size_cons, Item.size]
              congr 1
              push_cast
              omega
            · exact absurd (by rw [he', heq']; simp) hno
          · have ho := (h.operand xs op b' zs he').snoc (i := .bind b)
              fun hi => hb (Item.bind.inj hi).symm
            rw [OperandOk] at ho ⊢
            rwa [hsame xs op b' zs he' hb]

/-! ### Doing items -/

/-- Doing one item lays it out. -/
theorem LaidWith.item {objs : List Value} {is : List Item} {w : Nat → UInt64}
    {c : FlowGraphCompiler} (h : LaidWith objs is w c) (i : Item)
    (hfit : size (is ++ [i]) < 2 ^ 63) :
    ∃ w' c', c.runItem i = some c' ∧ LaidWith objs (is ++ [i]) w' c' := by
  cases i with
  | visit i => exact ⟨w, c, rfl, h.visit i⟩
  | code bc => exact ⟨w, _, rfl, h.code bc⟩
  | jump op b =>
      obtain ⟨w', h'⟩ := h.jump op b (by simpa [Item.size] using hfit)
      exact ⟨w', _, rfl, h'⟩
  | bind b => exact h.bind b

/-- The state a compilation starts in: an empty buffer, and a table of objects. -/
def start (objs : List Value) : FlowGraphCompiler := { assembler := { objects := objs } }

theorem laidWith_start (objs : List Value) : LaidWith objs [] (fun _ => 0) (start objs) where
  buffer := rfl
  objects := (List.append_nil _).symm
  label _ := rfl
  operand xs _ _ _ he := by simp at he

/-- **Layout.** Doing items from an empty buffer succeeds, and lays them out. -/
theorem runItems_laid (objs : List Value) {is : List Item} (hfit : size is < 2 ^ 63) :
    ∃ w c, runItems is (start objs) = some c ∧ LaidWith objs is w c := by
  induction is using List.reverseRecOn with
  | nil => exact ⟨_, _, rfl, laidWith_start objs⟩
  | append_singleton is i ih =>
      obtain ⟨w, c, hc, h⟩ := ih (by rw [size_append] at hfit; omega)
      obtain ⟨w', c', hc', h'⟩ := h.item i hfit
      refine ⟨w', c', ?_, h'⟩
      rw [runItems_append]
      simp only [hc, Option.bind_some, runItems_cons, hc', runItems_nil]

end Layout

end Gel
