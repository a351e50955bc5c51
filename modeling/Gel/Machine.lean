import Gel.Layout
import Gel.Interpreter
import Gel.Support.Runs

/-!
# Machine — running code that has been laid out

`Loaded is region m` says that a code region of the memory is the layout of some items.  Then the
interpreter, at the position of an item, executes that item:

* `Loaded.step_code`: an operation that is not a jump runs and control goes on behind it.
* `Loaded.step_forward`: a jump to a label that is bound further on leads to the place of the bind.
* `Loaded.step_back`: a jump to a label that is bound already leads one byte past it.

An `Activation` is the part of the runtime that stays while a procedure runs, and `Passes` a run
of it through a part of its code.
-/

namespace Gel

open Layout

/-! ### Decoding -/

namespace Bytecode

/-- A word behind an operation. -/
theorem loadWord_behind (pre : List UInt8) (op : UInt8) (w : UInt64) (rest : List UInt8) :
    Words.loadWord (pre ++ op :: (Words.encode w ++ rest)) (pre.length + 1) = some w := by
  have h := Words.loadWord_append (pre ++ [op]) w rest
  simpa using h

/-- A second word behind an operation. -/
theorem loadWord_behind₂ (pre : List UInt8) (op : UInt8) (x w : UInt64) (rest : List UInt8) :
    Words.loadWord (pre ++ op :: (Words.encode x ++ (Words.encode w ++ rest))) (pre.length + 9)
      = some w := by
  have h := Words.loadWord_append (pre ++ op :: Words.encode x) w rest
  simpa using h

/-- The object behind an operation. -/
theorem object?_behind {objs : List Value} {n : Nat} {v : Value} (hn : n < 2 ^ 64)
    (hv : [v] <+: objs.drop n) (pre : List UInt8) (op : UInt8) (rest : List UInt8) :
    object? objs (pre ++ op :: (Words.encode (.ofNat n) ++ rest)) (pre.length + 1) = some v := by
  obtain ⟨r, hr⟩ := hv
  have hget : objs[n]? = some v := by
    have h := congrArg (fun l : List Value => l[0]?) hr
    simpa using h.symm
  rw [object?, loadWord_behind, Option.bind_some, UInt64.toNat_ofNat', Nat.mod_eq_of_lt hn, hget]

/-- The operations that go through labels. -/
def isJump : Bytecode → Bool
  | jump .. => true
  | _ => false

/-- **The bytes of an operation decode to it.** -/
theorem decode_bytes {objs : List Value} {n : Nat} {c : Bytecode} (hc : c.isJump = false)
    (hn : c.refs ≠ [] → n < 2 ^ 64) (hrefs : c.refs <+: objs.drop n) (pre rest : List UInt8) :
    decode objs (pre ++ (c.bytes n ++ rest)) pre.length = some (c, pre.length + c.size) := by
  cases c with
  | jump => cases hc
  | push v => cases v with
      | bool b => cases b <;> simp [decode, bytes.eq_def, size]
      | null | long => simp [decode, bytes.eq_def, size, loadWord_behind]
      | _ => simp [decode, bytes.eq_def, size, object?_behind (hn (List.cons_ne_nil _ _)) hrefs]
  | storeLocal idx | loadLocal idx =>
      by_cases h : idx.toNat < 4
      · simp [decode, bytes.eq_def, size, h]
      · simp [decode, bytes.eq_def, size, h, loadWord_behind]
  | invoke | invokeNative | new =>
      simp [decode, bytes.eq_def, size, object?_behind (hn (List.cons_ne_nil _ _)) hrefs, loadWord_behind₂]
  | invokeDynamic => simp [decode, bytes.eq_def, size, loadWord_behind]
  | checkInstance | cast | loadField | storeField =>
      simp [decode, bytes.eq_def, size, object?_behind (hn (List.cons_ne_nil _ _)) hrefs]
  | _ => simp [decode, bytes.eq_def, size]

/-- The jumps of the assembler. -/
def jumpOps : List Op := [.jump, .jz, .jnz, .jeq, .jne]

theorem decode_jump (objs : List Value) {op : Op} (hop : op ∈ jumpOps) (w : UInt64)
    (pre rest : List UInt8) :
    decode objs (pre ++ op.raw :: (Words.encode w ++ rest)) pre.length
      = some (jump op (Words.toInt w), pre.length + 9) := by
  simp only [jumpOps, List.mem_cons, List.not_mem_nil, or_false] at hop
  obtain rfl | rfl | rfl | rfl | rfl := hop <;> simp [decode, loadWord_behind]

end Bytecode

/-! ### Code in memory -/

/-- A region of the memory is the layout of the items. -/
def Loaded (is : List Item) (region : Nat) (m : Memory) : Prop :=
  ∃ objs w c, LaidWith objs is w c ∧ m.regions[region]? = some c.assembler.buffer ∧
    c.assembler.objects <+: m.objects ∧ size is < 2 ^ 63 ∧ c.assembler.objects.length ≤ 2 ^ 64

/-- Assemble items as a new region. -/
def Memory.load (m : Memory) (is : List Item) : Memory :=
  match FlowGraphCompiler.runItems is (start m.objects) with
  | some c => { m with
      objects := c.assembler.objects
      regions := m.regions ++ [c.assembler.buffer] }
  | none => m

namespace Loaded

/-- What has been assembled lies in memory. -/
theorem load (m : Memory) {is : List Item} (hfit : size is < 2 ^ 63)
    (hobjs : (m.objects ++ refs is).length ≤ 2 ^ 64) :
    Loaded is m.regions.length (m.load is) := by
  obtain ⟨w, c, hrun, hl⟩ := runItems_laid m.objects hfit
  have hload : m.load is = { m with
      objects := c.assembler.objects
      regions := m.regions ++ [c.assembler.buffer] } := by rw [Memory.load, hrun]
  refine ⟨m.objects, w, c, hl, ?_, hload ▸ List.prefix_refl _, hfit, hl.objects ▸ hobjs⟩
  rw [hload]
  simp

/-- Code stays where it is when regions and the table of objects only grow. -/
theorem mono {is : List Item} {region : Nat} {m m' : Memory} (h : Loaded is region m)
    (hr : m'.regions[region]? = m.regions[region]?) (ho : m.objects <+: m'.objects) :
    Loaded is region m' := by
  obtain ⟨objs, w, c, hl, hb, hobj, hsize, hlen⟩ := h
  exact ⟨objs, w, c, hl, hr.trans hb, hobj.trans ho, hsize, hlen⟩

theorem size_lt {is : List Item} {region : Nat} {m : Memory} (h : Loaded is region m) :
    size is < 2 ^ 63 := by
  obtain ⟨-, -, -, -, -, -, hsize, -⟩ := h
  exact hsize

/-- What the interpreter decodes at an operation that is not a jump. -/
theorem decode_code {xs ys : List Item} {bc : Bytecode} {region : Nat} {m : Memory}
    (h : Loaded (xs ++ .code bc :: ys) region m) (hbc : bc.isJump = false) :
    (m.regions[region]?).bind (fun b => Bytecode.decode m.objects b (size xs))
      = some (bc, size xs + bc.size) := by
  obtain ⟨objs, w, c, hl, hb, hobj, -, hlen⟩ := h
  have hbuf : c.assembler.buffer = render w objs.length 0 xs ++
      (bc.bytes (objs.length + (refs xs).length) ++
        render w (objs.length + (refs xs).length + bc.refs.length) (size xs + bc.size) ys) := by
    rw [hl.buffer, render_append, Nat.zero_add, render]
  have hobjs : c.assembler.objects = (objs ++ refs xs) ++ (bc.refs ++ refs ys) := by
    rw [hl.objects, refs_append, List.append_assoc]
    rfl
  have hdrop : bc.refs <+: m.objects.drop (objs.length + (refs xs).length) := by
    obtain ⟨r, hr⟩ := hobj
    rw [← hr, hobjs, List.append_assoc, ← List.length_append, List.drop_left, List.append_assoc]
    exact List.prefix_append _ _
  have hn : bc.refs ≠ [] → objs.length + (refs xs).length < 2 ^ 64 := by
    intro hne
    have hpos : 0 < bc.refs.length := List.length_pos_iff.mpr hne
    rw [hobjs, List.length_append, List.length_append, List.length_append] at hlen
    omega
  have hpre : (render w objs.length 0 xs).length = size xs := length_render ..
  have hdec := Bytecode.decode_bytes hbc hn hdrop (render w objs.length 0 xs)
    (render w (objs.length + (refs xs).length + bc.refs.length) (size xs + bc.size) ys)
  rw [hpre] at hdec
  rw [hb, Option.bind_some, hbuf]
  exact hdec

/-- What the interpreter decodes at a jump. -/
theorem decode_jump {xs ys : List Item} {op : Op} {b : BlockId} {region : Nat} {m : Memory}
    (h : Loaded (xs ++ .jump op b :: ys) region m) (hop : op ∈ Bytecode.jumpOps) :
    ∃ w, OperandOk w xs b ys ∧ size xs + 9 + size ys < 2 ^ 63 ∧
      (m.regions[region]?).bind (fun b => Words.loadWord b (size xs + 1)) = some (w (size xs + 1)) ∧
      (m.regions[region]?).bind (fun b => Bytecode.decode m.objects b (size xs))
        = some (.jump op (Words.toInt (w (size xs + 1))), size xs + 9) := by
  obtain ⟨objs, w, c, hl, hb, -, hsize, -⟩ := h
  have hbuf : c.assembler.buffer = render w objs.length 0 xs ++
      op.raw :: (Words.encode (w (size xs + 1)) ++
        render w (objs.length + (refs xs).length) (size xs + 9) ys) := by
    rw [hl.buffer, render_append, Nat.zero_add, render]
  have hpre : (render w objs.length 0 xs).length = size xs := length_render ..
  refine ⟨w, hl.operand xs op b ys rfl, ?_, ?_, ?_⟩
  · simpa [Item.size, Nat.add_assoc] using hsize
  · rw [hb, Option.bind_some, hl.buffer]
    exact loadWord_render
  · rw [hb, Option.bind_some, hbuf]
    have hdec := Bytecode.decode_jump m.objects hop (w (size xs + 1))
      (render w objs.length 0 xs) (render w (objs.length + (refs xs).length) (size xs + 9) ys)
    rw [hpre] at hdec
    exact hdec

end Loaded

/-- A host whose events do nothing and that has no objects to give. -/
def Host.bare : Host where
  newInstance _ _ _ := .error .fatal
  newObservable _ _ := .error .fatal
  getField _ _ _ := .error .fatal
  setField _ _ _ _ := .error .fatal
  toString _ := ""
  runEvents rt := .ok rt
  nativeArgs _ := []
  applyNative _ _ _ := .error .fatal

/-! ### Activations -/

/-- The part of the runtime that stays while a procedure runs: its code region, its scope, the
frames below and where its own frame returns to. -/
structure Activation where
  region : Nat
  scope : ScopeId
  locals : ScopeId
  returnAddress : Option Address := none
  callers : List Frame := []
  result : Option Value := none

namespace Activation

/-- The runtime at a position of the procedure's code, with an operation stack and a memory. -/
def state (a : Activation) (pos : Nat) (s : List Value) (m : Memory) : Runtime where
  memory := m
  scope := some a.scope
  frames := { locals := a.locals, returnAddress := a.returnAddress, stack := s } :: a.callers
  current := some ⟨a.region, pos⟩
  result := a.result

variable (a : Activation) (p : Nat) (s : List Value) (m : Memory)

@[simp] theorem current_state : (a.state p s m).current = some ⟨a.region, p⟩ := rfl

@[simp] theorem memory_state : (a.state p s m).memory = m := rfl

@[simp] theorem scope_state : (a.state p s m).scope = some a.scope := rfl

@[simp] theorem stack?_state : (a.state p s m).stack? = some s := rfl

@[simp] theorem setStack_state (s' : List Value) : (a.state p s m).setStack s' = a.state p s' m :=
  rfl

@[simp] theorem push_state (v : Value) : (a.state p s m).push v = .ok (a.state p (v :: s) m) := rfl

@[simp] theorem pop_state (v : Value) : (a.state p (v :: s) m).pop = .ok (v, a.state p s m) := rfl

@[simp] theorem pop_state_nil : (a.state p [] m).pop = .error .undefined := rfl

theorem jumpTo_state {q : Nat} {target : Int} (h : target = q) :
    (a.state p s m).jumpTo a.region target = .ok (a.state q s m) := by
  rw [Runtime.jumpTo, if_pos (by omega), h]
  rfl

/-- The value `LoadLocal` reads at an index. -/
def slot (a : Activation) (m : Memory) (idx : UInt64) : Option Value :=
  (m.scopes.getLocalAt a.scope idx.toNat).map fun l => (m.scopes.valueOf l).getD .null

theorem loadLocal_state {idx : UInt64} {v : Value} (h : a.slot m idx = some v) :
    Interpreter.loadLocal idx (a.state p s m) = .ok (a.state p (v :: s) m) := by
  obtain ⟨l, hl, rfl⟩ := Option.map_eq_some_iff.mp h
  rw [Interpreter.loadLocal, scope_state, Option.bind_some, memory_state, hl]
  rfl

/-! What each operation does to the state of an activation. -/

section Exec

variable {p s m} {host : Host} {call : Interpreter.CallWithNArgs} {region start : Nat}

open Interpreter

@[simp] theorem exec_push (v : Value) :
    exec host call region start (.push v) (a.state p s m) = .ok (a.state p (v :: s) m) := rfl

theorem exec_unary {op : UnaryOp} {x y : Value} (h : op.apply x = .ok y) :
    exec host call region start (.unary op) (a.state p (x :: s) m) = .ok (a.state p (y :: s) m) := by
  change (op.apply x >>= fun y => (a.state p s m).push y) = _
  rw [h]
  rfl

theorem exec_binary {op : BinaryOp} {x y z : Value} (h : op.apply x y = .ok z) :
    exec host call region start (.binary op) (a.state p (y :: x :: s) m)
      = .ok (a.state p (z :: s) m) := by
  change (op.apply x y >>= fun z => (a.state p s m).push z) = _
  rw [h]
  rfl

theorem exec_checkInstance {c : ClassId} {x : Value} (h : x.type.isInstanceOf c = true) :
    exec host call region start (.checkInstance (.cls c)) (a.state p (x :: s) m)
      = .ok (a.state p (x :: s) m) := by
  change (if x.type.isInstanceOf c = true then Except.ok (a.state p (x :: s) m) else _) = _
  rw [if_pos h]

theorem exec_invoke {f : Value} {n : UInt64} (h : f.isProcedure = true) :
    exec host call region start (.invoke f n) (a.state p s m) = call f n.toNat (a.state p s m) := by
  rw [exec, invoke, if_pos h]

theorem exec_invokeNative {f : Value} {n : UInt64} (h : f.isProcedure = true) :
    exec host call region start (.invokeNative f n) (a.state p s m)
      = call f n.toNat (a.state p s m) := by
  rw [exec, invoke, if_pos h]

/-- `Jnz` goes on when the value is true. -/
theorem jump_jnz {target : Int} {x : Value} :
    jump a.region .jnz target (a.state p (x :: s) m) =
      if x.truth then .ok (a.state p s m) else (a.state p s m).jumpTo a.region target := rfl

/-- `Jne` goes on when the two values are equal. -/
theorem jump_jne {target : Int} {x y : Value} {r : Bool} (h : x.equals y = .ok r) :
    jump a.region .jne target (a.state p (y :: x :: s) m) =
      if r then .ok (a.state p s m) else (a.state p s m).jumpTo a.region target := by
  change (x.equals y >>= fun r => if r = true then Except.ok (a.state p s m) else
    (a.state p s m).jumpTo a.region target) = _
  rw [h]
  rfl

end Exec

end Activation

/-! ### Steps -/

namespace Interpreter

/-- One turn of the loop at a position of the code. -/
def Steps (host : Host) (call : CallWithNArgs) (region : Nat) (rt : Runtime) (p : Nat)
    (rt' : Runtime) : Prop :=
  rt.current = some ⟨region, p⟩ ∧ step host call region rt = .ok (.running rt')

/-- The interpreter is deterministic. -/
theorem steps_deterministic (host : Host) (call : CallWithNArgs) (region : Nat) :
    Runs.Deterministic (Steps host call region) := by
  rintro rt p rt₁ q rt₂ ⟨hp, h₁⟩ ⟨hq, h₂⟩
  cases hp.symm.trans hq
  cases h₁.symm.trans h₂
  exact ⟨rfl, rfl⟩

end Interpreter

open Interpreter

namespace Loaded

variable {host : Host} {call : CallWithNArgs} {a : Activation} {m : Memory}

theorem fetch_of_decode {is : List Item} {bc : Bytecode} {next : Nat} {s : List Value}
    (h : (m.regions[a.region]?).bind (fun b => Bytecode.decode m.objects b (size is))
      = some (bc, next)) :
    fetch a.region (a.state (size is) s m) = some (size is, bc, next) := by
  obtain ⟨b, hb, hdec⟩ := Option.bind_eq_some_iff.mp h
  simp [fetch, hb, hdec]

/-- **An operation that is not a jump** is executed where it lies. -/
theorem step_code {xs ys : List Item} {bc : Bytecode} {s : List Value} {rt : Runtime}
    (h : Loaded (xs ++ .code bc :: ys) a.region m) (hbc : bc.isJump = false) (hret : bc ≠ .ret)
    (hexec : exec host call a.region (size xs) bc (a.state (size xs + bc.size) s m) = .ok rt) :
    Steps host call a.region (a.state (size xs) s m) (size xs) rt := by
  refine ⟨rfl, ?_⟩
  rw [step, fetch_of_decode (h.decode_code hbc)]
  simp only [if_neg hret]
  exact (congrArg (Outcome.running <$> ·) hexec).trans rfl

/-- A return ends the run. -/
theorem step_ret {xs ys : List Item} {s : List Value}
    (h : Loaded (xs ++ .code .ret :: ys) a.region m) :
    step host call a.region (a.state (size xs) s m)
      = Outcome.returned <$> host.runEvents (a.state (size xs + Bytecode.ret.size) s m) := by
  rw [step, fetch_of_decode (h.decode_code rfl)]
  rfl

/-- **A jump to a label that is bound further on** leads to the place of the bind. -/
theorem step_forward {xs zs ws : List Item} {op : Op} {b : BlockId} {s : List Value}
    {rt : Runtime} (h : Loaded (xs ++ .jump op b :: (zs ++ .bind b :: ws)) a.region m)
    (hop : op ∈ Bytecode.jumpOps) (hxs : Item.bind b ∉ xs) (hzs : Item.bind b ∉ zs)
    (hjump : jump a.region op (size (xs ++ .jump op b :: zs) : Nat)
      (a.state (size xs + 9) s m) = .ok rt) :
    Steps host call a.region (a.state (size xs) s m) (size xs) rt := by
  obtain ⟨w, ho, hsize, -, hdec⟩ := h.decode_jump hop
  obtain ⟨ps, hps⟩ := track_pending_iff.mpr hxs
  rw [OperandOk, hps] at ho
  have hw := ho zs ws rfl hzs
  rw [size_append] at hsize
  have hint : Words.toInt (w (size xs + 1)) = 9 + size zs := by
    rw [hw, Words.toInt_ofInt (by omega) (by omega)]
  have htarget : (size xs : Int) + Words.toInt (w (size xs + 1))
      = (size (xs ++ .jump op b :: zs) : Nat) := by
    rw [hint, size_append, size_cons, Item.size]
    push_cast
    ring
  refine ⟨rfl, ?_⟩
  rw [step, fetch_of_decode hdec]
  simp only [reduceCtorEq, if_false, exec, htarget]
  exact (congrArg (Outcome.running <$> ·) hjump).trans rfl

/-- **A jump to a label that is bound already** leads one byte past the bind. -/
theorem step_back {xs ys : List Item} {op : Op} {b : BlockId} {q : Nat} {s : List Value}
    {rt : Runtime} (h : Loaded (xs ++ .jump op b :: ys) a.region m)
    (hop : op ∈ Bytecode.jumpOps) (hb : track b xs = .bound q) (hq : q ≤ size xs)
    (hjump : jump a.region op (q + 1 : Nat) (a.state (size xs + 9) s m) = .ok rt) :
    Steps host call a.region (a.state (size xs) s m) (size xs) rt := by
  obtain ⟨w, ho, hsize, -, hdec⟩ := h.decode_jump hop
  rw [OperandOk, hb] at ho
  have hint : (size xs : Int) + Words.toInt (w (size xs + 1)) = (q + 1 : Nat) := by
    rw [ho, Words.toInt_ofInt (by omega) (by omega)]
    push_cast
    ring
  refine ⟨rfl, ?_⟩
  rw [step, fetch_of_decode hdec]
  simp only [reduceCtorEq, if_false, exec, hint]
  exact (congrArg (Outcome.running <$> ·) hjump).trans rfl

end Loaded

/-! ### Runs through a part of the code -/

/-- From one position to another, on stacks and memories, the machine executes only what lies
between. -/
def Passes (host : Host) (call : CallWithNArgs) (a : Activation) (lo : Nat) (s : List Value)
    (m : Memory) (hi : Nat) (s' : List Value) (m' : Memory) : Prop :=
  ∃ ps, Runs.Run (Steps host call a.region) ps (a.state lo s m) (a.state hi s' m') ∧
    ∀ p ∈ ps, lo ≤ p ∧ p < hi

namespace Passes

variable {host : Host} {call : CallWithNArgs} {a : Activation} {m m' m'' : Memory}
  {s s' s'' : List Value} {lo mid hi : Nat}

theorem refl (lo : Nat) (s : List Value) (m : Memory) : Passes host call a lo s m lo s m :=
  ⟨[], .refl _, fun _ hp => nomatch hp⟩

theorem single (h : Steps host call a.region (a.state lo s m) lo (a.state hi s' m'))
    (hlt : lo < hi) : Passes host call a lo s m hi s' m' := by
  refine ⟨[lo], .single h, fun p hp => ?_⟩
  obtain rfl := List.mem_singleton.mp hp
  exact ⟨le_rfl, hlt⟩

theorem le (h : Passes host call a lo s m hi s' m') : lo ≤ hi := by
  obtain ⟨ps, hrun, hps⟩ := h
  cases hrun with
  | refl => exact le_rfl
  | head hs _ =>
      obtain ⟨hlo, hhi⟩ := hps _ List.mem_cons_self
      exact hlo.trans hhi.le

theorem trans (h : Passes host call a lo s m mid s' m')
    (h' : Passes host call a mid s' m' hi s'' m'') : Passes host call a lo s m hi s'' m'' := by
  have hle := h.le
  have hle' := h'.le
  obtain ⟨ps, hrun, hps⟩ := h
  obtain ⟨qs, hrun', hqs⟩ := h'
  refine ⟨ps ++ qs, hrun.trans hrun', fun p hp => ?_⟩
  rcases List.mem_append.mp hp with hp | hp
  · exact ⟨(hps p hp).1, (hps p hp).2.trans_le hle'⟩
  · exact ⟨hle.trans (hqs p hp).1, (hqs p hp).2⟩

end Passes

theorem Bytecode.size_pos {c : Bytecode} (h : c.isJump = false) : 0 < c.size := by
  cases c with
  | jump => cases h
  | push v => cases v with
      | bool b => cases b <;> simp [size, bytes.eq_def]
      | _ => simp [size, bytes.eq_def]
  | storeLocal idx | loadLocal idx => simp only [size, bytes.eq_def]; split <;> simp
  | _ => simp [size, bytes.eq_def]

/-- What stays of a memory while the procedure runs: its code, the table of objects and the values
of its slots. -/
structure Activation.Keeps (a : Activation) (m m' : Memory) : Prop where
  code : m'.regions[a.region]? = m.regions[a.region]?
  objects : m.objects <+: m'.objects
  slots : ∀ idx, a.slot m' idx = a.slot m idx

namespace Activation.Keeps

variable {a : Activation} {m m' m'' : Memory}

theorem refl (a : Activation) (m : Memory) : a.Keeps m m := ⟨rfl, List.prefix_refl _, fun _ => rfl⟩

theorem trans (h : a.Keeps m m') (h' : a.Keeps m' m'') : a.Keeps m m'' where
  code := h'.code.trans h.code
  objects := h.objects.trans h'.objects
  slots idx := (h'.slots idx).trans (h.slots idx)

theorem loaded (h : a.Keeps m m') {is : List Item} (hl : Loaded is a.region m) :
    Loaded is a.region m' :=
  hl.mono h.code h.objects

end Activation.Keeps

/-- The items take a stack and a memory to others wherever they lie, as long as none of the labels
in a range has been bound before them. -/
def Computes (host : Host) (call : CallWithNArgs) (a : Activation) (c : List Item) (lo hi : BlockId)
    (s : List Value) (m : Memory) (s' : List Value) (m' : Memory) : Prop :=
  ∀ pre post, (∀ l, lo ≤ l → l < hi → Item.bind l ∉ pre) →
    Loaded (pre ++ (c ++ post)) a.region m →
    Passes host call a (size pre) s m (size (pre ++ c)) s' m'

namespace Computes

variable {host : Host} {call : CallWithNArgs} {a : Activation} {m m' m'' : Memory}
  {s s' s'' : List Value} {c c' : List Item} {lo hi lo' hi' : BlockId}

theorem nil (lo hi : BlockId) (s : List Value) (m : Memory) :
    Computes host call a [] lo hi s m s m := by
  intro pre post _ _
  rw [List.append_nil]
  exact .refl _ _ _

/-- A wider range asks for more. -/
theorem mono (h : Computes host call a c lo hi s m s' m') (hlo : lo' ≤ lo) (hhi : hi ≤ hi') :
    Computes host call a c lo' hi' s m s' m' :=
  fun pre post hf hl => h pre post (fun l h₁ h₂ => hf l (hlo.trans h₁) (h₂.trans_le hhi)) hl

/-- Segments compose when the first does not bind the labels of the second. -/
theorem append {mid : BlockId} (h : Computes host call a c lo mid s m s' m')
    (h' : Computes host call a c' mid hi s' m' s'' m'') (hk : a.Keeps m m') (hlo : lo ≤ mid)
    (hhi : mid ≤ hi) (hfree : ∀ l, mid ≤ l → l < hi → Item.bind l ∉ c) :
    Computes host call a (c ++ c') lo hi s m s'' m'' := by
  intro pre post hf hl
  rw [List.append_assoc] at hl
  have hfirst := h pre (c' ++ post) (fun l h₁ h₂ => hf l h₁ (h₂.trans_le hhi)) hl
  have hl' : Loaded (pre ++ c ++ (c' ++ post)) a.region m' := by
    rw [List.append_assoc]
    exact hk.loaded hl
  have hsecond := h' (pre ++ c) post (fun l h₁ h₂ hm => by
    rcases List.mem_append.mp hm with hm | hm
    · exact hf l (hlo.trans h₁) h₂ hm
    · exact hfree l h₁ h₂ hm) hl'
  rw [List.append_assoc] at hsecond
  exact hfirst.trans hsecond

/-- Visiting an instruction emits nothing. -/
theorem visit (i : InstrId) (lo hi : BlockId) (s : List Value) (m : Memory) :
    Computes host call a [.visit i] lo hi s m s m := by
  intro pre post _ _
  rw [size_append]
  exact .refl _ _ _

/-- An operation that is not a jump. -/
theorem code {bc : Bytecode} {lo hi : BlockId} (hbc : bc.isJump = false) (hret : bc ≠ .ret)
    (hexec : ∀ p q, exec host call a.region p bc (a.state q s m) = .ok (a.state q s' m')) :
    Computes host call a [.code bc] lo hi s m s' m' := by
  intro pre post _ hl
  have hsize : size (pre ++ [.code bc]) = size pre + bc.size := by simp [Item.size]
  rw [hsize]
  exact .single (hl.step_code hbc hret (hexec _ _)) (Nat.lt_add_of_pos_right (Bytecode.size_pos hbc))

end Computes

end Gel
