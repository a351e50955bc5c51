import Gel.Folding

/-!
# Division — no zero divisor

`DEFINE_BINARY_OP` writes one body for all operations of `Long`: it converts a right operand that
is a `Double` to a `uint64_t` and applies the C++ operator, whatever the two words are.  A division
by zero and the conversion of a number that does not fit are undefined.  `Double` computes in
floating point, where every quotient has a value.

* `completes_iff`: the operands with which an operation completes.
-/

namespace Gel

/-- The operations on numbers that a source can name. -/
def BinaryOp.arithmetic : List BinaryOp := [.add, .subtract, .multiply, .divide, .modulus]

/-- Whether the operation of `Long` divides. -/
def BinaryOp.divides : BinaryOp → Bool
  | divide | modulus => true
  | _ => false

namespace Value

/-- An object of class `Long` or `Double`. -/
def isNumber : Value → Bool
  | long _ | double _ => true
  | _ => false

end Value

namespace BinaryOp

/-- `Long`'s operation divides, and its right operand is zero as a `uint64_t`. -/
def DividesByZero (op : BinaryOp) : Value → Value → Prop
  | .long _, b => op.divides = true ∧ b.toUInt64? = some (.ok 0)
  | _, _ => False

/-- `Interpreter::ExecBinaryOp` completes on the operands `a` and `b`, wherever it is reached, and
so does `BinaryOpExpr::EvalToConstant` on expressions with these values; neither divides words by
zero. -/
def Completes (op : BinaryOp) (a b : Value) : Prop :=
  (∀ host call region start rt s, rt.stack? = some (b :: a :: s) →
    ∃ rt', Interpreter.exec host call region start (.binary op) rt = .ok rt')
  ∧ (∀ cfg m s (l r : Expr), l.evalToConstant cfg m s = some (some a) →
    r.evalToConstant cfg m s = some (some b) →
    ∃ v, (Expr.binaryOp op l r).evalToConstant cfg m s = some (some v))
  ∧ ¬ op.DividesByZero a b

/-- What the right operand of `Long`'s operations must be: a number that has a value as a word,
which as a divisor is not zero. -/
def Defined (op : BinaryOp) : Value → Value → Prop
  | .long _, .long n => op.divides = true → n ≠ 0
  | .long _, .double d => Binary64.IsFinite d ∧
      (Binary64.Below d 1 ∨ Binary64.isNegative d = false ∧ Binary64.Below d (2 ^ 64)) ∧
      (op.divides = true → ¬ Binary64.Below d 1)
  | _, _ => True

end BinaryOp

/-! ### The operations -/

theorem Value.toUInt64?_double {d n : UInt64} :
    (Value.double d).toUInt64? = some (.ok n) ↔ Binary64.toUInt64? d = some n := by
  rw [toUInt64?]
  rcases Binary64.toUInt64? d with - | m <;> simp

namespace BinaryOp

variable {op : BinaryOp} {a n : UInt64} {b : Value}

/-- The operation on words has a value unless it divides by zero. -/
theorem apply_long (hop : op ∈ arithmetic) (hb : b.toUInt64? = some (.ok n)) :
    (∃ v, op.apply (.long a) b = .ok v) ↔ (op.divides = true → n ≠ 0) := by
  simp only [arithmetic, List.mem_cons, List.not_mem_nil, or_false] at hop
  by_cases hn : n = 0 <;> rcases hop with rfl | rfl | rfl | rfl | rfl <;>
    simp [apply, Value.add, Value.sub, Value.mul, Value.div, Value.mod, Value.arith, Value.divLong,
      Value.modLong, hb, hn, divides, Bind.bind, Except.bind, Functor.map, Except.map]

/-- What does not convert to a word has no value. -/
theorem apply_undefined {f : Fault} (hop : op ∈ arithmetic) (hb : b.toUInt64? = some (.error f))
    (v : Value) : op.apply (.long a) b ≠ .ok v := by
  simp only [arithmetic, List.mem_cons, List.not_mem_nil, or_false] at hop
  rcases hop with rfl | rfl | rfl | rfl | rfl <;>
    simp [apply, Value.add, Value.sub, Value.mul, Value.div, Value.mod, Value.arith, hb, Bind.bind,
      Except.bind]

/-- Floating point has a quotient for every divisor. -/
theorem apply_double (hop : op ∈ arithmetic) (d : UInt64) (b : Value) :
    ∃ v, op.apply (.double d) b = .ok v := by
  simp only [arithmetic, List.mem_cons, List.not_mem_nil, or_false] at hop
  rcases hop with rfl | rfl | rfl | rfl | rfl <;>
    rcases h : b.toFloat? with - | x <;>
    simp [apply, Value.add, Value.sub, Value.mul, Value.div, Value.mod, Value.arith, h]

/-- The operands for which the operation has a value. -/
theorem apply_ok_iff {a b : Value} (hop : op ∈ arithmetic) (ha : a.isNumber = true)
    (hb : b.isNumber = true) : (∃ v, op.apply a b = .ok v) ↔ op.Defined a b := by
  cases a with
  | double d => exact iff_of_true (apply_double hop d b) (by simp [Defined])
  | long a =>
      cases b with
      | long n => exact apply_long hop rfl
      | double d =>
          rcases hd : Binary64.toUInt64? d with - | n
          · have hnot : ¬ (Binary64.toUInt64? d).isSome = true := by simp [hd]
            rw [Binary64.isSome_toUInt64?_iff] at hnot
            refine iff_of_false ?_ fun h => hnot ⟨h.1, h.2.1⟩
            rintro ⟨v, hv⟩
            exact apply_undefined (f := .undefined) hop (by rw [Value.toUInt64?, hd]) v hv
          · have hsome : (Binary64.toUInt64? d).isSome = true := by simp [hd]
            rw [apply_long hop (Value.toUInt64?_double.mpr hd)]
            have hzero : n = 0 ↔ Binary64.IsFinite d ∧ Binary64.Below d 1 := by
              rw [← Binary64.toUInt64?_eq_zero_iff, hd, Option.some_inj]
            have hfit := Binary64.isSome_toUInt64?_iff.mp hsome
            rw [Defined, Ne, hzero]
            constructor
            · intro h
              exact ⟨hfit.1, hfit.2, fun hop hlt => h hop ⟨hfit.1, hlt⟩⟩
            · intro h hop hz
              exact h.2.2 hop hz.2
      | _ => cases hb
  | _ => cases ha

/-- No operation that has a value divides by zero. -/
theorem not_dividesByZero {a b v : Value} (hop : op ∈ arithmetic) (h : op.apply a b = .ok v) :
    ¬ op.DividesByZero a b := by
  cases a with
  | long a =>
      rintro ⟨hdiv, hb⟩
      exact (apply_long hop hb).mp ⟨v, h⟩ hdiv rfl
  | _ => exact id

end BinaryOp

/-! ### The two evaluators -/

namespace Runtime

variable {rt : Runtime} {v : Value} {s : List Value}

theorem stack?_setStack (h : rt.stack? = some (v :: s)) (t : List Value) :
    (rt.setStack t).stack? = some t := by
  rw [stack?, Option.map_eq_some_iff] at h
  obtain ⟨f, hf, -⟩ := h
  rcases hfs : rt.frames with - | ⟨g, fs⟩
  · simp [hfs] at hf
  · simp [stack?, setStack, hfs]

theorem pop_eq (h : rt.stack? = some (v :: s)) : rt.pop = .ok (v, rt.setStack s) := by
  rw [pop, h]

theorem push_eq (h : rt.stack? = some s) (v : Value) : rt.push v = .ok (rt.setStack (v :: s)) := by
  rw [push, h]

end Runtime

/-- `Interpreter::ExecBinaryOp` on the two values it pops. -/
theorem Interpreter.exec_binary_of {host : Host} {call : CallWithNArgs} {region start : Nat}
    {op : BinaryOp} {rt : Runtime} {a b v : Value} {s : List Value}
    (h : rt.stack? = some (b :: a :: s)) (hv : op.apply a b = .ok v) :
    ∃ rt', exec host call region start (.binary op) rt = .ok rt' := by
  have hrhs := Runtime.stack?_setStack h (a :: s)
  have hlhs := Runtime.stack?_setStack hrhs s
  refine ⟨((rt.setStack (a :: s)).setStack s).setStack (v :: s), ?_⟩
  rw [exec, Runtime.pop_eq h]
  change ((rt.setStack (a :: s)).pop >>= fun x => op.apply x.1 b >>= fun y => x.2.push y) = _
  rw [Runtime.pop_eq hrhs]
  change (op.apply a b >>= fun y => ((rt.setStack (a :: s)).setStack s).push y) = _
  rw [hv]
  exact Runtime.push_eq hlhs v

/-- An operation completes exactly when its operands are defined for it. -/
theorem BinaryOp.completes_iff {op : BinaryOp} {a b : Value} (hop : op ∈ arithmetic)
    (ha : a.isNumber = true) (hb : b.isNumber = true) : op.Completes a b ↔ op.Defined a b := by
  rw [← apply_ok_iff hop ha hb]
  constructor
  · rintro ⟨-, heval, -⟩
    obtain ⟨v, hv⟩ := heval {} {} 0 (.literal a) (.literal b) rfl rfl
    rw [Expr.evalToConstant_binary hop rfl rfl, Option.map_eq_some_iff] at hv
    obtain ⟨x, hx, -⟩ := hv
    exact ⟨x, toOption_eq_some hx⟩
  · rintro ⟨v, hv⟩
    refine ⟨?_, ?_, not_dividesByZero hop hv⟩
    · intro host call region start rt s hs
      exact Interpreter.exec_binary_of hs hv
    · intro cfg m s l r hl hr
      refine ⟨v, ?_⟩
      rw [Expr.evalToConstant_binary hop hl hr, hv]
      rfl

/-- `(/ 10 2.5)` divides by two. -/
theorem BinaryOp.completes_iff_double :
    divide.Completes (.long 10) (.double 0x4004000000000000) :=
  (completes_iff (by decide) rfl rfl).mpr
    ⟨by decide +kernel, .inr (by decide +kernel), fun _ => by decide +kernel⟩

/-- `(/ 1 0)` divides by zero. -/
theorem BinaryOp.not_completes_one_zero :
    ¬ ∀ op ∈ arithmetic, ∀ a b : Value, a.isNumber = true → b.isNumber = true →
      op.Completes a b := by
  intro h
  obtain ⟨-, -, hzero⟩ := h .divide (by decide) (.long 1) (.long 0) rfl rfl
  exact hzero ⟨rfl, rfl⟩

end Gel
