import Gel.Object

/-!
# ListEquality — structural equality of lists

`Pair::Equals` compares the two `car`s and, where they are equal, the two `cdr`s.  The empty list is
a pair whose `car` and `cdr` are missing, and `Pair::Equals` does not test for it: on the left its
`car` is called through a null pointer, on the right its `car` is handed to the `Equals` of the left
`car`, and only that of `Long` and of `String` tests its operand.

* `decidesEquality_iff`: the values whose comparison decides whether they are the same.
* `clear_self_iff`: a value is compared with itself exactly when no empty list is in it.
-/

namespace Gel.Value

/-- Data built from numbers, booleans and strings by pairs and the empty list. -/
def isPlain : Value → Bool
  | null | bool _ | long _ | string _ => true
  | pair a d => a.isPlain && d.isPlain
  | _ => false

/-- `Object::Equals` decides whether `a` and `b` are the same value. -/
def DecidesEquality (a b : Value) : Prop := a.equals b = .ok (decide (a = b))

/-- The `Equals` of the class tests its operand for null. -/
def testsOperand : Value → Bool
  | long _ | string _ => true
  | _ => false

/-- Up to the first difference no empty list on the left meets a list, and none on the right meets a
list whose first element does not test its operand. -/
def Clear : Value → Value → Prop
  | null, null | null, pair .. => False
  | pair a _, null => a.testsOperand = true
  | pair a d, pair a' d' => Clear a a' ∧ (a = a' → Clear d d')
  | _, _ => True

/-- An empty list on the right, whose missing `car` is handed to the left one. -/
theorem equals_null_right {a d : Value} {e : Bool} (ha : a.isPlain = true) :
    (pair a d).equals null = .ok e ↔ a.testsOperand = true ∧ e = false := by
  cases a with
  | null => simp [equals, testsOperand]
  | bool b => simp [equals, testsOperand]
  | long n => simp [equals, testsOperand, eq_comm]
  | string s => simp [equals, testsOperand, eq_comm]
  | pair a d => simp [equals, testsOperand]
  | _ => cases ha

/-- On two lists that are not empty, the `cdr`s are compared where the `car`s are equal. -/
theorem equals_pair {a d a' d' : Value} {e : Bool} :
    (pair a d).equals (pair a' d') = .ok e ↔
      a.equals a' = .ok true ∧ d.equals d' = .ok e ∨ a.equals a' = .ok false ∧ e = false := by
  rw [equals]
  rcases a.equals a' with f | x
  · simp [Bind.bind, Except.bind]
  · cases x <;> simp [Bind.bind, Except.bind, Pure.pure, Except.pure, eq_comm]

/-- The comparison of two lists that are not empty is clear where those it makes are. -/
theorem clear_pair {a d a' d' : Value} :
    Clear (pair a d) (pair a' d') ↔ Clear a a' ∧ (a = a' → Clear d d') := by
  rw [Clear]

/-- What the comparison of plain data returns, and when it returns. -/
theorem equals_ok_iff {a b : Value} {e : Bool} (ha : a.isPlain = true) (hb : b.isPlain = true) :
    a.equals b = .ok e ↔ Clear a b ∧ e = decide (a = b) := by
  induction a generalizing b e with
  | null => cases b <;> simp [equals, Clear, eq_comm]
  | bool x => cases b <;> simp [equals, Clear, eq_comm, Bool.beq_eq_decide_eq]
  | long x => cases b <;> simp [equals, Clear, eq_comm, beq_eq_decide]
  | string x =>
      cases b with
      | symbol y => cases hb
      | _ => simp [equals, Clear, eq_comm, beq_eq_decide]
  | pair a d iha ihd =>
      rw [isPlain, Bool.and_eq_true] at ha
      cases b with
      | null => rw [equals_null_right ha.1, Clear]; simp
      | pair a' d' =>
          rw [isPlain, Bool.and_eq_true] at hb
          rw [equals_pair, clear_pair, iha ha.1 hb.1, iha ha.1 hb.1, ihd ha.2 hb.2]
          by_cases h : a = a'
          · simp [h, and_assoc]
          · simp [h]
      | _ => simp [equals, Clear, eq_comm]
  | _ => cases ha

/-- The comparison decides whether two values are the same exactly when it is clear. -/
theorem decidesEquality_iff {a b : Value} (ha : a.isPlain = true) (hb : b.isPlain = true) :
    DecidesEquality a b ↔ Clear a b := by
  rw [DecidesEquality, equals_ok_iff ha hb]
  exact and_iff_left rfl

/-- `(1 2)` and `(1)` up to the end of the shorter. -/
theorem decidesEquality_iff_longer :
    DecidesEquality (pair (long 1) (pair (long 2) null)) (pair (long 1) null) :=
  (decidesEquality_iff rfl rfl).mpr ⟨trivial, fun _ => rfl⟩

/-- `()` is not compared with itself. -/
theorem not_decidesEquality_null :
    ¬ ∀ a b : Value, a.isPlain = true → b.isPlain = true → DecidesEquality a b := by
  intro h
  cases h null null rfl rfl

/-! ### Values without the empty list -/

/-- No empty list is in the value. -/
def HasNoEmpty : Value → Prop
  | null => False
  | pair a d => HasNoEmpty a ∧ HasNoEmpty d
  | _ => True

/-- A value is compared with itself exactly when no empty list is in it; in particular no proper
list is. -/
theorem clear_self_iff {a : Value} : Clear a a ↔ HasNoEmpty a := by
  induction a with
  | pair a d iha ihd =>
      rw [clear_pair, HasNoEmpty, iha, ihd]
      simp
  | _ => simp [Clear, HasNoEmpty]

/-- Without empty lists every comparison is clear. -/
theorem HasNoEmpty.clear {a b : Value} (ha : HasNoEmpty a) (hb : HasNoEmpty b) : Clear a b := by
  induction a generalizing b with
  | null => exact ha.elim
  | pair a d iha ihd =>
      cases b with
      | null => exact hb.elim
      | pair a' d' =>
          rw [clear_pair]
          exact ⟨iha ha.1 hb.1, fun _ => ihd ha.2 hb.2⟩
      | _ => simp [Clear]
  | _ => simp [Clear]

/-- Without empty lists the comparison is an equivalence. -/
theorem HasNoEmpty.equals {a b : Value} (ha : HasNoEmpty a) (hb : HasNoEmpty b)
    (hap : a.isPlain = true) (hbp : b.isPlain = true) : a.equals b = .ok (decide (a = b)) :=
  (equals_ok_iff hap hbp).mpr ⟨ha.clear hb, rfl⟩

end Gel.Value
