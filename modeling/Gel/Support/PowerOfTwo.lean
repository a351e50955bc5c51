import Mathlib.Algebra.Group.Nat.Defs
import Mathlib.Data.Nat.Size
import Mathlib.Order.Bounds.Defs

/-!
# PowerOfTwo — rounding up by smearing bits

A number that is or-ed with itself shifted by 1, 2, 4 and so on ends with every bit below its
highest one set; one more is a power of two.

* `Smears.double`: one step.
* `Smears.eq_two_pow_sub_one`: the end.
* `isLeast_two_pow_size`: the power that is reached from the number before `n` is the least one that
  is at least `n`.
-/

/-- A bit of `y` is set when one of the `k` bits of `x` from there on is. -/
def Smears (x k y : Nat) : Prop :=
  ∀ i, y.testBit i = true ↔ ∃ j < k, x.testBit (i + j) = true

namespace Smears

variable {x k y i : Nat}

theorem one (x : Nat) : Smears x 1 x := by
  intro i
  simp

/-- **One step.**  Shifting by `k` doubles the reach. -/
theorem double (h : Smears x k y) : Smears x (k + k) (y ||| y >>> k) := by
  intro i
  rw [Nat.testBit_or, Nat.testBit_shiftRight, Bool.or_eq_true, h i, h (k + i)]
  constructor
  · rintro (⟨j, hj, hbit⟩ | ⟨j, hj, hbit⟩)
    · exact ⟨j, Nat.lt_add_right k hj, hbit⟩
    · refine ⟨k + j, Nat.add_lt_add_left hj k, ?_⟩
      rwa [← Nat.add_assoc, Nat.add_comm i k]
  · rintro ⟨j, hj, hbit⟩
    by_cases hk : j < k
    · exact .inl ⟨j, hk, hbit⟩
    · -- the bit is one of those that the shift brings
      have hle : k ≤ j := Nat.le_of_not_lt hk
      refine .inr ⟨j - k, Nat.sub_lt_left_of_lt_add hle hj, ?_⟩
      rwa [Nat.add_right_comm, Nat.add_sub_cancel' hle, Nat.add_comm j i]

/-- The number has a bit from `i` on. -/
theorem exists_testBit_iff : (∃ j, x.testBit (i + j) = true) ↔ i < x.size := by
  rw [Nat.lt_size]
  constructor
  · rintro ⟨j, hbit⟩
    have hpow : 2 ^ i ≤ 2 ^ (i + j) := Nat.pow_le_pow_right Nat.two_pos (Nat.le_add_right i j)
    exact Nat.le_trans hpow (Nat.ge_two_pow_of_testBit hbit)
  · intro hle
    obtain ⟨j, hj, hbit⟩ := Nat.exists_ge_and_testBit_of_ge_two_pow hle
    exact ⟨j - i, by rwa [Nat.add_sub_cancel' hj]⟩

/-- **The end.**  When the reach covers the number, every bit below its size is set. -/
theorem eq_two_pow_sub_one (h : Smears x k y) (hx : x < 2 ^ k) : y = 2 ^ x.size - 1 := by
  apply Nat.eq_of_testBit_eq
  intro i
  rw [Nat.testBit_two_pow_sub_one, Bool.eq_iff_iff, h i, decide_eq_true_iff, ← exists_testBit_iff]
  constructor
  · rintro ⟨j, -, hbit⟩
    exact ⟨j, hbit⟩
  · rintro ⟨j, hbit⟩
    have hlt : 2 ^ (i + j) < 2 ^ k := Nat.lt_of_le_of_lt (Nat.ge_two_pow_of_testBit hbit) hx
    have hj : i + j < k := (Nat.pow_lt_pow_iff_right Nat.one_lt_two).mp hlt
    exact ⟨j, Nat.lt_of_le_of_lt (Nat.le_add_left j i) hj, hbit⟩

end Smears

/-- The least power of two that is at least `n`. -/
theorem isLeast_two_pow_size {n : Nat} (hn : 1 ≤ n) :
    IsLeast {p | (∃ m, p = 2 ^ m) ∧ n ≤ p} (2 ^ (n - 1).size) := by
  refine ⟨⟨⟨_, rfl⟩, Nat.le_of_pred_lt (Nat.lt_size_self (n - 1))⟩, ?_⟩
  rintro p ⟨⟨m, rfl⟩, hp⟩
  have hlt : n - 1 < 2 ^ m := Nat.lt_of_lt_of_le (Nat.sub_one_lt_of_lt hn) hp
  exact Nat.pow_le_pow_right Nat.two_pos (Nat.size_le.mpr hlt)
