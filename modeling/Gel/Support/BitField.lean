import Mathlib.Data.Nat.Bitwise

/-!
# BitField — fields of bits in a word

A field is a run of bits inside a word.  `decode` shifts it down and masks it, `encode` masks a
value and shifts it up, and `update` puts an encoded value in the place of the field.

* `getLsbD_update`: what a word consists of behind an update, bit by bit.
* `decode_update`, `decode_update_of_disjoint`: a field reads back what was put in, up to its width,
  and nothing that was put in another one.
-/

/-- A run of bits of a word of `w` bits. -/
structure BitField (w : Nat) where
  position : Nat
  size : Nat
  fits : position + size ≤ w

namespace BitField

variable {w : Nat} (f g : BitField w) (x v : BitVec w) (i : Nat)

/-- As many ones as the field is wide. -/
def mask : BitVec w := (1#w <<< f.size) - 1#w

def maskInPlace : BitVec w := f.mask <<< f.position

def decode : BitVec w := (v >>> f.position) &&& f.mask

def encode : BitVec w := (x &&& f.mask) <<< f.position

def update : BitVec w := f.encode x ||| (~~~f.maskInPlace &&& v)

/-- The bit belongs to the field. -/
def Covers : Prop := f.position ≤ i ∧ i < f.position + f.size

instance : Decidable (f.Covers i) := inferInstanceAs (Decidable (_ ∧ _))

/-- No bit belongs to both fields. -/
def Disjoint : Prop := f.position + f.size ≤ g.position ∨ g.position + g.size ≤ f.position

instance : Decidable (f.Disjoint g) := inferInstanceAs (Decidable (_ ∨ _))

theorem toNat_mask : f.mask.toNat = 2 ^ f.size - 1 := by
  have hfits : f.size ≤ w := (Nat.le_add_left _ _).trans f.fits
  rcases hfits.lt_or_eq with hlt | heq
  · have hpow : 2 ^ f.size < 2 ^ w := Nat.pow_lt_pow_right (by decide) hlt
    have hone : 1 < 2 ^ w := Nat.one_lt_two_pow (Nat.ne_of_gt ((Nat.zero_le _).trans_lt hlt))
    have hshift : (1#w <<< f.size).toNat = 2 ^ f.size := by
      rw [BitVec.toNat_shiftLeft, BitVec.toNat_ofNat, Nat.mod_eq_of_lt hone, Nat.shiftLeft_eq,
        Nat.one_mul, Nat.mod_eq_of_lt hpow]
    have hle : 1#w ≤ 1#w <<< f.size := by
      rw [BitVec.le_def, hshift, BitVec.toNat_ofNat, Nat.mod_eq_of_lt hone]
      exact Nat.one_le_two_pow
    rw [mask, BitVec.toNat_sub_of_le hle, hshift, BitVec.toNat_ofNat, Nat.mod_eq_of_lt hone]
  · -- the field is the whole word
    rw [mask, heq, BitVec.shiftLeft_eq_zero (Nat.le_refl w), BitVec.zero_sub,
      BitVec.neg_one_eq_allOnes, BitVec.toNat_allOnes]

@[simp] theorem getLsbD_mask : f.mask.getLsbD i = decide (i < f.size) := by
  rw [BitVec.getLsbD, toNat_mask, Nat.testBit_two_pow_sub_one]

theorem toNat_and_mask : (x &&& f.mask).toNat = x.toNat % 2 ^ f.size := by
  rw [BitVec.toNat_and, toNat_mask, Nat.and_two_pow_sub_one_eq_mod]

theorem getLsbD_decode :
    (f.decode v).getLsbD i = (decide (i < f.size) && v.getLsbD (f.position + i)) := by
  simp [decode, Bool.and_comm]

theorem getLsbD_encode :
    (f.encode x).getLsbD i = (decide (f.Covers i) && x.getLsbD (i - f.position)) := by
  have hfits := f.fits
  rw [encode, BitVec.getLsbD_shiftLeft, BitVec.getLsbD_and, getLsbD_mask]
  by_cases hc : f.Covers i
  · obtain ⟨hlo, hhi⟩ := hc
    have hw : i < w := hhi.trans_le hfits
    have hin : i - f.position < f.size := Nat.sub_lt_left_of_lt_add hlo hhi
    simp [Covers, hlo, hhi, hw, hin]
  · rw [decide_eq_false hc, Bool.false_and]
    by_cases hlo : f.position ≤ i
    · have hout : ¬ i - f.position < f.size := fun h => hc ⟨hlo, (Nat.sub_lt_iff_lt_add' hlo).mp h⟩
      simp [hout]
    · simp [Nat.not_le.mp hlo]

/-- **An update** changes the bits of its field, and no other. -/
theorem getLsbD_update :
    (f.update x v).getLsbD i
      = if f.Covers i then x.getLsbD (i - f.position) else v.getLsbD i := by
  have hones : f.maskInPlace = f.encode (BitVec.allOnes w) := by
    rw [maskInPlace, encode, BitVec.allOnes_and]
  rw [update, BitVec.getLsbD_or, BitVec.getLsbD_and, BitVec.getLsbD_not, hones, getLsbD_encode,
    getLsbD_encode]
  by_cases hc : f.Covers i
  · have hin : i - f.position < w := (Nat.sub_le _ _).trans_lt (hc.2.trans_le f.fits)
    simp [hc, hin]
  · by_cases hw : i < w
    · simp [hc, hw]
    · simp [hc, hw, BitVec.getLsbD_of_ge v i (Nat.not_lt.mp hw)]

/-- A field reads the low bits of what was put in. -/
theorem decode_update : f.decode (f.update x v) = x &&& f.mask := by
  ext i hi
  rw [← BitVec.getLsbD_eq_getElem, ← BitVec.getLsbD_eq_getElem, getLsbD_decode, getLsbD_update,
    BitVec.getLsbD_and, getLsbD_mask]
  by_cases h : i < f.size
  · simp [Covers, h]
  · simp [h]

/-- A field reads nothing of what was put in another one. -/
theorem decode_update_of_disjoint (h : f.Disjoint g) : f.decode (g.update x v) = f.decode v := by
  ext i hi
  rw [← BitVec.getLsbD_eq_getElem, ← BitVec.getLsbD_eq_getElem, getLsbD_decode, getLsbD_decode,
    getLsbD_update]
  by_cases hs : i < f.size
  · have hout : ¬ g.Covers (f.position + i) := by
      rintro ⟨hlo, hhi⟩
      rcases h with h | h
      · exact absurd (h.trans hlo) (Nat.not_le.mpr (Nat.add_lt_add_left hs _))
      · exact absurd (h.trans (Nat.le_add_right _ i)) (Nat.not_le.mpr hhi)
    simp [hout]
  · simp [hs]

/-- An encoded value is an update of nothing. -/
theorem update_zero : f.update x 0#w = f.encode x := by
  rw [update, BitVec.and_zero, BitVec.or_zero]

/-- Adding an encoded value to a word without bits there is an update. -/
theorem update_of_decode_eq_zero (h : f.decode v = 0#w) : v ||| f.encode x = f.update x v := by
  ext i hi
  rw [← BitVec.getLsbD_eq_getElem, ← BitVec.getLsbD_eq_getElem, BitVec.getLsbD_or, getLsbD_encode,
    getLsbD_update]
  by_cases hc : f.Covers i
  · have hbit : (f.decode v).getLsbD (i - f.position) = false := by simp [h]
    have hin : i - f.position < f.size := Nat.sub_lt_left_of_lt_add hc.1 hc.2
    rw [getLsbD_decode, Nat.add_sub_cancel' hc.1, decide_eq_true hin, Bool.true_and] at hbit
    simp [hc, hbit]
  · simp [hc]

end BitField
