import Mathlib.Data.List.Basic
import Mathlib.Tactic.Ring

/-!
# Words — little-endian words in a byte buffer

Sixty-four bit words as eight bytes, least significant first, and the two operations a back-patching
assembler needs on a list of bytes: read a word at a position, overwrite a word at a position.

* `loadWord_append`: a word that was appended is read back.
* `loadWord_storeWord`: a word that was stored is read back.
* `getElem?_storeWord`, `loadWord_storeWord_of_disjoint`: a store changes only its eight bytes.
-/

namespace Words

/-- `k` bytes of `n`, least significant first. -/
def leBytes : Nat → Nat → List UInt8
  | 0, _ => []
  | k + 1, n => UInt8.ofNat n :: leBytes k (n / 256)

/-- The number a list of bytes stands for. -/
def ofLeBytes : List UInt8 → Nat
  | [] => 0
  | b :: bs => b.toNat + 256 * ofLeBytes bs

@[simp] theorem length_leBytes (k n : Nat) : (leBytes k n).length = k := by
  induction k generalizing n with
  | zero => rfl
  | succ k ih => simp [leBytes, ih]

theorem ofLeBytes_leBytes (k n : Nat) : ofLeBytes (leBytes k n) = n % 256 ^ k := by
  induction k generalizing n with
  | zero => simp [leBytes, ofLeBytes, Nat.mod_one]
  | succ k ih =>
      have hsplit : n % 256 ^ (k + 1) = n % 256 + 256 * (n / 256 % 256 ^ k) := by
        rw [pow_succ', Nat.mod_mul]
      rw [leBytes, ofLeBytes, ih, UInt8.toNat_ofNat', hsplit]

/-- The eight bytes of a word. -/
def encode (w : UInt64) : List UInt8 := leBytes 8 w.toNat

/-- The word eight bytes stand for. -/
def decode (bs : List UInt8) : UInt64 := .ofNat (ofLeBytes bs)

@[simp] theorem length_encode (w : UInt64) : (encode w).length = 8 := length_leBytes 8 _

@[simp] theorem decode_encode (w : UInt64) : decode (encode w) = w := by
  have hlt : w.toNat < 256 ^ 8 := w.toNat_lt
  rw [decode, encode, ofLeBytes_leBytes, Nat.mod_eq_of_lt hlt, UInt64.ofNat_toNat]

/-- A signed number as a word, in two's complement. -/
def ofInt (i : Int) : UInt64 := .ofNat (i % 2 ^ 64).toNat

/-- A word read as a signed number. -/
def toInt (w : UInt64) : Int :=
  if w.toNat < 2 ^ 63 then w.toNat else (w.toNat : Int) - 2 ^ 64

theorem toInt_ofInt {i : Int} (hlo : -2 ^ 63 ≤ i) (hhi : i < 2 ^ 63) : toInt (ofInt i) = i := by
  have hlt : (i % 2 ^ 64).toNat < 2 ^ 64 := by omega
  have hnat : (ofInt i).toNat = (i % 2 ^ 64).toNat := by
    rw [ofInt, UInt64.toNat_ofNat', Nat.mod_eq_of_lt hlt]
  rw [toInt, hnat]
  split <;> omega

/-! ### Buffers -/

/-- The word at a position of a buffer that holds eight bytes there. -/
def loadWord (b : List UInt8) (pos : Nat) : Option UInt64 :=
  if pos + 8 ≤ b.length then some (decode ((b.drop pos).take 8)) else none

/-- Overwrite the eight bytes at a position. -/
def storeWord (b : List UInt8) (pos : Nat) (w : UInt64) : List UInt8 :=
  b.take pos ++ encode w ++ b.drop (pos + 8)

theorem length_storeWord {b : List UInt8} {pos : Nat} (w : UInt64) (h : pos + 8 ≤ b.length) :
    (storeWord b pos w).length = b.length := by
  simp only [storeWord, List.length_append, List.length_take, List.length_drop, length_encode]
  omega

/-- What is placed at a position reads as a word when it is one. -/
theorem loadWord_of_prefix {b : List UInt8} {pos : Nat} {w : UInt64}
    (h : encode w <+: b.drop pos) : loadWord b pos = some w := by
  have hlen := h.length_le
  rw [length_encode, List.length_drop] at hlen
  rw [loadWord, if_pos (by omega)]
  obtain ⟨r, hr⟩ := h
  rw [← hr, List.take_append_of_le_length (by simp), List.take_of_length_le (by simp),
    decode_encode]

theorem loadWord_append (b : List UInt8) (w : UInt64) (r : List UInt8) :
    loadWord (b ++ (encode w ++ r)) b.length = some w :=
  loadWord_of_prefix (by rw [List.drop_left]; exact List.prefix_append _ _)

/-- A word lies in the part of a buffer that does not change when the buffer grows. -/
theorem loadWord_append_left {b : List UInt8} {pos : Nat} (r : List UInt8)
    (h : pos + 8 ≤ b.length) : loadWord (b ++ r) pos = loadWord b pos := by
  rw [loadWord, loadWord, if_pos h, if_pos (by rw [List.length_append]; omega),
    List.drop_append_of_le_length (by omega),
    List.take_append_of_le_length (by rw [List.length_drop]; omega)]

theorem prefix_storeWord {b : List UInt8} {pos : Nat} (w : UInt64) (h : pos + 8 ≤ b.length) :
    encode w <+: (storeWord b pos w).drop pos := by
  have htake : (b.take pos).length = pos := by rw [List.length_take]; omega
  rw [storeWord, List.append_assoc, List.drop_left' htake]
  exact List.prefix_append _ _

/-- Overwriting a word that stands between two parts of a buffer. -/
theorem storeWord_append (b : List UInt8) (w x : UInt64) (r : List UInt8) :
    storeWord (b ++ (encode w ++ r)) b.length x = b ++ (encode x ++ r) := by
  rw [storeWord, List.take_left, List.drop_length_add_append, List.drop_left' (length_encode w),
    List.append_assoc]

theorem loadWord_storeWord {b : List UInt8} {pos : Nat} (w : UInt64) (h : pos + 8 ≤ b.length) :
    loadWord (storeWord b pos w) pos = some w :=
  loadWord_of_prefix (prefix_storeWord w h)

/-- A byte outside the stored word is unchanged. -/
theorem getElem?_storeWord {b : List UInt8} {pos i : Nat} (w : UInt64) (h : pos + 8 ≤ b.length)
    (hi : i < pos ∨ pos + 8 ≤ i) : (storeWord b pos w)[i]? = b[i]? := by
  have htake : (b.take pos).length = pos := by rw [List.length_take]; omega
  rcases hi with hi | hi
  · rw [storeWord, List.append_assoc, List.getElem?_append_left (by rw [htake]; exact hi),
      List.getElem?_take_of_lt hi]
  · have hlen : (b.take pos ++ encode w).length = pos + 8 := by
      rw [List.length_append, htake, length_encode]
    rw [storeWord, List.getElem?_append_right (by rw [hlen]; exact hi), hlen, List.getElem?_drop,
      Nat.add_sub_cancel' hi]

theorem loadWord_storeWord_of_disjoint {b : List UInt8} {pos q : Nat} (w : UInt64)
    (h : pos + 8 ≤ b.length) (hd : q + 8 ≤ pos ∨ pos + 8 ≤ q) :
    loadWord (storeWord b pos w) q = loadWord b q := by
  have hlen := length_storeWord w h
  simp only [loadWord, hlen]
  split
  next hq =>
    congr 2
    refine List.ext_getElem? fun i => ?_
    simp only [List.getElem?_take, List.getElem?_drop]
    split
    · exact getElem?_storeWord w h (by omega)
    · rfl
  next => rfl

end Words
