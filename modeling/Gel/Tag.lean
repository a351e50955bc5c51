import Gel.Support.BitField

/-!
# Tag — the header word of an object

`tag.h`: the number of references, the bits of the zones and of the collector, and the size of the
object, one after the other in a word.  `TagFields` are the fields apart.

* `reads_run`: what the fields read after any sequence of setters.
* `tag_fields`: each field reads the value set last, and new tags report their size.
-/

namespace Gel

/-- `RawTag`. -/
abbrev RawTag : Type := BitVec 64

/-- `kInvalidTag`. -/
def kInvalidTag : RawTag := 0

structure Tag where
  raw : RawTag
  deriving DecidableEq, Repr

namespace Tag

/-! ### `Layout` -/

def kReferencesOffset : Nat := 0

def kBitsForReferences : Nat := 16

def kNewBitOffset : Nat := kReferencesOffset + kBitsForReferences

def kOldBitOffset : Nat := kNewBitOffset + 1

def kMarkedBitOffset : Nat := kOldBitOffset + 1

def kRememberedBitOffset : Nat := kMarkedBitOffset + 1

def kSizeOffset : Nat := kRememberedBitOffset + 1

def kBitsForSize : Nat := 32

def referencesField : BitField 64 := ⟨kReferencesOffset, kBitsForReferences, by decide⟩

def newBit : BitField 64 := ⟨kNewBitOffset, 1, by decide⟩

def oldBit : BitField 64 := ⟨kOldBitOffset, 1, by decide⟩

def markedBit : BitField 64 := ⟨kMarkedBitOffset, 1, by decide⟩

def rememberedBit : BitField 64 := ⟨kRememberedBitOffset, 1, by decide⟩

def sizeField : BitField 64 := ⟨kSizeOffset, kBitsForSize, by decide⟩

/-! ### Getters and setters -/

/-- A `bool` as the word that is encoded. -/
def ofBool (value : Bool) : RawTag := if value then 1 else 0

/-- `TagBit::Decode`. -/
def bit (f : BitField 64) (t : Tag) : Bool := f.decode t.raw != 0

/-- `TagBit::Update`. -/
def setBit (f : BitField 64) (value : Bool) (t : Tag) : Tag := ⟨f.update (ofBool value) t.raw⟩

def getNumberOfReferences (t : Tag) : RawTag := referencesField.decode t.raw

def isNew (t : Tag) : Bool := t.bit newBit

def setNewBit (t : Tag) (value : Bool) : Tag := t.setBit newBit value

def clearNewBit (t : Tag) : Tag := t.setNewBit false

def isOld (t : Tag) : Bool := t.bit oldBit

def setOldBit (t : Tag) (value : Bool) : Tag := t.setBit oldBit value

def clearOldBit (t : Tag) : Tag := t.setOldBit false

def isMarked (t : Tag) : Bool := t.bit markedBit

def setMarkedBit (t : Tag) (value : Bool) : Tag := t.setBit markedBit value

def clearMarkedBit (t : Tag) : Tag := t.setMarkedBit false

def isRemembered (t : Tag) : Bool := t.bit rememberedBit

def setRememberedBit (t : Tag) (value : Bool) : Tag := t.setBit rememberedBit value

def clearRememberedBit (t : Tag) : Tag := t.setRememberedBit false

def getSize (t : Tag) : RawTag := sizeField.decode t.raw

def setSize (t : Tag) (value : RawTag) : Tag := ⟨sizeField.update value t.raw⟩

def clearSize (t : Tag) : Tag := t.setSize 0

/-- `Tag::New`. -/
def new (size : RawTag) : Tag :=
  ⟨kInvalidTag ||| newBit.encode (ofBool true) ||| sizeField.encode size⟩

/-- `Tag::Old`. -/
def old (size : RawTag) : Tag :=
  ⟨kInvalidTag ||| oldBit.encode (ofBool true) ||| sizeField.encode size⟩

end Tag

/-- The setters, with their arguments. -/
inductive TagOp where
  | setNewBit (value : Bool)
  | clearNewBit
  | setOldBit (value : Bool)
  | clearOldBit
  | setMarkedBit (value : Bool)
  | clearMarkedBit
  | setRememberedBit (value : Bool)
  | clearRememberedBit
  | setSize (value : RawTag)
  | clearSize
  deriving DecidableEq, Repr

namespace TagOp

/-- Call the setter. -/
def run (t : Tag) : TagOp → Tag
  | setNewBit value => t.setNewBit value
  | clearNewBit => t.clearNewBit
  | setOldBit value => t.setOldBit value
  | clearOldBit => t.clearOldBit
  | setMarkedBit value => t.setMarkedBit value
  | clearMarkedBit => t.clearMarkedBit
  | setRememberedBit value => t.setRememberedBit value
  | clearRememberedBit => t.clearRememberedBit
  | setSize value => t.setSize value
  | clearSize => t.clearSize

/-- The value given to the new bit, by the setters that set it. -/
def newBit? : TagOp → Option Bool
  | setNewBit value => some value
  | clearNewBit => some false
  | _ => none

def oldBit? : TagOp → Option Bool
  | setOldBit value => some value
  | clearOldBit => some false
  | _ => none

def markedBit? : TagOp → Option Bool
  | setMarkedBit value => some value
  | clearMarkedBit => some false
  | _ => none

def rememberedBit? : TagOp → Option Bool
  | setRememberedBit value => some value
  | clearRememberedBit => some false
  | _ => none

/-- The size given, up to the width of the field. -/
def size? : TagOp → Option Nat
  | setSize value => some (value.toNat % 2 ^ Tag.kBitsForSize)
  | clearSize => some 0
  | _ => none

end TagOp

/-- The fields of a tag, apart. -/
@[ext]
structure TagFields where
  references : Nat
  isNew : Bool
  isOld : Bool
  isMarked : Bool
  isRemembered : Bool
  size : Nat
  deriving DecidableEq, Repr

/-- What the getters of a tag return. -/
def Tag.reads (t : Tag) : TagFields where
  references := t.getNumberOfReferences.toNat
  isNew := t.isNew
  isOld := t.isOld
  isMarked := t.isMarked
  isRemembered := t.isRemembered
  size := t.getSize.toNat

/-- The value set last, or else the one there was. -/
def lastSet {α : Type} (set : TagOp → Option α) (ops : List TagOp) (a : α) : α :=
  (ops.filterMap set).getLast?.getD a

/-- The fields after a sequence of setters, each with the value set last. -/
def TagFields.after (s : TagFields) (ops : List TagOp) : TagFields where
  references := s.references
  isNew := lastSet TagOp.newBit? ops s.isNew
  isOld := lastSet TagOp.oldBit? ops s.isOld
  isMarked := lastSet TagOp.markedBit? ops s.isMarked
  isRemembered := lastSet TagOp.rememberedBit? ops s.isRemembered
  size := lastSet TagOp.size? ops s.size

/-! ### One setter -/

namespace Tag

variable {f g : BitField 64} (t : Tag) (value : Bool) (size : RawTag)

theorem bit_setBit (hf : f.size = 1) : (t.setBit f value).bit f = value := by
  rw [bit, setBit, BitField.decode_update]
  have hmask : (ofBool value &&& f.mask).toNat = value.toNat := by
    rw [BitField.toNat_and_mask, hf]
    cases value <;> rfl
  cases value with
  | false => simpa [bne, ← BitVec.toNat_inj] using hmask
  | true =>
      rw [bne_iff_ne]
      intro h
      rw [h] at hmask
      cases hmask

theorem bit_setBit_of_disjoint (h : f.Disjoint g) : (t.setBit g value).bit f = t.bit f := by
  rw [bit, setBit, BitField.decode_update_of_disjoint _ _ _ _ h, bit]

theorem bit_setSize (h : f.Disjoint sizeField) : (t.setSize size).bit f = t.bit f := by
  rw [bit, setSize, BitField.decode_update_of_disjoint _ _ _ _ h, bit]

theorem toNat_getSize_setSize : (t.setSize size).getSize.toNat = size.toNat % 2 ^ kBitsForSize := by
  rw [getSize, setSize, BitField.decode_update, BitField.toNat_and_mask]
  rfl

/-- The number of references and the size are read off behind a bit as before it. -/
theorem toNat_decode_setBit (h : f.Disjoint g) :
    (f.decode (t.setBit g value).raw).toNat = (f.decode t.raw).toNat := by
  rw [setBit, BitField.decode_update_of_disjoint _ _ _ _ h]

theorem reads_setNewBit : (t.setNewBit value).reads = { t.reads with isNew := value } := by
  ext1
  · exact toNat_decode_setBit t value (by decide)
  · exact bit_setBit t value rfl
  · exact bit_setBit_of_disjoint t value (by decide)
  · exact bit_setBit_of_disjoint t value (by decide)
  · exact bit_setBit_of_disjoint t value (by decide)
  · exact toNat_decode_setBit t value (by decide)

theorem reads_setOldBit : (t.setOldBit value).reads = { t.reads with isOld := value } := by
  ext1
  · exact toNat_decode_setBit t value (by decide)
  · exact bit_setBit_of_disjoint t value (by decide)
  · exact bit_setBit t value rfl
  · exact bit_setBit_of_disjoint t value (by decide)
  · exact bit_setBit_of_disjoint t value (by decide)
  · exact toNat_decode_setBit t value (by decide)

theorem reads_setMarkedBit :
    (t.setMarkedBit value).reads = { t.reads with isMarked := value } := by
  ext1
  · exact toNat_decode_setBit t value (by decide)
  · exact bit_setBit_of_disjoint t value (by decide)
  · exact bit_setBit_of_disjoint t value (by decide)
  · exact bit_setBit t value rfl
  · exact bit_setBit_of_disjoint t value (by decide)
  · exact toNat_decode_setBit t value (by decide)

theorem reads_setRememberedBit :
    (t.setRememberedBit value).reads = { t.reads with isRemembered := value } := by
  ext1
  · exact toNat_decode_setBit t value (by decide)
  · exact bit_setBit_of_disjoint t value (by decide)
  · exact bit_setBit_of_disjoint t value (by decide)
  · exact bit_setBit_of_disjoint t value (by decide)
  · exact bit_setBit t value rfl
  · exact toNat_decode_setBit t value (by decide)

theorem reads_setSize :
    (t.setSize size).reads = { t.reads with size := size.toNat % 2 ^ kBitsForSize } := by
  ext1
  · exact congrArg BitVec.toNat (BitField.decode_update_of_disjoint _ _ _ _ (by decide))
  · exact bit_setSize t size (by decide)
  · exact bit_setSize t size (by decide)
  · exact bit_setSize t size (by decide)
  · exact bit_setSize t size (by decide)
  · exact toNat_getSize_setSize t size

/-- **A setter** sets its field, and leaves the others as they are. -/
theorem reads_setter (op : TagOp) : (op.run t).reads = t.reads.after [op] := by
  cases op with
  | setNewBit value => exact reads_setNewBit t value
  | clearNewBit => exact reads_setNewBit t false
  | setOldBit value => exact reads_setOldBit t value
  | clearOldBit => exact reads_setOldBit t false
  | setMarkedBit value => exact reads_setMarkedBit t value
  | clearMarkedBit => exact reads_setMarkedBit t false
  | setRememberedBit value => exact reads_setRememberedBit t value
  | clearRememberedBit => exact reads_setRememberedBit t false
  | setSize size => exact reads_setSize t size
  | clearSize => exact reads_setSize t 0

end Tag

/-! ### Sequences of setters -/

theorem lastSet_cons {α : Type} (set : TagOp → Option α) (op : TagOp) (ops : List TagOp) (a : α) :
    lastSet set (op :: ops) a = lastSet set ops (lastSet set [op] a) := by
  cases h : set op with
  | none => simp [lastSet, h]
  | some b => simp [lastSet, h, List.getLast?_cons]

theorem TagFields.after_cons (s : TagFields) (op : TagOp) (ops : List TagOp) :
    s.after (op :: ops) = (s.after [op]).after ops := by
  ext1
  · rfl
  all_goals exact lastSet_cons _ op ops _

/-- **Sequences of setters.**  Every getter returns the value set last for its field. -/
theorem Tag.reads_run (t : Tag) (ops : List TagOp) :
    (ops.foldl TagOp.run t).reads = t.reads.after ops := by
  induction ops generalizing t with
  | nil => rfl
  | cons op ops ih => rw [List.foldl_cons, ih, reads_setter, ← TagFields.after_cons]

/-! ### New tags -/

namespace Tag

/-- A tag made from nothing: one of the zone's bits, and the size. -/
theorem new_eq (size : RawTag) : new size = (setNewBit ⟨kInvalidTag⟩ true).setSize size := by
  have hzero : sizeField.decode (newBit.update (ofBool true) 0#64) = 0#64 := by decide
  rw [new, setSize, setNewBit, setBit, kInvalidTag, ← BitField.update_zero]
  exact congrArg Tag.mk ((congrArg (· ||| _) (BitVec.zero_or)).trans
    (BitField.update_of_decode_eq_zero _ _ _ hzero))

theorem old_eq (size : RawTag) : old size = (setOldBit ⟨kInvalidTag⟩ true).setSize size := by
  have hzero : sizeField.decode (oldBit.update (ofBool true) 0#64) = 0#64 := by decide
  rw [old, setSize, setOldBit, setBit, kInvalidTag, ← BitField.update_zero]
  exact congrArg Tag.mk ((congrArg (· ||| _) (BitVec.zero_or)).trans
    (BitField.update_of_decode_eq_zero _ _ _ hzero))

theorem reads_new (size : RawTag) : (new size).reads =
    ⟨0, true, false, false, false, size.toNat % 2 ^ kBitsForSize⟩ := by
  have hstart : (setNewBit ⟨kInvalidTag⟩ true).reads = ⟨0, true, false, false, false, 0⟩ := by decide
  rw [new_eq, reads_setSize, hstart]

theorem reads_old (size : RawTag) : (old size).reads =
    ⟨0, false, true, false, false, size.toNat % 2 ^ kBitsForSize⟩ := by
  have hstart : (setOldBit ⟨kInvalidTag⟩ true).reads = ⟨0, false, true, false, false, 0⟩ := by decide
  rw [old_eq, reads_setSize, hstart]

/-- **Header fields.**  After any sequence of setters, from any tag, each getter returns the value
set last for its field, and what it returned before where no setter set it; a new tag reports its
size. -/
theorem tag_fields :
    (∀ (t : Tag) (ops : List TagOp), (ops.foldl TagOp.run t).reads = t.reads.after ops) ∧
    ∀ size : RawTag, size.toNat < 2 ^ kBitsForSize →
      (new size).getSize = size ∧ (old size).getSize = size := by
  refine ⟨reads_run, fun size hfit => ⟨?_, ?_⟩⟩
  · refine BitVec.eq_of_toNat_eq ((congrArg TagFields.size (reads_new size)).trans ?_)
    exact Nat.mod_eq_of_lt hfit
  · refine BitVec.eq_of_toNat_eq ((congrArg TagFields.size (reads_old size)).trans ?_)
    exact Nat.mod_eq_of_lt hfit

end Tag

end Gel
