import Gel.NewZone
import Gel.Tag
import Gel.Support.PowerOfTwo
import Gel.Support.Window
import Gel.Support.Words

/-!
# Buffer — the bytes of a string in the heap, and back

A `Buffer` is an object with its bytes behind it: `Copy` asks the heap for the object and for as
many bytes as the least power of two that is at least the length, and `String::New` reads as many
bytes as the length says.

A `ByteHeap` is the new zone with the bytes at its addresses.  A block of 4096 bytes or more has to
come from the old zone, and no such allocation succeeds.

* `toNat_roundUpPow2`: the capacity.
* `Buffer.copied`: what `Copy` does when there is room.
* `throughBuffer_iff`: a string goes through a buffer and back if and only if it has at most 2048
  bytes and there is room in the new zone.
-/

namespace Gel

/-- `RoundUpPow2`.  The word is signed, and so are its shifts. -/
def roundUpPow2 (x : BitVec 64) : BitVec 64 :=
  let x := x - 1
  let x := x ||| x.sshiftRight 1
  let x := x ||| x.sshiftRight 2
  let x := x ||| x.sshiftRight 4
  let x := x ||| x.sshiftRight 8
  let x := x ||| x.sshiftRight 16
  let x := x ||| x.sshiftRight 32
  x + 1

/-! ### The heap -/

/-- The new zone, the bytes at its addresses, and the static of `String::New()`. -/
structure ByteHeap where
  heap : Heap
  bytes : HeapAddress → UInt8
  emptyString : Option HeapAddress := none

/-- `kLargeObjectSize`. -/
def kLargeObjectSize : Nat := 4 * 1024

namespace ByteHeap

/-- `n` bytes from an address on. -/
def read (h : ByteHeap) (a : HeapAddress) (n : Nat) : List UInt8 := window h.bytes a n

def write (h : ByteHeap) (a : HeapAddress) (bs : List UInt8) : ByteHeap :=
  { h with bytes := writeAll h.bytes a bs }

def loadWord (h : ByteHeap) (a : HeapAddress) : UInt64 := Words.decode (h.read a 8)

def storeWord (h : ByteHeap) (a : HeapAddress) (w : UInt64) : ByteHeap := h.write a (Words.encode w)

/-- `Pointer::New`: the tag, and no forwarding address. -/
def newPointer (h : ByteHeap) (a : HeapAddress) (size : Nat) : ByteHeap :=
  (h.storeWord a (.ofBitVec (Tag.new (.ofNat 64 size)).raw)).storeWord (a + 8) 0

/-- `NewZone::TryAllocate`, which is what `Heap::TryAllocateNew` returns. -/
def tryAllocateNew (size : Nat) (h : ByteHeap) : Option (HeapAddress × ByteHeap) := do
  let heap ← h.heap.tryAllocate size
  let a := h.heap.current
  let zero := { h with heap }.write a (List.replicate (sizeofPointer + size) 0)
  return (a + sizeofPointer, zero.newPointer a size)

/-- `FreeList::TryAllocate`, which is not implemented and returns `UNALLOCATED`. -/
def tryAllocateFree (_size : Nat) : HeapAddress := 0

/-- `MajorCollection`, which is not implemented and fatal. -/
def majorCollection (_h : ByteHeap) : Option ByteHeap := none

/-- `Heap::TryAllocateOld`. -/
def tryAllocateOld (size : Nat) (h : ByteHeap) : Option (HeapAddress × ByteHeap) :=
  let result := tryAllocateFree size
  if result = 0 then do
    let h ← h.majorCollection
    let result := tryAllocateFree size
    if result = 0 then none else some (result, h)
  else some (result, h)

/-- `Heap::TryAllocate`. -/
def tryAllocate (size : Nat) (h : ByteHeap) : Option (HeapAddress × ByteHeap) :=
  if kLargeObjectSize ≤ size then h.tryAllocateOld size else h.tryAllocateNew size

/-- `FLAGS_new_zone_size`. -/
def newZoneSize : Nat := 4 * 1024 * 1024

/-- `Heap::Init`, with the new zone at some address. -/
def init (start : HeapAddress) : ByteHeap where
  heap := .newZone start (newZoneSize / 2) fun _ => none
  bytes _ := 0

end ByteHeap

/-! ### Buffers and strings -/

/-- A `Buffer`, by its address. -/
structure Buffer where
  address : HeapAddress
  deriving DecidableEq, Repr

namespace Buffer

/-- `sizeof(Buffer)`: the table of methods, `length_` and `capacity_`. -/
def sizeofBuffer : Nat := 24

def kDefaultBufferSize : Nat := 4096

def kMaxBufferSize : Nat := 4 * 1024 * 1024

/-- `raw_ptr`. -/
def rawPtr (b : Buffer) : HeapAddress := b.address - sizeofPointer

def getDataAddress (b : Buffer) : HeapAddress := b.rawPtr + sizeofPointer + sizeofBuffer

def lengthAddress (b : Buffer) : HeapAddress := b.address + 8

def capacityAddress (b : Buffer) : HeapAddress := b.address + 16

def getLength (b : Buffer) (h : ByteHeap) : UInt64 := h.loadWord b.lengthAddress

def getCapacity (b : Buffer) (h : ByteHeap) : UInt64 := h.loadWord b.capacityAddress

/-- `New(init_cap)`, with the `operator new` that asks for the bytes behind the object as well. -/
def new (initCap : Nat) (h : ByteHeap) : Option (Buffer × ByteHeap) := do
  let capacity := roundUpPow2 (.ofNat 64 initCap)
  let (address, h) ← h.tryAllocate (sizeofBuffer + capacity.toNat)
  let b : Buffer := ⟨address⟩
  return (b, (h.storeWord b.lengthAddress 0).storeWord b.capacityAddress (.ofBitVec capacity))

/-- `CopyFrom`.  That the bytes fit is an assertion, which a release build does not have. -/
def copyFrom (b : Buffer) (src : List UInt8) (h : ByteHeap) : ByteHeap :=
  let h := h.write (b.getDataAddress + (b.getLength h).toNat) src
  h.storeWord b.lengthAddress (b.getLength h + .ofNat src.length)

/-- `Copy`, of a `std::string`. -/
def copy (src : List UInt8) (h : ByteHeap) : Option (Buffer × ByteHeap) :=
  if src.isEmpty then new kDefaultBufferSize h
  else do
    let (b, h) ← new src.length h
    return (b, b.copyFrom src h)

end Buffer

/-- What `String::New` is applied to; any other object is what `ValueOf` prints for it. -/
inductive StringArg where
  | null
  | string (value : List UInt8)
  | buffer (b : Buffer)
  | other (text : List UInt8)
  deriving DecidableEq, Repr

/-- A `String`: its address, and the bytes of its `std::string`. -/
structure StringObject where
  address : HeapAddress
  value : List UInt8
  deriving DecidableEq, Repr

namespace StringObject

/-- `sizeof(String)`: the table of methods, and a `std::string`. -/
def sizeofString : Nat := 40

/-- `new String`. -/
def alloc (value : List UInt8) (h : ByteHeap) : Option (StringObject × ByteHeap) := do
  let (address, h) ← h.tryAllocate sizeofString
  return (⟨address, value⟩, h)

/-- `New()`, which makes one object. -/
def empty (h : ByteHeap) : Option (StringObject × ByteHeap) :=
  match h.emptyString with
  | some a => some (⟨a, []⟩, h)
  | none => do
      let (str, h) ← alloc [] h
      return (str, { h with emptyString := some str.address })

/-- `New`, of a list of arguments. -/
def new : List StringArg → ByteHeap → Option (StringObject × ByteHeap)
  | [], h => empty h
  | .null :: _, h => empty h
  | .string value :: _, h => alloc value h
  | .buffer b :: _, h => alloc (h.read b.getDataAddress (b.getLength h).toNat) h
  | .other text :: _, h => alloc text h

/-- `Equals`, with a `std::string`. -/
def equals (str : StringObject) (rhs : List UInt8) : Bool := str.value == rhs

end StringObject

/-- What is wanted of a buffer that a string has been copied to: its bytes are those of the string,
the block ends with its capacity, and nothing outside the block has been written. -/
structure CopiedTo (h h₁ : ByteHeap) (s : List UInt8) (b : Buffer) : Prop where
  capacity : IsLeast {p | (∃ m, p = 2 ^ m) ∧ s.length ≤ p} (b.getCapacity h₁).toNat
  length : (b.getLength h₁).toNat = s.length
  content : h₁.read b.getDataAddress s.length = s
  finish : b.getDataAddress + (b.getCapacity h₁).toNat = h₁.heap.current
  outside : ∀ a, a < h.heap.current ∨ h₁.heap.current ≤ a → h₁.bytes a = h.bytes a

/-- A string goes through a buffer and back. -/
def ThroughBuffer (h : ByteHeap) (s : List UInt8) : Prop :=
  ∃ b h₁ str h₂, Buffer.copy s h = some (b, h₁) ∧ CopiedTo h h₁ s b ∧
    StringObject.new [.buffer b] h₁ = some (str, h₂) ∧ str.equals s = true

/-! ### The capacity -/

section Capacity

variable {n k : Nat} {y : BitVec 64}

/-- The bits of a word that is not negative, on the way through `RoundUpPow2`. -/
structure SmearsTo (n k : Nat) (y : BitVec 64) : Prop where
  nonneg : y.msb = false
  smears : Smears n k y.toNat

theorem SmearsTo.double (h : SmearsTo n k y) : SmearsTo n (k + k) (y ||| y.sshiftRight k) := by
  rw [BitVec.sshiftRight_eq_of_msb_false h.nonneg]
  refine ⟨?_, ?_⟩
  · simp [h.nonneg]
  · rw [BitVec.toNat_or, BitVec.toNat_ushiftRight]
    exact h.smears.double

/-- **`RoundUpPow2`** of a number. -/
theorem toNat_roundUpPow2 (hn : 1 ≤ n) (hmax : n ≤ 2 ^ 62) :
    (roundUpPow2 (.ofNat 64 n)).toNat = 2 ^ (n - 1).size := by
  have hlt : n - 1 < 2 ^ 62 := Nat.lt_of_lt_of_le (Nat.sub_one_lt_of_lt hn) hmax
  have hstart : (BitVec.ofNat 64 n - 1).toNat = n - 1 := by
    rw [BitVec.toNat_sub]
    simp
    omega
  have h₁ : SmearsTo (n - 1) 1 (.ofNat 64 n - 1) := by
    refine ⟨?_, ?_⟩
    · rw [BitVec.msb_eq_false_iff_two_mul_lt, hstart]
      omega
    · rw [hstart]
      exact .one _
  have h₂ : SmearsTo (n - 1) 2 _ := h₁.double
  have h₄ : SmearsTo (n - 1) 4 _ := h₂.double
  have h₈ : SmearsTo (n - 1) 8 _ := h₄.double
  have h₁₆ : SmearsTo (n - 1) 16 _ := h₈.double
  have h₃₂ : SmearsTo (n - 1) 32 _ := h₁₆.double
  have h₆₄ : SmearsTo (n - 1) 64 _ := h₃₂.double
  have hend := h₆₄.smears.eq_two_pow_sub_one (hlt.trans (by decide))
  have hsize : 2 ^ (n - 1).size ≤ 2 ^ 62 :=
    Nat.pow_le_pow_right Nat.two_pos (Nat.size_le.mpr hlt)
  have hpos : 0 < 2 ^ (n - 1).size := Nat.two_pow_pos _
  rw [roundUpPow2, BitVec.toNat_add, hend]
  simp
  omega

end Capacity

/-! ### Reading what is written -/

namespace ByteHeap

variable {h : ByteHeap} {a b n size : Nat} {bs : List UInt8} {w : UInt64}

theorem bytes_write (hb : b < a ∨ a + bs.length ≤ b) : (h.write a bs).bytes b = h.bytes b := by
  apply writeAll_of_notMem
  intro hin
  rcases hb with hb | hb
  · exact hb.not_ge hin.1
  · exact hb.not_gt hin.2

theorem read_write : (h.write a bs).read a bs.length = bs := window_writeAll

theorem read_write_of_disjoint (hd : b + n ≤ a ∨ a + bs.length ≤ b) :
    (h.write a bs).read b n = h.read b n :=
  window_writeAll_of_disjoint hd

theorem loadWord_storeWord : (h.storeWord a w).loadWord a = w := by
  have hread : (h.storeWord a w).read a 8 = Words.encode w := read_write
  rw [loadWord, hread, Words.decode_encode]

theorem loadWord_write (hd : b + 8 ≤ a ∨ a + bs.length ≤ b) :
    (h.write a bs).loadWord b = h.loadWord b := by
  rw [loadWord, read_write_of_disjoint hd, loadWord]

theorem loadWord_storeWord_of_disjoint (hd : b + 8 ≤ a ∨ a + 8 ≤ b) :
    (h.storeWord a w).loadWord b = h.loadWord b :=
  loadWord_write hd

theorem bytes_storeWord (hb : b < a ∨ a + 8 ≤ b) : (h.storeWord a w).bytes b = h.bytes b :=
  bytes_write hb

theorem bytes_newPointer (hb : b < a ∨ a + 16 ≤ b) :
    (h.newPointer a size).bytes b = h.bytes b := by
  rw [newPointer, bytes_storeWord, bytes_storeWord] <;> omega

/-! ### Allocation -/

/-- A block of the old zone is fatal. -/
theorem tryAllocate_large (hsize : kLargeObjectSize ≤ size) : h.tryAllocate size = none := by
  rw [tryAllocate, if_pos hsize]
  rfl

/-- There is no room in the new zone. -/
theorem tryAllocate_full (hsize : size < kLargeObjectSize)
    (hfull : h.heap.fromspace + h.heap.semisize ≤ h.heap.current + (sizeofPointer + size)) :
    h.tryAllocate size = none := by
  have hnone : h.heap.tryAllocate size = none := by
    rw [Heap.tryAllocate]
    exact if_pos hfull
  rw [tryAllocate, if_neg hsize.not_ge, tryAllocateNew, hnone]
  rfl

/-- What an allocation in the new zone does. -/
structure NewBlock (h h' : ByteHeap) (size : Nat) : Prop where
  zone : h.heap.tryAllocate size = some h'.heap
  current : h'.heap.current = h.heap.current + (sizeofPointer + size)
  limit : h'.heap.fromspace + h'.heap.semisize = h.heap.fromspace + h.heap.semisize
  outside : ∀ i : Nat, i < h.heap.current ∨ h'.heap.current ≤ i → h'.bytes i = h.bytes i

theorem tryAllocate_new (hsize : size < kLargeObjectSize)
    (hroom : h.heap.current + (sizeofPointer + size) < h.heap.fromspace + h.heap.semisize) :
    ∃ h', h.tryAllocate size = some (h.heap.current + sizeofPointer, h') ∧ NewBlock h h' size := by
  set heap : Heap := { h.heap.write h.heap.current { size, object := .other [] none } with
    current := h.heap.current + (sizeofPointer + size) } with hheap
  have hzone : h.heap.tryAllocate size = some heap := by
    rw [Heap.tryAllocate]
    exact if_neg hroom.not_ge
  refine ⟨({ h with heap }.write h.heap.current
    (List.replicate (sizeofPointer + size) 0)).newPointer h.heap.current size, ?_,
    ⟨hzone, rfl, rfl, ?_⟩⟩
  · rw [tryAllocate, if_neg hsize.not_ge, tryAllocateNew, hzone]
    rfl
  · intro a ha
    rw [bytes_newPointer, bytes_write]
    · rwa [List.length_replicate]
    · rcases ha with ha | ha
      · exact .inl ha
      · exact .inr ((Nat.add_le_add_left (Nat.le_add_right _ _) _).trans ha)

/-- An allocation is a step of the zone. -/
theorem NewBlock.zoneStep {h' : ByteHeap} (hb : NewBlock h h' size) (bs : List ZoneBlock) :
    ZoneStep (h.heap, bs) (.allocate size) (h'.heap, bs ++ [(h.heap.current, size)]) :=
  .allocate hb.zone

/-- The bytes of the live blocks stay as they are. -/
theorem NewBlock.live {h' : ByteHeap} {bs : List ZoneBlock} (hb : NewBlock h h' size)
    (hl : Laid h.heap.memory a h.heap.current bs) :
    ∀ d ∈ bs, ∀ i : Nat, i < d.finish → h'.bytes i = h.bytes i := by
  intro d hd i hi
  exact hb.outside i (.inl (hi.trans_le (hl.inside d hd).2))

end ByteHeap

/-! ### `Copy` and back -/

namespace Buffer

open ByteHeap

variable {h h' : ByteHeap} {b : Buffer} {src : List UInt8} {a : Nat}

theorem getDataAddress_eq (hb : sizeofPointer ≤ b.address) :
    b.getDataAddress = b.address + sizeofBuffer := by
  rw [getDataAddress, rawPtr, Nat.sub_add_cancel hb]

/-- What `CopyFrom` does to an empty buffer. -/
structure Filled (h h' : ByteHeap) (b : Buffer) (src : List UInt8) : Prop where
  heap : h'.heap = h.heap
  length : (b.getLength h').toNat = src.length
  capacity : b.getCapacity h' = b.getCapacity h
  content : h'.read b.getDataAddress src.length = src
  outside : ∀ i : Nat, i < b.address ∨ b.getDataAddress + src.length ≤ i → h'.bytes i = h.bytes i

theorem copyFrom_filled (ha : sizeofPointer ≤ a) (hlen : getLength ⟨a⟩ h = 0)
    (hsrc : src.length < 2 ^ 64) : Filled h (copyFrom ⟨a⟩ src h) ⟨a⟩ src := by
  have hdata : getDataAddress ⟨a⟩ = a + 24 := getDataAddress_eq ha
  have hcopy : copyFrom ⟨a⟩ src h =
      (h.write (a + 24) src).storeWord (a + 8) (.ofNat src.length) := by
    have hkeep : getLength ⟨a⟩ (h.write (a + 24) src) = 0 := by
      rw [← hlen]
      exact loadWord_write (.inl (by dsimp only [lengthAddress]; omega))
    rw [copyFrom, hlen, hdata]
    change (h.write (a + 24) src).storeWord (a + 8)
      (getLength ⟨a⟩ (h.write (a + 24) src) + .ofNat src.length) = _
    rw [hkeep, UInt64.zero_add]
  rw [hcopy]
  refine ⟨rfl, ?_, ?_, ?_, fun i hi => ?_⟩
  · rw [getLength, lengthAddress, loadWord_storeWord]
    exact UInt64.toNat_ofNat_of_lt' hsrc
  · have hcap : capacityAddress ⟨a⟩ = a + 16 := rfl
    rw [getCapacity, hcap, loadWord_storeWord_of_disjoint (by omega), loadWord_write (by omega),
      getCapacity, hcap]
  · rw [hdata]
    exact (read_write_of_disjoint (.inr (by rw [Words.length_encode]; omega))).trans read_write
  · have hi' : i < a ∨ a + 24 + src.length ≤ i := by rwa [hdata] at hi
    rw [bytes_storeWord (by omega), bytes_write (by omega)]

/-- `New`, when there is room in the new zone. -/
theorem new_made {n : Nat} (hn : 1 ≤ n) (hmax : n ≤ 2 ^ 62)
    (hsize : sizeofBuffer + 2 ^ (n - 1).size < kLargeObjectSize)
    (hroom : h.heap.current + (sizeofPointer + (sizeofBuffer + 2 ^ (n - 1).size)) <
      h.heap.fromspace + h.heap.semisize) :
    ∃ h', new n h = some (⟨h.heap.current + sizeofPointer⟩, h') ∧
      NewBlock h h' (sizeofBuffer + 2 ^ (n - 1).size) ∧
      getLength ⟨h.heap.current + sizeofPointer⟩ h' = 0 ∧
      (getCapacity ⟨h.heap.current + sizeofPointer⟩ h').toNat = 2 ^ (n - 1).size := by
  have hcap := toNat_roundUpPow2 hn hmax
  obtain ⟨h₀, halloc, hblock⟩ := tryAllocate_new hsize hroom
  obtain ⟨a, ha⟩ : ∃ a : Nat, h.heap.current + sizeofPointer = a := ⟨_, rfl⟩
  rw [ha] at halloc ⊢
  refine ⟨(h₀.storeWord (a + 8) 0).storeWord (a + 16) (.ofBitVec (roundUpPow2 (.ofNat 64 n))),
    ?_, ⟨hblock.zone, hblock.current, hblock.limit, fun i hi => ?_⟩, ?_, ?_⟩
  · rw [new, hcap, halloc]
    rfl
  · have hcell : i < a + 8 ∨ a + 24 ≤ i := by
      rcases hi with hi | hi
      · exact .inl (hi.trans_le ((Nat.le_add_right _ _).trans (ha.le.trans (Nat.le_add_right a 8))))
      · refine .inr (le_trans ?_ hi)
        change a + 24 ≤ h₀.heap.current
        rw [hblock.current, ← Nat.add_assoc, ha]
        exact Nat.add_le_add_left (Nat.le_add_right _ _) a
    rw [bytes_storeWord (by omega), bytes_storeWord (by omega)]
    exact hblock.outside i hi
  · exact (loadWord_storeWord_of_disjoint (.inl (Nat.le_refl (a + 16)))).trans loadWord_storeWord
  · rw [getCapacity, capacityAddress, loadWord_storeWord]
    exact hcap

/-- **`Copy`**, when there is room in the new zone. -/
theorem copied (hs : 1 ≤ src.length) (hmax : src.length ≤ 2 ^ 62)
    (hsize : sizeofBuffer + 2 ^ (src.length - 1).size < kLargeObjectSize)
    (hroom : h.heap.current + (sizeofPointer + (sizeofBuffer + 2 ^ (src.length - 1).size)) <
      h.heap.fromspace + h.heap.semisize) :
    ∃ b h₁, copy src h = some (b, h₁) ∧ CopiedTo h h₁ src b ∧
      NewBlock h h₁ (sizeofBuffer + 2 ^ (src.length - 1).size) := by
  obtain ⟨h₀, hnew, hblock, hlen, hcap⟩ := new_made hs hmax hsize hroom
  have hle : src.length ≤ 2 ^ (src.length - 1).size := (isLeast_two_pow_size hs).1.2
  have hfilled := copyFrom_filled (Nat.le_add_left sizeofPointer h.heap.current) hlen
    (hmax.trans_lt (by decide))
  have hcapacity : (getCapacity ⟨h.heap.current + sizeofPointer⟩
      (copyFrom ⟨h.heap.current + sizeofPointer⟩ src h₀)).toNat = 2 ^ (src.length - 1).size := by
    rw [hfilled.capacity, hcap]
  have hdata : getDataAddress ⟨h.heap.current + sizeofPointer⟩
      = h.heap.current + sizeofPointer + sizeofBuffer :=
    getDataAddress_eq (Nat.le_add_left _ _)
  have houtside : ∀ i : Nat, i < h.heap.current ∨ h₀.heap.current ≤ i →
      (copyFrom ⟨h.heap.current + sizeofPointer⟩ src h₀).bytes i = h.bytes i := by
    intro i hi
    rw [hfilled.outside i ?_, hblock.outside i hi]
    rcases hi with hi | hi
    · exact .inl (hi.trans_le (Nat.le_add_right _ _))
    · refine .inr (le_trans ?_ hi)
      rw [hdata, hblock.current, Nat.add_assoc, Nat.add_assoc]
      exact Nat.add_le_add_left (Nat.add_le_add_left (Nat.add_le_add_left hle _) _) _
  refine ⟨⟨h.heap.current + sizeofPointer⟩, copyFrom ⟨h.heap.current + sizeofPointer⟩ src h₀, ?_,
    ⟨?_, hfilled.length, hfilled.content, ?_, ?_⟩, ⟨?_, ?_, ?_, ?_⟩⟩
  · have hne : ¬ src.isEmpty := by
      rintro hempty
      rw [List.isEmpty_iff.mp hempty] at hs
      cases hs
    rw [copy, if_neg hne, hnew]
    rfl
  · rw [hcapacity]
    exact isLeast_two_pow_size hs
  · rw [hdata, hcapacity, hfilled.heap, hblock.current, Nat.add_assoc, Nat.add_assoc]
  · rwa [hfilled.heap]
  · rw [hfilled.heap]
    exact hblock.zone
  · rw [hfilled.heap]
    exact hblock.current
  · rw [hfilled.heap]
    exact hblock.limit
  · rwa [hfilled.heap]

/-- `Copy`, when the block cannot be allocated. -/
theorem copy_eq_none (hs : 1 ≤ src.length) (hmax : src.length ≤ 2 ^ 62)
    (hnone : h.tryAllocate (sizeofBuffer + 2 ^ (src.length - 1).size) = none) :
    copy src h = none := by
  have hne : ¬ src.isEmpty := by
    rintro hempty
    rw [List.isEmpty_iff.mp hempty] at hs
    cases hs
  rw [copy, if_neg hne, new, toNat_roundUpPow2 hs hmax, hnone]
  rfl

end Buffer

/-- The new zone has room for a buffer with the capacity, and for a string object. -/
def Buffer.Fits (h : ByteHeap) (s : List UInt8) : Prop :=
  ∃ m, s.length ≤ 2 ^ m ∧ 2 ^ m ≤ 2048 ∧
    h.heap.current + 2 ^ m + 96 < h.heap.fromspace + h.heap.semisize

section

open ByteHeap Buffer

variable {h : ByteHeap} {s : List UInt8}

/-- The two blocks that are allocated. -/
theorem blocks_lt {current capacity limit : Nat} :
    current + (sizeofPointer + (sizeofBuffer + capacity)) +
      (sizeofPointer + StringObject.sizeofString) < limit ↔ current + capacity + 96 < limit := by
  rw [sizeofPointer, sizeofBuffer, StringObject.sizeofString]
  omega

/-- `String::New` of a buffer that holds a string, when there is room. -/
theorem StringObject.new_buffer {b : Buffer} (hlen : (b.getLength h).toNat = s.length)
    (hcontent : h.read b.getDataAddress s.length = s) :
    new [.buffer b] h = alloc s h := by
  rw [new, hlen, hcontent]

theorem throughBuffer_of_fits (hs : 1 ≤ s.length) (hmax : s.length ≤ 2 ^ 62) (hfits : Fits h s) :
    ThroughBuffer h s := by
  obtain ⟨m, hm, hsmall, hroom⟩ := hfits
  have hle : 2 ^ (s.length - 1).size ≤ 2 ^ m := (isLeast_two_pow_size hs).2 ⟨⟨m, rfl⟩, hm⟩
  have hsize : sizeofBuffer + 2 ^ (s.length - 1).size < kLargeObjectSize := by
    rw [sizeofBuffer, kLargeObjectSize]
    omega
  have hboth : h.heap.current + (sizeofPointer + (sizeofBuffer + 2 ^ (s.length - 1).size)) +
      (sizeofPointer + StringObject.sizeofString) < h.heap.fromspace + h.heap.semisize := by
    exact blocks_lt.mpr ((Nat.add_le_add_right (Nat.add_le_add_left hle _) 96).trans_lt hroom)
  obtain ⟨b, h₁, hcopy, hcopied, hblock⟩ :=
    copied hs hmax hsize ((Nat.le_add_right _ _).trans_lt hboth)
  have hstring : h₁.heap.current + (sizeofPointer + StringObject.sizeofString) <
      h₁.heap.fromspace + h₁.heap.semisize := by
    rwa [hblock.current, hblock.limit]
  obtain ⟨h₂, halloc, -⟩ := tryAllocate_new (by decide) hstring
  refine ⟨b, h₁, ⟨h₁.heap.current + sizeofPointer, s⟩, h₂, hcopy, hcopied, ?_, ?_⟩
  · rw [StringObject.new_buffer hcopied.length hcopied.content, StringObject.alloc, halloc]
    rfl
  · exact beq_self_eq_true s

/-- **The round trip.** -/
theorem throughBuffer_iff (hs : 1 ≤ s.length) (hmax : s.length ≤ kMaxBufferSize) :
    ThroughBuffer h s ↔ Fits h s := by
  have hle : s.length ≤ 2 ^ 62 := hmax.trans (by decide)
  refine ⟨?_, throughBuffer_of_fits hs hle⟩
  rintro ⟨b, h₁, str, h₂, hcopy, -, hnew, -⟩
  have hsize : sizeofBuffer + 2 ^ (s.length - 1).size < kLargeObjectSize := by
    by_contra hlarge
    rw [copy_eq_none hs hle (tryAllocate_large (Nat.le_of_not_lt hlarge))] at hcopy
    cases hcopy
  have hroom : h.heap.current + (sizeofPointer + (sizeofBuffer + 2 ^ (s.length - 1).size)) <
      h.heap.fromspace + h.heap.semisize := by
    by_contra hfull
    rw [copy_eq_none hs hle (tryAllocate_full hsize (Nat.le_of_not_lt hfull))] at hcopy
    cases hcopy
  obtain ⟨b', h', hcopy', hcopied, hblock⟩ := copied hs hle hsize hroom
  rw [hcopy'] at hcopy
  cases hcopy
  refine ⟨(s.length - 1).size, (isLeast_two_pow_size hs).1.2, ?_, ?_⟩
  · rw [sizeofBuffer, kLargeObjectSize] at hsize
    have hlt : 2 ^ (s.length - 1).size < 2 ^ 12 := by omega
    have hexp : (s.length - 1).size < 12 := (Nat.pow_lt_pow_iff_right Nat.one_lt_two).mp hlt
    exact Nat.pow_le_pow_right Nat.two_pos (Nat.le_of_lt_succ hexp)
  · by_contra hfull
    have hout : h₁.heap.fromspace + h₁.heap.semisize ≤
        h₁.heap.current + (sizeofPointer + StringObject.sizeofString) := by
      rw [hblock.current, hblock.limit]
      exact Nat.le_of_not_lt fun hlt => hfull (blocks_lt.mp hlt)
    have hnone : h₁.tryAllocate StringObject.sizeofString = none :=
      tryAllocate_full (by decide) hout
    rw [StringObject.new_buffer hcopied.length hcopied.content, StringObject.alloc, hnone] at hnew
    cases hnew

/-- Three bytes, one of them zero. -/
theorem throughBuffer_sample : ThroughBuffer (.init 4096) [97, 0, 98] :=
  (throughBuffer_iff (by decide) (by decide)).mpr ⟨2, by decide, by decide, by decide⟩

/-- The block for 2049 bytes has to come from the old zone, also when the new one is empty. -/
theorem not_throughBuffer_replicate : ¬ ∀ s : List UInt8, 1 ≤ s.length →
    s.length ≤ kMaxBufferSize → ThroughBuffer (.init 4096) s := by
  intro hall
  have hlen : (List.replicate 2049 (97 : UInt8)).length = 2049 := List.length_replicate
  obtain ⟨b, h₁, str, h₂, hcopy, -⟩ := hall (List.replicate 2049 97)
    (by rw [hlen]; decide) (by rw [hlen]; decide)
  have hbits : 11 < (2049 - 1).size := Nat.lt_size.mpr (by decide)
  have hpow : 2 ^ 12 ≤ 2 ^ (2049 - 1).size := Nat.pow_le_pow_right Nat.two_pos hbits
  have hlarge : kLargeObjectSize ≤
      sizeofBuffer + 2 ^ ((List.replicate 2049 (97 : UInt8)).length - 1).size := by
    rw [hlen]
    exact hpow.trans (Nat.le_add_left _ _)
  have hnone : copy (List.replicate 2049 97) (init 4096) = none :=
    copy_eq_none (by rw [hlen]; decide) (by rw [hlen]; decide) (tryAllocate_large hlarge)
  rw [hnone] at hcopy
  cases hcopy

end

end Gel
