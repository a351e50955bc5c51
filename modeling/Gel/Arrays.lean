import Gel.NativeArgument
import Gel.Support.Window

/-!
# Arrays — the array natives over the slots of the heap

An array is a capacity and the address of its slots.  `Array/get` and `Array/set!` test an index
against the capacity with `>`, so the index that equals the capacity passes, and the word behind the
last slot is read or written.  The text of an index that is rejected shows the array, and the
printing of an array that reaches itself does not end.

`Contents.respond` says what the natives are for: arrays are lists, and an index outside a list is
an error.

* `lawful_iff`: the runs of the natives that do what the lists do.
-/

namespace Gel

/-- A word of the heap: a null pointer, the pointer of an object, or other bytes. -/
inductive Slot where
  | null
  | object (v : Value)
  | other

/-- `ArrayBase`, with the address `data()`. -/
structure ArrayBase where
  capacity : Nat
  data : Nat

/-- The words of the heap, and the arrays in it; the words from `top` on are free. -/
structure ArrayHeap where
  words : Nat → Slot
  arrays : List ArrayBase := []
  top : Nat := 0

namespace ArrayBase

variable (a : ArrayBase)

/-- `GetPointerAt`. -/
def pointerAt (idx : Nat) : Nat := a.data + idx

/-- `Get`; other bytes are not the pointer of an object. -/
def get (h : ArrayHeap) (idx : Nat) : Except Fault (Option Value) :=
  match h.words (a.pointerAt idx) with
  | .null => .ok none
  | .object v => .ok (some v)
  | .other => .error .undefined

/-- `Set`. -/
def set (h : ArrayHeap) (idx : Nat) (value : Value) : ArrayHeap :=
  { h with words := Function.update h.words (a.pointerAt idx) (.object value) }

variable {a} {h : ArrayHeap} {idx w : Nat} {value : Value}

@[simp] theorem set_arrays : (a.set h idx value).arrays = h.arrays := rfl

@[simp] theorem set_top : (a.set h idx value).top = h.top := rfl

@[simp]
theorem set_words_self : (a.set h idx value).words (a.pointerAt idx) = .object value :=
  Function.update_self _ _ _

theorem set_words_of_ne (hw : w ≠ a.pointerAt idx) : (a.set h idx value).words w = h.words w :=
  Function.update_of_ne hw _ _

end ArrayBase

/-! ### Text -/

/-- What `PrintValue` prints of a list: the cars, and the last `cdr` unless it is the empty list. -/
def Value.spine : Value → List Value
  | .pair car cdr => car :: cdr.spine
  | .null => []
  | v => [v]

/-- `PrintValue` of what is neither a list nor an array. -/
def printAtom (host : Host) : Value → String
  | .null => "()"
  | .bool b => if b then "#t" else "#f"
  | .long n => toString n
  | .string s => s
  | .symbol s => s.fullyQualifiedName
  | .native s => "NativeProcedure(" ++ s.fullyQualifiedName ++ ")"
  | .cls c => "Class(" ++ c.name ++ ")"
  | v => host.toString v

/-- The loop of `ArrayBase::ToString`, which skips null pointers. -/
def printElements (print : Value → Except Fault String) :
    List (Option Value) → Except Fault String
  | [] => .ok ""
  | none :: vs => printElements print vs
  | some v :: vs => do
      let text ← print v
      let rest ← printElements print vs
      return text ++ (if vs.isEmpty then "" else ", ") ++ rest

namespace ArrayHeap

variable (host : Host) (h : ArrayHeap)

/-- `PrintValue`, to a depth. -/
def printValue : Nat → Value → Except Fault String
  | 0, _ => .error .timeout
  | depth + 1, v => match v with
      | .pair .. => do
          let texts ← v.spine.mapM (printValue depth)
          return "(" ++ " ".intercalate texts ++ ")"
      | .object .array id => match h.arrays[id]? with
          | none => .error .undefined
          | some a => do
              let data ← (List.range a.capacity).mapM (a.get h)
              let text ← printElements (printValue depth) data
              return "Array(capacity=" ++ toString a.capacity ++ ", data=[" ++ text ++ "])"
      | v => .ok (printAtom host v)

/-- `Array<Object*>::New`: behind the header of the object its slots, which are null. -/
def allocate (headerSize capacity : Nat) : ArrayBase × ArrayHeap :=
  let a : ArrayBase := { capacity, data := h.top + headerSize }
  (a, { words := writeAll h.words a.data (List.replicate capacity .null)
        arrays := h.arrays ++ [a]
        top := a.data + capacity })

end ArrayHeap

/-- The words of an object in front of the slots: its `Pointer`, the virtual table, the capacity. -/
def ArrayBase.headerSize : Nat := 3

/-- How a native ends: it returns a value, does nothing, or throws an `Error`. -/
inductive NativeResult where
  | value (v : Value)
  | nothing
  | error (message : String)

namespace ArrayHeap

variable (host : Host) (depth : Nat) (args : List Value) (h : ArrayHeap)

/-- The loop of `Array/new`. -/
def setAll (a : ArrayBase) : Nat → List Value → ArrayHeap → ArrayHeap
  | _, [], h => h
  | idx, v :: vs, h => setAll a (idx + 1) vs (a.set h idx v)

/-- `Array/new`. -/
def arrayNew : Except Fault (NativeResult × ArrayHeap) :=
  if args.isEmpty then .ok (.error "expected args to not be empty", h)
  else
    let (result, h') := h.allocate ArrayBase.headerSize args.length
    .ok (.value (.object .array h.arrays.length), setAll result 0 args h')

/-- The error for an index that is out of bounds. -/
def outOfBounds (index : UInt64) (id : Nat) : Except Fault (NativeResult × ArrayHeap) := do
  let text ← h.printValue host depth (.object .array id)
  return (.error ("index `" ++ toString index ++ "` is out of bounds for `" ++ text ++ "`"), h)

/-- `Array/get`; `NativeArgument`s that failed are not tested. -/
def arrayGet : Except Fault (NativeResult × ArrayHeap) := do
  if args.length ≠ 2 then return (.error "expected args to be: `<array> <index>`", h)
  let array ← NativeArgument.new host 0 .array true (args.map some)
  let index ← NativeArgument.new host 1 .long true (args.map some)
  match array.value, index.value with
  | some (.object .array id), some (.long index) =>
      match h.arrays[id]? with
      | none => .error .undefined
      | some a =>
          if index.toNat > a.capacity then h.outOfBounds host depth index id
          else do
            let result ← a.get h index.toNat
            return (.value (result.getD .null), h)
  | _, _ => .error .undefined

/-- `Array/set!`. -/
def arraySet : Except Fault (NativeResult × ArrayHeap) :=
  match args with
  | [array, index, value] =>
      match array with
      | .object .array id =>
          match index with
          | .long index =>
              match h.arrays[id]? with
              | none => .error .undefined
              | some a =>
                  if index.toNat > a.capacity then h.outOfBounds host depth index id
                  else .ok (.nothing, a.set h index.toNat value)
          | _ => .ok (.error ("expected `" ++ host.toString index ++ "` to be a Long."), h)
      | _ => .ok (.error ("expected `" ++ host.toString array ++ "` to be an Array"), h)
  | _ => .ok (.error "expected args to be: `<array> <index>`", h)

end ArrayHeap

/-! ### Calls -/

namespace Arrays

/-- A call of an array native with the arguments it expects. -/
inductive Call where
  | new (args : List Value)
  | get (array : Nat) (index : UInt64)
  | set (array : Nat) (index : UInt64) (value : Value)

/-- The native on its arguments. -/
def Call.run (host : Host) (depth : Nat) (h : ArrayHeap) :
    Call → Except Fault (NativeResult × ArrayHeap)
  | new args => h.arrayNew args
  | get array index => h.arrayGet host depth [.object .array array, .long index]
  | set array index value => h.arraySet host depth [.object .array array, .long index, value]

/-- Calls one after the other. -/
def runAll (host : Host) (depth : Nat) :
    List Call → ArrayHeap → Except Fault (List NativeResult × ArrayHeap)
  | [], h => .ok ([], h)
  | c :: cs, h => do
      let (r, h) ← c.run host depth h
      let (rs, h) ← runAll host depth cs h
      return (r :: rs, h)

/-! ### What the natives are for -/

/-- The answer to a call. -/
inductive Response where
  | value (v : Value)
  | done
  | error

/-- The elements of each array. -/
abbrev Contents := List (List Value)

/-- A new array has the arguments as its elements; an element is read and replaced by its index,
and an index that has no element is an error. -/
def Contents.respond (m : Contents) : Call → Response × Contents
  | .new [] => (.error, m)
  | .new args => (.value (.object .array m.length), m ++ [args])
  | .get array index => match m[array]?.bind (·[index.toNat]?) with
      | some v => (.value v, m)
      | none => (.error, m)
  | .set array index value => match m[array]? with
      | some vs =>
          if index.toNat < vs.length then (.done, List.set m array (vs.set index.toNat value))
          else (.error, m)
      | none => (.error, m)

/-- The answers to calls one after the other. -/
def Contents.respondAll : Contents → List Call → List Response × Contents
  | m, [] => ([], m)
  | m, call :: calls =>
      let (r, m) := m.respond call
      let (rs, m) := m.respondAll calls
      (r :: rs, m)

/-- The answer a result is. -/
def response : NativeResult → Response
  | .value v => .value v
  | .nothing => .done
  | .error _ => .error

/-- The object a slot refers to. -/
def object : Slot → Value
  | .object v => v
  | _ => .null

/-- The elements of an array. -/
def elements (h : ArrayHeap) (a : ArrayBase) : List Value :=
  (window h.words a.data a.capacity).map object

def contents (h : ArrayHeap) : Contents := h.arrays.map (elements h)

/-- The word is a slot of one of the arrays. -/
def IsSlot (h : ArrayHeap) (w : Nat) : Prop := ∃ a ∈ h.arrays, InWindow a.data a.capacity w

/-- From the heap `h` the calls are answered as lists answer them, with the elements the lists have
afterwards, and no word that is not a slot is written. -/
def Lawful (host : Host) (h : ArrayHeap) (calls : List Call) : Prop :=
  ∃ depth rs h', runAll host depth calls h = .ok (rs, h') ∧
    rs.map response = ((contents h).respondAll calls).1 ∧
    contents h' = ((contents h).respondAll calls).2 ∧
    ∀ w, ¬ IsSlot h' w → h'.words w = h.words w

/-! ### Where they do it -/

/-- The values that the printing of a value goes on to. -/
def parts (m : Contents) : Value → Option (List Value)
  | .object .array id => m[id]?
  | .pair car cdr => some (car :: cdr.spine)
  | _ => some []

/-- The printing of the value ends: no list and no array in it reaches itself. -/
inductive Printable (m : Contents) : Value → Prop
  | intro {v vs} : parts m v = some vs → (∀ x ∈ vs, Printable m x) → Printable m v

/-- The array exists, the index is not its capacity, and where it is greater the array can be
printed. -/
def Contents.Indexes (m : Contents) (array : Nat) (index : UInt64) : Prop :=
  ∃ vs, m[array]? = some vs ∧ index.toNat ≠ vs.length ∧
    (vs.length < index.toNat → Printable m (.object .array array))

def Contents.Within (m : Contents) : Call → Prop
  | .new _ => True
  | .get array index => m.Indexes array index
  | .set array index _ => m.Indexes array index

/-- Every call of the run is within its array, with the elements it has by then. -/
def Contents.AllWithin : Contents → List Call → Prop
  | _, [] => True
  | m, call :: calls => m.Within call ∧ (m.respond call).2.AllWithin calls

/-! ### The heap -/

/-- Arrays follow one another, and each of their slots refers to an object. -/
structure Valid (h : ArrayHeap) : Prop where
  below : ∀ a ∈ h.arrays, a.data + a.capacity ≤ h.top
  disjoint : h.arrays.Pairwise fun a b => a.data + a.capacity ≤ b.data
  objects : ∀ w, IsSlot h w → ∃ v, h.words w = .object v

variable {h : ArrayHeap} {a : ArrayBase} {id i : Nat}

theorem contents_getElem? : (contents h)[id]? = h.arrays[id]?.map (elements h) := by
  rw [contents, List.getElem?_map]

@[simp]
theorem length_elements : (elements h a).length = a.capacity := by simp [elements]

/-- A slot of an array is read. -/
theorem get_of_lt (hv : Valid h) (ha : a ∈ h.arrays) (hi : i < a.capacity) :
    ∃ v, a.get h i = .ok (some v) ∧ (elements h a)[i]? = some v := by
  obtain ⟨v, hw⟩ := hv.objects (a.data + i) ⟨a, ha, inWindow_add hi⟩
  refine ⟨v, by rw [ArrayBase.get, ArrayBase.pointerAt, hw], ?_⟩
  rw [elements, List.getElem?_map, getElem?_window hi, hw]
  rfl

/-- The words of two arrays are apart. -/
theorem Valid.apart (hv : Valid h) {j : Nat} {b : ArrayBase} (ha : h.arrays[id]? = some a)
    (hb : h.arrays[j]? = some b) (hne : id ≠ j) {w : Nat} (hw : InWindow a.data a.capacity w) :
    ¬ InWindow b.data b.capacity w := by
  obtain ⟨hid, rfl⟩ := List.getElem?_eq_some_iff.mp ha
  obtain ⟨hj, rfl⟩ := List.getElem?_eq_some_iff.mp hb
  intro hw'
  have hpair := List.pairwise_iff_getElem.mp hv.disjoint
  rcases Nat.lt_or_gt_of_ne hne with hlt | hlt
  · exact absurd (hw.2.trans_le ((hpair _ _ hid hj hlt).trans hw'.1)) (Nat.lt_irrefl w)
  · exact absurd (hw'.2.trans_le ((hpair _ _ hj hid hlt).trans hw.1)) (Nat.lt_irrefl w)

/-- A write to a slot changes one element of one array. -/
theorem contents_set (hv : Valid h) (ha : h.arrays[id]? = some a) (hi : i < a.capacity)
    (v : Value) : contents (a.set h i v) = List.set (contents h) id ((elements h a).set i v) := by
  apply List.ext_getElem?
  intro j
  rw [contents_getElem?, ArrayBase.set_arrays, List.getElem?_set, contents_getElem?]
  by_cases hj : id = j
  · subst hj
    rw [if_pos rfl, ha]
    obtain ⟨hid, -⟩ := List.getElem?_eq_some_iff.mp ha
    rw [if_pos (by simpa [contents] using hid), Option.map_some, elements, elements,
      ArrayBase.set, ArrayBase.pointerAt, window_update_mem, List.map_set]
    rfl
  · rw [if_neg hj]
    rcases hb : h.arrays[j]? with - | b
    · rfl
    · rw [Option.map_some, Option.map_some, elements, elements, ArrayBase.set, ArrayBase.pointerAt,
        window_update_of_notMem (hv.apart ha hb hj (inWindow_add hi))]

theorem Valid.set (hv : Valid h) (v : Value) : Valid (a.set h i v) := by
  refine ⟨hv.below, hv.disjoint, ?_⟩
  intro w hw
  by_cases hwi : w = a.pointerAt i
  · exact ⟨v, by rw [hwi, ArrayBase.set_words_self]⟩
  · obtain ⟨x, hx⟩ := hv.objects w hw
    exact ⟨x, by rw [ArrayBase.set_words_of_ne hwi, hx]⟩

/-! ### A new array -/

/-- The loop of `Array/new` writes the arguments from the slot `i` on. -/
theorem setAll_eq {args : List Value} : ∀ {h : ArrayHeap} {i : Nat}, ArrayHeap.setAll a i args h =
    { h with words := writeAll h.words (a.pointerAt i) (args.map .object) } := by
  induction args with
  | nil =>
      intro h i
      rfl
  | cons v vs ih =>
      intro h i
      rw [ArrayHeap.setAll, ih]
      rfl

/-- The heap that `Array/new` leaves. -/
def afterNew (h : ArrayHeap) (args : List Value) : ArrayHeap :=
  let (a, h') := h.allocate ArrayBase.headerSize args.length
  ArrayHeap.setAll a 0 args h'

/-- The array that it makes. -/
def madeNew (h : ArrayHeap) (args : List Value) : ArrayBase :=
  { capacity := args.length, data := h.top + ArrayBase.headerSize }

variable {args : List Value} {w : Nat}

theorem afterNew_arrays : (afterNew h args).arrays = h.arrays ++ [madeNew h args] := by
  rw [afterNew]
  simp only [ArrayHeap.allocate, setAll_eq]
  rfl

theorem afterNew_top : (afterNew h args).top = (madeNew h args).data + args.length := by
  rw [afterNew]
  simp only [ArrayHeap.allocate, setAll_eq]
  rfl

theorem afterNew_words : (afterNew h args).words =
    writeAll (writeAll h.words (madeNew h args).data (List.replicate args.length .null))
      (madeNew h args).data (args.map .object) := by
  rw [afterNew]
  simp only [ArrayHeap.allocate, setAll_eq]
  rfl

/-- The words that are not slots of the new array are kept. -/
theorem afterNew_words_of_notMem (hw : ¬ InWindow (madeNew h args).data args.length w) :
    (afterNew h args).words w = h.words w := by
  rw [afterNew_words, writeAll_of_notMem (by rwa [List.length_map]),
    writeAll_of_notMem (by rwa [List.length_replicate])]

theorem window_afterNew :
    window (afterNew h args).words (madeNew h args).data args.length = args.map .object := by
  have := @window_writeAll Slot (args.map .object)
    (writeAll h.words (madeNew h args).data (List.replicate args.length .null))
    (madeNew h args).data
  rw [List.length_map] at this
  rw [afterNew_words, this]

/-- A slot of an array that was there before is not one of the new array. -/
theorem Valid.not_new (hv : Valid h) (ha : a ∈ h.arrays) (hw : InWindow a.data a.capacity w) :
    ¬ InWindow (madeNew h args).data args.length w := by
  intro hnew
  have hlt : w < h.top := hw.2.trans_le (hv.below a ha)
  exact absurd (hlt.trans_le ((Nat.le_add_right _ _).trans hnew.1)) (Nat.lt_irrefl w)

/-- The new array has the arguments as its elements, the others are kept. -/
theorem contents_afterNew (hv : Valid h) : contents (afterNew h args) = contents h ++ [args] := by
  rw [contents, afterNew_arrays, List.map_append, List.map_singleton]
  congr 1
  · refine List.map_congr_left fun a ha => congrArg (List.map object) (window_congr ?_)
    intro w hw
    exact afterNew_words_of_notMem (hv.not_new ha hw)
  · have : elements (afterNew h args) (madeNew h args) = args := by
      rw [elements]
      change (window (afterNew h args).words (madeNew h args).data args.length).map object = args
      rw [window_afterNew, List.map_map]
      exact List.map_id args
    rw [this]

theorem isSlot_afterNew : IsSlot (afterNew h args) w ↔
    IsSlot h w ∨ InWindow (madeNew h args).data args.length w := by
  rw [IsSlot, afterNew_arrays]
  simp [IsSlot, or_and_right, exists_or, madeNew]

theorem Valid.afterNew (hv : Valid h) (args : List Value) : Valid (afterNew h args) := by
  refine ⟨?_, ?_, ?_⟩
  · intro a ha
    rw [afterNew_arrays, List.mem_append, List.mem_singleton] at ha
    rw [afterNew_top]
    rcases ha with ha | rfl
    · exact (hv.below a ha).trans ((Nat.le_add_right _ _).trans (Nat.le_add_right _ _))
    · exact Nat.le_refl _
  · rw [afterNew_arrays, List.pairwise_append]
    refine ⟨hv.disjoint, List.pairwise_singleton _ _, ?_⟩
    intro a ha b hb
    rw [List.mem_singleton.mp hb]
    exact (hv.below a ha).trans (Nat.le_add_right _ _)
  · intro w hw
    rcases isSlot_afterNew.mp hw with ⟨a, ha, hwa⟩ | hnew
    · rw [afterNew_words_of_notMem (hv.not_new ha hwa)]
      exact hv.objects w ⟨a, ha, hwa⟩
    · have : (Arrays.afterNew h args).words w ∈
          window (Arrays.afterNew h args).words (madeNew h args).data args.length :=
        mem_window.mpr ⟨w, hnew, rfl⟩
      rw [window_afterNew, List.mem_map] at this
      obtain ⟨v, -, hv⟩ := this
      exact ⟨v, hv.symm⟩

/-! ### Printing -/

section Printing

variable {host : Host} {depth : Nat} {v : Value}

/-- The printing ends at the given depth. -/
def Prints (host : Host) (h : ArrayHeap) (depth : Nat) (v : Value) : Prop :=
  ∃ text, h.printValue host depth v = .ok text

theorem printElements_ok_iff {print : Value → Except Fault String} {vs : List Value} :
    (∃ text, printElements print (vs.map some) = .ok text) ↔
      ∀ x ∈ vs, ∃ text, print x = .ok text := by
  induction vs with
  | nil => simp [printElements]
  | cons x vs ih =>
      rw [List.forall_mem_cons, ← ih, List.map_cons, printElements]
      rcases print x with e | y
      · simp [Bind.bind, Except.bind]
      · rcases printElements print (vs.map some) with e | r <;>
          simp [Bind.bind, Except.bind, Pure.pure, Except.pure]

/-- The data of an array. -/
theorem data_eq (hv : Valid h) (ha : a ∈ h.arrays) :
    (List.range a.capacity).mapM (a.get h) = .ok ((elements h a).map some) := by
  have hget : ∀ i ∈ List.range a.capacity,
      a.get h i = .ok (some (object (h.words (a.data + i)))) := by
    intro i hi
    obtain ⟨v, hw⟩ := hv.objects (a.data + i) ⟨a, ha, inWindow_add (List.mem_range.mp hi)⟩
    rw [ArrayBase.get, ArrayBase.pointerAt, hw]
    rfl
  rw [Faulting.result_mapM_eq_ok hget, elements, window, List.map_map, List.map_map]
  rfl

/-- One level of the printing. -/
theorem prints_succ_iff (hv : Valid h) : Prints host h (depth + 1) v ↔
    ∃ vs, parts (contents h) v = some vs ∧ ∀ x ∈ vs, Prints host h depth x := by
  have hatom (hv : parts (contents h) v = some [])
      (ht : h.printValue host (depth + 1) v = .ok (printAtom host v)) :
      Prints host h (depth + 1) v ↔
        ∃ vs, parts (contents h) v = some vs ∧ ∀ x ∈ vs, Prints host h depth x :=
    iff_of_true ⟨_, ht⟩ ⟨[], hv, by simp⟩
  cases v with
  | pair car cdr =>
      simp only [Prints, ArrayHeap.printValue, parts, Option.some.injEq, exists_eq_left']
      rw [← Faulting.result_mapM_ok_iff, Value.spine]
      rcases (car :: cdr.spine).mapM (h.printValue host depth) with e | ts <;>
        simp [Bind.bind, Except.bind, Pure.pure, Except.pure]
  | object c id =>
      cases c with
      | array =>
          simp only [Prints, ArrayHeap.printValue, parts, contents_getElem?]
          rcases ha : h.arrays[id]? with - | a
          · simp
          · simp only [Option.map_some, Option.some.injEq, exists_eq_left']
            rw [← printElements_ok_iff, data_eq hv (List.mem_of_getElem? ha)]
            simp only [Bind.bind, Except.bind, Pure.pure, Except.pure]
            rcases printElements (h.printValue host depth) ((elements h a).map some) with e | t <;>
              simp
      | _ => exact hatom rfl rfl
  | _ => exact hatom rfl rfl

/-- A greater depth prints what a smaller one prints. -/
theorem Prints.mono (hv : Valid h) {n : Nat} (hd : depth ≤ n) (hp : Prints host h depth v) :
    Prints host h n v := by
  induction depth generalizing n v with
  | zero =>
      obtain ⟨text, ht⟩ := hp
      cases ht
  | succ depth ih =>
      obtain ⟨n, rfl⟩ := Nat.exists_eq_succ_of_ne_zero (Nat.ne_of_gt (Nat.lt_of_lt_of_le
        (Nat.succ_pos depth) hd))
      obtain ⟨vs, hvs, hall⟩ := (prints_succ_iff hv).mp hp
      refine (prints_succ_iff hv).mpr ⟨vs, hvs, fun x hx => ?_⟩
      exact ih (Nat.le_of_succ_le_succ hd) (hall x hx)

theorem exists_depth_of_forall (hv : Valid h) {vs : List Value}
    (hall : ∀ x ∈ vs, ∃ depth, Prints host h depth x) :
    ∃ depth, ∀ x ∈ vs, Prints host h depth x := by
  induction vs with
  | nil => exact ⟨0, by simp⟩
  | cons x vs ih =>
      rw [List.forall_mem_cons] at hall
      obtain ⟨n, hn⟩ := hall.1
      obtain ⟨m, hm⟩ := ih hall.2
      refine ⟨max n m, ?_⟩
      rw [List.forall_mem_cons]
      exact ⟨hn.mono hv (Nat.le_max_left n m),
        fun y hy => (hm y hy).mono hv (Nat.le_max_right n m)⟩

/-- The printing ends, at some depth, exactly on what can be printed. -/
theorem exists_prints_iff (hv : Valid h) :
    (∃ depth, Prints host h depth v) ↔ Printable (contents h) v := by
  constructor
  · rintro ⟨depth, hp⟩
    induction depth generalizing v with
    | zero =>
        obtain ⟨text, ht⟩ := hp
        cases ht
    | succ depth ih =>
        obtain ⟨vs, hvs, hall⟩ := (prints_succ_iff hv).mp hp
        exact .intro hvs fun x hx => ih (hall x hx)
  · intro hp
    induction hp with
    | intro hvs _ ih =>
        obtain ⟨depth, hall⟩ := exists_depth_of_forall hv ih
        exact ⟨depth + 1, (prints_succ_iff hv).mpr ⟨_, hvs, hall⟩⟩

end Printing

/-! ### One call -/

section Step

variable {host : Host} {depth : Nat} {h' : ArrayHeap} {index : UInt64} {value : Value}
  {call : Call} {r : NativeResult}

theorem run_get (ha : h.arrays[id]? = some a) : (Call.get id index).run host depth h =
    if index.toNat > a.capacity then h.outOfBounds host depth index id
    else (fun v => (.value (v.getD .null), h)) <$> a.get h index.toNat := by
  simp [Call.run, ArrayHeap.arrayGet, NativeArgument.new, ha, Value.type, ClassId.isInstanceOf,
    Bind.bind, Except.bind, Pure.pure, Except.pure, Functor.map, Except.map]

theorem run_get_none (ha : h.arrays[id]? = none) :
    (Call.get id index).run host depth h = .error .undefined := by
  simp [Call.run, ArrayHeap.arrayGet, NativeArgument.new, ha, Value.type, ClassId.isInstanceOf,
    Bind.bind, Except.bind]

theorem run_set (ha : h.arrays[id]? = some a) : (Call.set id index value).run host depth h =
    if index.toNat > a.capacity then h.outOfBounds host depth index id
    else .ok (.nothing, a.set h index.toNat value) := by
  simp [Call.run, ArrayHeap.arraySet, ha]

theorem run_set_none (ha : h.arrays[id]? = none) :
    (Call.set id index value).run host depth h = .error .undefined := by
  simp [Call.run, ArrayHeap.arraySet, ha]

theorem outOfBounds_eq_ok (hr : h.outOfBounds host depth index id = .ok (r, h')) :
    Prints host h depth (.object .array id) ∧ response r = .error ∧ h' = h := by
  rw [ArrayHeap.outOfBounds] at hr
  rcases ht : h.printValue host depth (.object .array id) with e | text
  · rw [ht] at hr
    cases hr
  · rw [ht] at hr
    cases hr
    exact ⟨⟨text, ht⟩, rfl, rfl⟩

theorem outOfBounds_of_prints (hp : Prints host h depth (.object .array id)) :
    ∃ r, h.outOfBounds host depth index id = .ok (r, h) := by
  obtain ⟨text, ht⟩ := hp
  exact ⟨_, by rw [ArrayHeap.outOfBounds, ht]; rfl⟩

/-- The call did what it does on lists. -/
structure Answered (h : ArrayHeap) (call : Call) (r : NativeResult) (h' : ArrayHeap) : Prop where
  response : Arrays.response r = ((contents h).respond call).1
  contents : Arrays.contents h' = ((contents h).respond call).2
  valid : Valid h'
  slots : ∀ w, IsSlot h w → IsSlot h' w
  kept : ∀ w, ¬ IsSlot h' w → h'.words w = h.words w

/-- A call that leaves the heap as it is. -/
theorem Answered.unchanged (hv : Valid h)
    (hc : (Arrays.contents h).respond call = (Arrays.response r, Arrays.contents h)) :
    Answered h call r h :=
  ⟨by rw [hc], by rw [hc], hv, fun _ hw => hw, fun _ _ => rfl⟩

theorem respond_get_error {m : Contents} {vs : List Value} (hc : m[id]? = some vs)
    (hi : vs.length < index.toNat) : m.respond (.get id index) = (.error, m) := by
  rw [Contents.respond, hc, Option.bind_some, List.getElem?_eq_none (Nat.le_of_lt hi)]

theorem respond_set_error {m : Contents} {vs : List Value} (hc : m[id]? = some vs)
    (hi : vs.length ≤ index.toNat) : m.respond (.set id index value) = (.error, m) := by
  rw [Contents.respond, hc]
  exact if_neg (Nat.not_lt_of_le hi)

/-- A get of an array that exists. -/
theorem get_answered (hv : Valid h) (ha : h.arrays[id]? = some a) (hne : index.toNat ≠ a.capacity)
    (hr : (Call.get id index).run host depth h = .ok (r, h')) :
    Answered h (.get id index) r h' := by
  have hc : (contents h)[id]? = some (elements h a) := by rw [contents_getElem?, ha]; rfl
  rw [run_get ha] at hr
  by_cases hgt : index.toNat > a.capacity
  · rw [if_pos hgt] at hr
    obtain ⟨-, hresp, rfl⟩ := outOfBounds_eq_ok hr
    exact .unchanged hv (by rw [respond_get_error hc (by rwa [length_elements]), hresp])
  · rw [if_neg hgt] at hr
    have hlt : index.toNat < a.capacity := Nat.lt_of_le_of_ne (Nat.le_of_not_lt hgt) hne
    obtain ⟨v, hget, hel⟩ := get_of_lt hv (List.mem_of_getElem? ha) hlt
    rw [hget] at hr
    cases hr
    refine .unchanged hv ?_
    rw [Contents.respond, hc, Option.bind_some, hel]
    rfl

/-- A set of an array that exists. -/
theorem set_answered (hv : Valid h) (ha : h.arrays[id]? = some a) (hne : index.toNat ≠ a.capacity)
    (hr : (Call.set id index value).run host depth h = .ok (r, h')) :
    Answered h (.set id index value) r h' := by
  have hc : (contents h)[id]? = some (elements h a) := by rw [contents_getElem?, ha]; rfl
  rw [run_set ha] at hr
  by_cases hgt : index.toNat > a.capacity
  · rw [if_pos hgt] at hr
    obtain ⟨-, hresp, rfl⟩ := outOfBounds_eq_ok hr
    refine .unchanged hv ?_
    rw [respond_set_error hc (by rw [length_elements]; exact Nat.le_of_lt hgt), hresp]
  · rw [if_neg hgt] at hr
    have hlt : index.toNat < a.capacity := Nat.lt_of_le_of_ne (Nat.le_of_not_lt hgt) hne
    cases hr
    have hresp : (contents h).respond (.set id index value)
        = (.done, List.set (contents h) id ((elements h a).set index.toNat value)) := by
      rw [Contents.respond, hc]
      exact if_pos (by rwa [length_elements])
    refine ⟨by rw [hresp]; rfl, by rw [hresp, contents_set hv ha hlt], hv.set value,
      fun w hw => hw, ?_⟩
    intro w hw
    refine ArrayBase.set_words_of_ne ?_
    rintro rfl
    exact hw ⟨a, List.mem_of_getElem? ha, inWindow_add hlt⟩

/-- `Array/new` always does what it does on lists. -/
theorem new_answered (hv : Valid h) {args : List Value}
    (hr : (Call.new args).run host depth h = .ok (r, h')) : Answered h (.new args) r h' := by
  cases args with
  | nil =>
      cases hr
      exact .unchanged hv rfl
  | cons v vs =>
      have hr' : (.ok (.value (.object .array h.arrays.length), afterNew h (v :: vs)) :
          Except Fault (NativeResult × ArrayHeap)) = .ok (r, h') := hr
      cases hr'
      refine ⟨?_, contents_afterNew hv, hv.afterNew _, ?_, ?_⟩
      · rw [Contents.respond, contents, List.length_map]
        · rfl
        · exact List.cons_ne_nil v vs
      · intro w hw
        exact isSlot_afterNew.mpr (.inl hw)
      · intro w hw
        exact afterNew_words_of_notMem fun hnew => hw (isSlot_afterNew.mpr (.inr hnew))

/-- A call within its array does what it does on lists. -/
theorem answered (hv : Valid h) (hw : (contents h).Within call)
    (hr : call.run host depth h = .ok (r, h')) : Answered h call r h' := by
  have harray {id : Nat} {index : UInt64} (hi : (contents h).Indexes id index) :
      ∃ a, h.arrays[id]? = some a ∧ index.toNat ≠ a.capacity := by
    obtain ⟨vs, hvs, hne, -⟩ := hi
    rw [contents_getElem?, Option.map_eq_some_iff] at hvs
    obtain ⟨a, ha, rfl⟩ := hvs
    exact ⟨a, ha, by rwa [length_elements] at hne⟩
  cases call with
  | new args => exact new_answered hv hr
  | get id index =>
      obtain ⟨a, ha, hne⟩ := harray hw
      exact get_answered hv ha hne hr
  | set id index value =>
      obtain ⟨a, ha, hne⟩ := harray hw
      exact set_answered hv ha hne hr

/-- A call within its array returns, at every depth that is great enough. -/
theorem runs (hv : Valid h) (hw : (contents h).Within call) :
    ∃ n, ∀ depth, n ≤ depth → ∃ r h', call.run host depth h = .ok (r, h') := by
  -- how deep the text of the array is that an index behind its end shows
  have hdepth {id : Nat} {index : UInt64} (hi : (contents h).Indexes id index) :
      ∃ a n, h.arrays[id]? = some a ∧ index.toNat ≠ a.capacity ∧ ∀ depth, n ≤ depth →
        index.toNat > a.capacity → Prints host h depth (.object .array id) := by
    obtain ⟨vs, hvs, hne, hp⟩ := hi
    rw [contents_getElem?, Option.map_eq_some_iff] at hvs
    obtain ⟨a, ha, rfl⟩ := hvs
    rw [length_elements] at hne hp
    by_cases hgt : index.toNat > a.capacity
    · obtain ⟨n, hn⟩ := (exists_prints_iff hv).mpr (hp hgt)
      exact ⟨a, n, ha, hne, fun depth hd _ => hn.mono hv hd⟩
    · exact ⟨a, 0, ha, hne, fun _ _ h => absurd h hgt⟩
  cases call with
  | new args =>
      refine ⟨0, fun depth _ => ?_⟩
      cases args with
      | nil => exact ⟨_, _, rfl⟩
      | cons v vs => exact ⟨_, _, rfl⟩
  | get id index =>
      obtain ⟨a, n, ha, hne, hn⟩ := hdepth hw
      refine ⟨n, fun depth hd => ?_⟩
      rw [run_get ha]
      by_cases hgt : index.toNat > a.capacity
      · obtain ⟨r, hr⟩ := outOfBounds_of_prints (hn depth hd hgt)
        exact ⟨r, h, by rw [if_pos hgt, hr]⟩
      · have hlt : index.toNat < a.capacity := Nat.lt_of_le_of_ne (Nat.le_of_not_lt hgt) hne
        obtain ⟨v, hget, -⟩ := get_of_lt hv (List.mem_of_getElem? ha) hlt
        exact ⟨_, _, by rw [if_neg hgt, hget]; rfl⟩
  | set id index value =>
      obtain ⟨a, n, ha, hne, hn⟩ := hdepth hw
      refine ⟨n, fun depth hd => ?_⟩
      rw [run_set ha]
      by_cases hgt : index.toNat > a.capacity
      · obtain ⟨r, hr⟩ := outOfBounds_of_prints (hn depth hd hgt)
        exact ⟨r, h, by rw [if_pos hgt, hr]⟩
      · exact ⟨_, _, if_neg hgt⟩

/-- A call that returns what it returns on lists is within its array: at the capacity itself a get
returns a value and a set does nothing, where the lists have an error. -/
theorem within_of_response (hv : Valid h) (hr : call.run host depth h = .ok (r, h'))
    (hresp : response r = ((contents h).respond call).1) : (contents h).Within call := by
  cases call with
  | new args => trivial
  | get id index =>
      rcases ha : h.arrays[id]? with - | a
      · rw [run_get_none ha] at hr
        cases hr
      have hc : (contents h)[id]? = some (elements h a) := by rw [contents_getElem?, ha]; rfl
      refine ⟨_, hc, ?_, ?_⟩
      · intro heq
        rw [length_elements] at heq
        rw [run_get ha, if_neg (by rw [heq]; exact Nat.lt_irrefl _)] at hr
        rw [Contents.respond, hc, Option.bind_some,
          List.getElem?_eq_none (by rw [length_elements, heq])] at hresp
        rcases hget : a.get h index.toNat with e | v
        · rw [hget] at hr
          cases hr
        · rw [hget] at hr
          cases hr
          cases hresp
      · intro hgt
        rw [length_elements] at hgt
        rw [run_get ha, if_pos hgt] at hr
        exact (exists_prints_iff hv).mp ⟨_, (outOfBounds_eq_ok hr).1⟩
  | set id index value =>
      rcases ha : h.arrays[id]? with - | a
      · rw [run_set_none ha] at hr
        cases hr
      have hc : (contents h)[id]? = some (elements h a) := by rw [contents_getElem?, ha]; rfl
      refine ⟨_, hc, ?_, ?_⟩
      · intro heq
        rw [respond_set_error hc (by rw [heq])] at hresp
        rw [length_elements] at heq
        rw [run_set ha, if_neg (by rw [heq]; exact Nat.lt_irrefl _)] at hr
        cases hr
        cases hresp
      · intro hgt
        rw [length_elements] at hgt
        rw [run_set ha, if_pos hgt] at hr
        exact (exists_prints_iff hv).mp ⟨_, (outOfBounds_eq_ok hr).1⟩

/-- The heap a call leaves does not depend on the depth. -/
theorem heap_unique {depth' : Nat} {r' : NativeResult} {h'' : ArrayHeap}
    (hr : call.run host depth h = .ok (r, h')) (hr' : call.run host depth' h = .ok (r', h'')) :
    h' = h'' := by
  cases call with
  | new args =>
      cases hr.symm.trans hr'
      rfl
  | get id index =>
      have hsame {depth : Nat} {r : NativeResult} {h' : ArrayHeap}
          (hr : (Call.get id index).run host depth h = .ok (r, h')) : h' = h := by
        rcases ha : h.arrays[id]? with - | a
        · rw [run_get_none ha] at hr
          cases hr
        rw [run_get ha] at hr
        by_cases hgt : index.toNat > a.capacity
        · rw [if_pos hgt] at hr
          exact (outOfBounds_eq_ok hr).2.2
        · rw [if_neg hgt] at hr
          rcases hget : a.get h index.toNat with e | v
          · rw [hget] at hr
            cases hr
          · rw [hget] at hr
            cases hr
            rfl
      rw [hsame hr, hsame hr']
  | set id index value =>
      rcases ha : h.arrays[id]? with - | a
      · rw [run_set_none ha] at hr
        cases hr
      rw [run_set ha] at hr hr'
      by_cases hgt : index.toNat > a.capacity
      · rw [if_pos hgt] at hr hr'
        rw [(outOfBounds_eq_ok hr).2.2, (outOfBounds_eq_ok hr').2.2]
      · rw [if_neg hgt] at hr hr'
        cases hr.symm.trans hr'
        rfl

end Step

/-! ### Runs of calls -/

section Runs

variable {host : Host} {depth : Nat} {h' : ArrayHeap} {call : Call} {calls : List Call}
  {rs : List NativeResult}

theorem runAll_cons {r : NativeResult} (hr : call.run host depth h = .ok (r, h')) :
    runAll host depth (call :: calls) h
      = (fun p => (r :: p.1, p.2)) <$> runAll host depth calls h' := by
  rw [runAll, hr]
  rfl

/-- Calls that are within their arrays are answered as lists answer them. -/
theorem runAll_answered (hv : Valid h) (hw : (contents h).AllWithin calls) :
    ∃ n, ∀ depth, n ≤ depth → ∃ rs h', runAll host depth calls h = .ok (rs, h') ∧
      rs.map response = ((contents h).respondAll calls).1 ∧
      contents h' = ((contents h).respondAll calls).2 ∧
      (∀ w, IsSlot h w → IsSlot h' w) ∧ ∀ w, ¬ IsSlot h' w → h'.words w = h.words w := by
  induction calls generalizing h with
  | nil => exact ⟨0, fun depth _ => ⟨[], h, rfl, rfl, rfl, fun _ hw => hw, fun _ _ => rfl⟩⟩
  | cons call calls ih =>
      obtain ⟨n, hn⟩ := @runs h host call hv hw.1
      obtain ⟨r₀, h₀, hr₀⟩ := hn n (Nat.le_refl n)
      have hans₀ := answered hv hw.1 hr₀
      obtain ⟨m, hm⟩ := ih hans₀.valid (by rw [hans₀.contents]; exact hw.2)
      refine ⟨max n m, fun depth hd => ?_⟩
      obtain ⟨r, h₁, hr⟩ := hn depth ((Nat.le_max_left n m).trans hd)
      obtain rfl := heap_unique hr₀ hr
      have hans := answered hv hw.1 hr
      obtain ⟨rs, h', hrs, hresp, hcont, hslots, hkept⟩ :=
        hm depth ((Nat.le_max_right n m).trans hd)
      rw [hans.contents] at hresp hcont
      refine ⟨r :: rs, h', by rw [runAll_cons hr, hrs]; rfl, ?_, hcont,
        fun w hw => hslots w (hans.slots w hw), ?_⟩
      · rw [List.map_cons, hresp, hans.response]
        rfl
      · intro w hw
        rw [hkept w hw, hans.kept w fun hslot => hw (hslots w hslot)]

/-- Calls that are answered as lists answer them are within their arrays. -/
theorem allWithin_of_responses (hv : Valid h) (hr : runAll host depth calls h = .ok (rs, h'))
    (hresp : rs.map response = ((contents h).respondAll calls).1) :
    (contents h).AllWithin calls := by
  induction calls generalizing h rs with
  | nil => trivial
  | cons call calls ih =>
      rcases hcall : call.run host depth h with e | ⟨r, h₁⟩
      · rw [runAll, hcall] at hr
        cases hr
      rw [runAll_cons hcall] at hr
      rcases hrest : runAll host depth calls h₁ with e | ⟨rs', h₂⟩
      · rw [hrest] at hr
        cases hr
      rw [hrest] at hr
      cases hr
      rw [List.map_cons, Contents.respondAll] at hresp
      obtain ⟨hhead, htail⟩ := List.cons.inj hresp
      have hw := within_of_response hv hcall hhead
      have hans := answered hv hw hcall
      refine ⟨hw, ?_⟩
      rw [← hans.contents]
      exact ih hans.valid hrest (by rw [htail, hans.contents])

end Runs

/-- A heap without arrays. -/
def noArrays : ArrayHeap := { words := fun _ => .other }

theorem valid_noArrays : Valid noArrays := by
  refine ⟨by simp [noArrays], List.Pairwise.nil, ?_⟩
  rintro w ⟨a, ha, -⟩
  cases ha

end Arrays

end Gel
