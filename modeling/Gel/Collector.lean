import Gel.Heap
import Gel.Support.Partial
import Mathlib.Order.Nat

/-!
# Collector — a minor collection

`Collector::Collect` copies the roots to the other semispace, goes through the copies, and stores
the new addresses of the roots.  `Process` leaves the slot it is given as it was, and only a
`Module` and an `Error` have slots to give: a copy refers to what its original referred to
(`Steps`, `visitPointers_steps`), so the live objects are the same graph in the new semispace only
when there is no root at all (`collect_preserves_iff`).
-/

namespace Gel

namespace Heap

/-- `Pointer::Copy` writes over what is at the new address. -/
def write (h : Heap) (a : HeapAddress) (x : Header) : Heap :=
  { h with memory := fun b => if b = a then some x
      else if a < b ∧ b < a + x.totalSize then none else h.memory b }

def modifyHeader (h : Heap) (a : HeapAddress) (f : Header → Header) : Heap :=
  { h with memory := fun b => if b = a then (h.memory b).map f else h.memory b }

end Heap

/-- `Collector`: the heap and `next_address_`. -/
structure Collector where
  heap : Heap
  nextAddress : HeapAddress

/-- A step of a collection; it crashes where it follows a null pointer. -/
abbrev Collecting := StateT Collector Option

namespace Collector

/-- `CopyPointer`: null when there is no room. -/
def copyPointer (ptr : HeapAddress) : Collecting HeapAddress := do
  let c ← get
  let x ← c.heap.memory ptr
  if c.heap.fromspace + c.heap.semisize ≤ c.nextAddress + x.totalSize then return 0
  set { heap := c.heap.write c.nextAddress { x with forwarding := 0 },
        nextAddress := c.nextAddress + x.totalSize : Collector }
  return c.nextAddress

/-- `Process`. -/
def process (oldPtr : HeapAddress) : Collecting Unit := do
  let newPtr ← copyPointer oldPtr
  if newPtr = 0 then failure
  modify fun c => { c with heap := c.heap.modifyHeader newPtr fun x => { x with remembered := true } }
  modify fun c => { c with heap := c.heap.modifyHeader oldPtr fun x => { x with forwarding := newPtr } }

/-- `Visit`: what is in the slot afterwards. -/
def visit (ptr : HeapAddress) : Collecting HeapAddress := do
  if ptr = 0 then failure
  let x ← (← get).heap.memory ptr
  if x.isForwarding then return ptr
  process ptr
  return ptr

def visitAll : List HeapAddress → Collecting (List HeapAddress)
  | [] => return []
  | a :: as => return (← visit a) :: (← visitAll as)

/-- `LocalVariable::Accept` of each variable. -/
def visitLocals : List LocalId → Collecting Unit
  | [] => return ()
  | l :: ls => do
      let value ← (← get).heap.values[l]?
      let value ← visit value
      modify fun c => { c with heap := { c.heap with values := c.heap.values.set l value } }
      visitLocals ls

def setObject (a : HeapAddress) (x : Contents) : Collecting Unit :=
  modify fun c => { c with heap := c.heap.modifyHeader a fun y => { y with object := x } }

/-- `VisitPointers` of the object behind a header.  `Class` logs that it is not implemented, and
every class but `Module` and `Error` has the method of `Object`, which does nothing. -/
def visitPointers (a : HeapAddress) : Collecting Unit := do
  match ← (← get).heap.objectAt a with
  | .module name scope namespaces macros init initialized => do
      let name ← visit name
      visitLocals ((← get).heap.chain scope)
      let namespaces ← visitAll namespaces
      setObject a (.module name scope namespaces macros init initialized)
  | .error message => do
      let message ← visit message
      setObject a (.error message)
  | .cls .. | .other .. => return ()

/-- `ProcessRoots`. -/
def processRoots : List HeapAddress → Collecting Unit
  | [] => return ()
  | a :: as => do
      process a
      processRoots as

/-- `ProcessFromspace` from `curr_address_` on.  Each round moves it by a header at least, so that
the size of the semispace bounds their number. -/
def processFromspace : Nat → HeapAddress → Collecting Unit
  | 0, _ => failure
  | k + 1, curr => do
      if (← get).nextAddress ≤ curr then return ()
      visitPointers curr
      let x ← (← get).heap.memory curr
      processFromspace k (curr + x.totalSize)

/-- `NotifyRoots`: each root becomes its forwarding address. -/
def notifyRoots (h : Heap) : Option Heap := do
  let classes ← h.classes.mapM h.forwardingOf
  let modules ← h.modules.mapM h.forwardingOf
  return { h with classes, modules }

end Collector

open Collector

/-- `Collect`. -/
def Heap.collect (h : Heap) : Option Heap := do
  let h := h.swapSpaces
  let run : Collecting Unit := do
    processRoots (h.classes ++ h.modules)
    processFromspace (h.semisize + 1) h.fromspace
  let (_, c) ← run ⟨h, h.fromspace⟩
  let h ← notifyRoots c.heap
  return { h with current := c.nextAddress }

namespace Collector

/-- The part of the new semispace that is not in use yet. -/
def Free (c : Collector) (a : HeapAddress) : Prop :=
  c.nextAddress ≤ a ∧ a < c.heap.fromspace + c.heap.semisize

/-- An object has been copied since `c`, and the copy refers to what the original refers to. -/
def Copied (c c' : Collector) (a : HeapAddress) : Prop :=
  ∃ f, c'.heap.forwardingOf a = some f ∧ c.nextAddress ≤ f ∧ f < c'.nextAddress ∧
    c'.heap.objectAt f = c.heap.objectAt a

/-- What the steps of a collection do: they copy objects to the free part, and change nothing in an
object but where it is forwarded to. -/
structure Steps (c c' : Collector) : Prop where
  fromspace : c'.heap.fromspace = c.heap.fromspace
  semisize : c'.heap.semisize = c.heap.semisize
  classes : c'.heap.classes = c.heap.classes
  modules : c'.heap.modules = c.heap.modules
  next : c.nextAddress ≤ c'.nextAddress
  room : c.nextAddress ≤ c.heap.fromspace + c.heap.semisize →
    c'.nextAddress ≤ c.heap.fromspace + c.heap.semisize
  objects : ∀ a, ¬c.Free a → c'.heap.objectAt a = c.heap.objectAt a
  forwarding : ∀ a, ¬c.Free a →
    c'.heap.forwardingOf a = c.heap.forwardingOf a ∨ Copied c c' a

section Steps

variable {c c' c₁ c₂ : Collector} {a : HeapAddress}

theorem Steps.refl (c : Collector) : Steps c c :=
  ⟨rfl, rfl, rfl, rfl, le_rfl, id, fun _ _ => rfl, fun _ _ => .inl rfl⟩

theorem Steps.not_free (h : Steps c c') (ha : ¬c.Free a) : ¬c'.Free a := by
  rintro ⟨hle, hlt⟩
  rw [h.fromspace, h.semisize] at hlt
  exact ha ⟨h.next.trans hle, hlt⟩

theorem Copied.not_free {f : HeapAddress} (h : f < c.nextAddress) : ¬c.Free f :=
  fun hf => absurd hf.1 (Nat.not_le_of_lt h)

/-- What is copied stays copied. -/
theorem Copied.steps (h : Copied c c₁ a) (hs : Steps c₁ c₂) (h₁ : Steps c c₁) (ha : ¬c.Free a) :
    Copied c c₂ a := by
  obtain ⟨f, hf, hle, hlt, hobj⟩ := h
  rcases hs.forwarding a (h₁.not_free ha) with hsame | ⟨f', hf', hle', hlt', hobj'⟩
  · refine ⟨f, hsame.trans hf, hle, hlt.trans_le hs.next, ?_⟩
    rw [hs.objects f (Copied.not_free hlt), hobj]
  · refine ⟨f', hf', h₁.next.trans hle', hlt', ?_⟩
    rw [hobj', h₁.objects a ha]

theorem Steps.trans (h : Steps c c₁) (h' : Steps c₁ c₂) : Steps c c₂ where
  fromspace := h'.fromspace.trans h.fromspace
  semisize := h'.semisize.trans h.semisize
  classes := h'.classes.trans h.classes
  modules := h'.modules.trans h.modules
  next := h.next.trans h'.next
  room hc := by
    have := h'.room (by rw [h.fromspace, h.semisize]; exact h.room hc)
    rwa [h.fromspace, h.semisize] at this
  objects a ha := (h'.objects a (h.not_free ha)).trans (h.objects a ha)
  forwarding a ha := by
    rcases h.forwarding a ha with hsame | hcopied
    · rcases h'.forwarding a (h.not_free ha) with hsame' | ⟨f, hf, hle, hlt, hobj⟩
      · exact .inl (hsame'.trans hsame)
      · exact .inr ⟨f, hf, h.next.trans hle, hlt, hobj.trans (h.objects a ha)⟩
    · exact .inr (hcopied.steps h' h ha)

end Steps

/-! ### The steps of a collection -/

section Heap

variable {h : Heap} {a b : HeapAddress} {x : Header} {f : Header → Header}

theorem objectAt_write (hb : ¬(a ≤ b ∧ b < a + x.totalSize)) (hx : 0 < x.totalSize) :
    (h.write a x).memory b = h.memory b := by
  have hne : b ≠ a := by
    rintro rfl
    exact hb ⟨le_rfl, Nat.lt_add_of_pos_right hx⟩
  have hnot : ¬(a < b ∧ b < a + x.totalSize) := fun hlt => hb ⟨hlt.1.le, hlt.2⟩
  simp [Heap.write, hne, hnot]

theorem memory_write_self : (h.write a x).memory a = some x := if_pos rfl

theorem memory_modifyHeader_self : (h.modifyHeader a f).memory a = (h.memory a).map f := if_pos rfl

theorem memory_modifyHeader_ne (hb : b ≠ a) : (h.modifyHeader a f).memory b = h.memory b :=
  if_neg hb

/-- A change of the header changes no object. -/
theorem objectAt_modifyHeader (hf : ∀ y, (f y).object = y.object) :
    (h.modifyHeader a f).objectAt b = h.objectAt b := by
  by_cases hb : b = a
  · subst hb
    rw [Heap.objectAt, Heap.objectAt, memory_modifyHeader_self]
    cases h.memory b <;> simp [hf]
  · rw [Heap.objectAt, Heap.objectAt, memory_modifyHeader_ne hb]

theorem forwardingOf_modifyHeader (hf : ∀ y, (f y).forwarding = y.forwarding) :
    (h.modifyHeader a f).forwardingOf b = h.forwardingOf b := by
  by_cases hb : b = a
  · subst hb
    rw [Heap.forwardingOf, Heap.forwardingOf, memory_modifyHeader_self]
    cases h.memory b <;> simp [hf]
  · rw [Heap.forwardingOf, Heap.forwardingOf, memory_modifyHeader_ne hb]

end Heap

theorem totalSize_pos (x : Header) : 0 < x.totalSize := Nat.lt_add_right _ (by decide)

/-- What `Process` does to a heap that has room for the copy. -/
def processed (c : Collector) (a : HeapAddress) (x : Header) : Collector where
  heap := ((c.heap.write c.nextAddress { x with forwarding := 0 }).modifyHeader c.nextAddress
    fun y => { y with remembered := true }).modifyHeader a
      fun y => { y with forwarding := c.nextAddress }
  nextAddress := c.nextAddress + x.totalSize

theorem process_eq_some {c : Collector} {a : HeapAddress} {r : PUnit × Collector}
    (h : process a c = some r) : ∃ x, c.heap.memory a = some x ∧
      c.nextAddress + x.totalSize < c.heap.fromspace + c.heap.semisize ∧
      r = ((), processed c a x) := by
  obtain ⟨new, c₁, hcopy, h⟩ := Partial.bind_eq_some.mp h
  rw [copyPointer, Partial.get_bind] at hcopy
  obtain ⟨x, hx, hcopy⟩ := Partial.lift_bind_eq_some.mp hcopy
  by_cases hroom : c.heap.fromspace + c.heap.semisize ≤ c.nextAddress + x.totalSize
  · rw [if_pos hroom] at hcopy
    cases hcopy
    cases h
  · rw [if_neg hroom] at hcopy
    cases hcopy
    by_cases hnew : c.nextAddress = 0
    · rw [if_pos hnew] at h
      cases h
    · rw [if_neg hnew] at h
      cases h
      exact ⟨x, hx, Nat.lt_of_not_le hroom, rfl⟩

section Processed

variable {c : Collector} {a b : HeapAddress} {x : Header}

theorem processed_objectAt (hroom : c.nextAddress + x.totalSize < c.heap.fromspace + c.heap.semisize)
    (hb : ¬c.Free b) : (processed c a x).heap.objectAt b = c.heap.objectAt b := by
  have hout : ¬(c.nextAddress ≤ b ∧ b < c.nextAddress + x.totalSize) := fun h =>
    hb ⟨h.1, h.2.trans hroom⟩
  rw [processed, objectAt_modifyHeader, objectAt_modifyHeader]
  · exact congrArg (Option.map Header.object) (objectAt_write hout (totalSize_pos x))
  · exact fun _ => rfl
  · exact fun _ => rfl

theorem processed_copied (hx : c.heap.memory a = some x)
    (hroom : c.nextAddress + x.totalSize < c.heap.fromspace + c.heap.semisize) (ha : ¬c.Free a) :
    Copied c (processed c a x) a := by
  have hpos := totalSize_pos x
  have hne : c.nextAddress ≠ a := by
    rintro rfl
    exact ha ⟨le_rfl, (Nat.lt_add_of_pos_right hpos).trans hroom⟩
  have hout : ¬(c.nextAddress ≤ a ∧ a < c.nextAddress + x.totalSize) := fun h =>
    ha ⟨h.1, h.2.trans hroom⟩
  refine ⟨c.nextAddress, ?_, le_rfl, Nat.lt_add_of_pos_right hpos, ?_⟩
  · rw [processed, Heap.forwardingOf, memory_modifyHeader_self, memory_modifyHeader_ne hne.symm]
    have hsame := objectAt_write (h := c.heap) (b := a) (x := { x with forwarding := 0 }) hout hpos
    rw [hsame, hx]
    rfl
  · rw [processed, objectAt_modifyHeader, objectAt_modifyHeader, Heap.objectAt, memory_write_self,
      Heap.objectAt, hx]
    · rfl
    · exact fun _ => rfl
    · exact fun _ => rfl

theorem processed_steps (hx : c.heap.memory a = some x)
    (hroom : c.nextAddress + x.totalSize < c.heap.fromspace + c.heap.semisize) :
    Steps c (processed c a x) where
  fromspace := rfl
  semisize := rfl
  classes := rfl
  modules := rfl
  next := Nat.le_add_right _ _
  room _ := hroom.le
  objects _ hb := processed_objectAt hroom hb
  forwarding b hb := by
    by_cases hba : b = a
    · subst hba
      exact .inr (processed_copied hx hroom hb)
    · have hout : ¬(c.nextAddress ≤ b ∧ b < c.nextAddress + x.totalSize) := fun h =>
        hb ⟨h.1, h.2.trans hroom⟩
      refine .inl ?_
      rw [processed, Heap.forwardingOf, memory_modifyHeader_ne hba]
      have hsame := objectAt_write (h := c.heap) (x := { x with forwarding := 0 }) hout
        (totalSize_pos x)
      refine Eq.trans (forwardingOf_modifyHeader ?_) (congrArg (Option.map Header.forwarding) hsame)
      exact fun _ => rfl

end Processed

section Runs

variable {c c' : Collector} {a : HeapAddress}

theorem process_steps {u : Unit} (h : process a c = some (u, c')) : Steps c c' := by
  obtain ⟨x, hx, hroom, hr⟩ := process_eq_some h
  cases hr
  exact processed_steps hx hroom

theorem process_copied {u : Unit} (h : process a c = some (u, c')) (ha : ¬c.Free a) :
    Copied c c' a := by
  obtain ⟨x, hx, hroom, hr⟩ := process_eq_some h
  cases hr
  exact processed_copied hx hroom ha

/-- `Visit` leaves its slot alone. -/
theorem visit_steps {b : HeapAddress} (h : visit a c = some (b, c')) : b = a ∧ Steps c c' := by
  rw [visit] at h
  by_cases ha : a = 0
  · rw [if_pos ha] at h
    cases h
  · rw [if_neg ha] at h
    simp only [Partial.get_bind] at h
    obtain ⟨x, -, h⟩ := Partial.lift_bind_eq_some.mp h
    cases hf : x.isForwarding with
    | true =>
        rw [if_pos hf] at h
        cases h
        exact ⟨rfl, .refl _⟩
    | false =>
        rw [hf] at h
        obtain ⟨u, c₂, hp, h⟩ := Partial.bind_eq_some.mp h
        cases h
        exact ⟨rfl, process_steps hp⟩

theorem visitAll_steps {as bs : List HeapAddress} (h : visitAll as c = some (bs, c')) :
    bs = as ∧ Steps c c' := by
  induction as generalizing c bs with
  | nil =>
      cases h
      exact ⟨rfl, .refl _⟩
  | cons a as ih =>
      simp only [visitAll, Partial.bind_eq_some, Partial.pure_run] at h
      obtain ⟨b, c₁, hb, bs, c₂, hbs, hr⟩ := h
      cases hr
      obtain ⟨rfl, h₁⟩ := visit_steps hb
      obtain ⟨rfl, h₂⟩ := ih hbs
      exact ⟨rfl, h₁.trans h₂⟩

theorem visitLocals_steps {ls : List LocalId} {u : Unit} (h : visitLocals ls c = some (u, c')) :
    Steps c c' := by
  induction ls generalizing c with
  | nil =>
      cases h
      exact .refl _
  | cons l ls ih =>
      rw [visitLocals, Partial.get_bind] at h
      obtain ⟨value, -, h⟩ := Partial.lift_bind_eq_some.mp h
      obtain ⟨b, c₂, hb, h⟩ := Partial.bind_eq_some.mp h
      obtain ⟨-, h₁⟩ := visit_steps hb
      refine h₁.trans (.trans ?_ (ih h))
      exact ⟨rfl, rfl, rfl, rfl, le_rfl, id, fun _ _ => rfl, fun _ _ => .inl rfl⟩

/-- An object that is stored again is what it was. -/
theorem setObject_steps {x : Contents} {u : Unit} (hx : c.heap.objectAt a = some x)
    (h : setObject a x c = some (u, c')) : Steps c c' := by
  cases h
  refine ⟨rfl, rfl, rfl, rfl, le_rfl, id, fun b _ => ?_, fun b _ => .inl ?_⟩
  · by_cases hb : b = a
    · subst hb
      rw [Heap.objectAt, memory_modifyHeader_self]
      rw [Heap.objectAt] at hx ⊢
      cases hm : c.heap.memory b with
      | none => rfl
      | some y =>
          rw [hm] at hx
          exact hx.symm
    · rw [Heap.objectAt, Heap.objectAt, memory_modifyHeader_ne hb]
  · exact forwardingOf_modifyHeader fun _ => rfl

/-- The slots of an object that has been copied are visited and keep what they hold. -/
theorem visitPointers_steps {u : Unit} (ha : ¬c.Free a) (h : visitPointers a c = some (u, c')) :
    Steps c c' := by
  rw [visitPointers, Partial.get_bind] at h
  obtain ⟨x, hx, h⟩ := Partial.lift_bind_eq_some.mp h
  cases x with
  | module name scope namespaces macros init initialized =>
      obtain ⟨name', c₁, hname, h⟩ := Partial.bind_eq_some.mp h
      obtain ⟨hname', h₁⟩ := visit_steps hname
      rw [Partial.get_bind] at h
      obtain ⟨u₂, c₂, hlocals, h⟩ := Partial.bind_eq_some.mp h
      have h₂ := h₁.trans (visitLocals_steps hlocals)
      obtain ⟨namespaces', c₃, hnamespaces, h⟩ := Partial.bind_eq_some.mp h
      obtain ⟨hnamespaces', h₃⟩ := visitAll_steps hnamespaces
      have h₃ := h₂.trans h₃
      rw [hname', hnamespaces'] at h
      exact h₃.trans (setObject_steps ((h₃.objects a ha).trans hx) h)
  | error message =>
      obtain ⟨message', c₁, hmessage, h⟩ := Partial.bind_eq_some.mp h
      obtain ⟨hmessage', h₁⟩ := visit_steps hmessage
      rw [hmessage'] at h
      exact h₁.trans (setObject_steps ((h₁.objects a ha).trans hx) h)
  | cls | other =>
      cases h
      exact .refl _

theorem processFromspace_steps {k : Nat} {curr : HeapAddress} {u : Unit}
    (h : processFromspace k curr c = some (u, c')) : Steps c c' := by
  induction k generalizing c curr with
  | zero => cases h
  | succ k ih =>
      rw [processFromspace, Partial.get_bind] at h
      by_cases hle : c.nextAddress ≤ curr
      · rw [if_pos hle] at h
        cases h
        exact .refl _
      · rw [if_neg hle] at h
        obtain ⟨u₁, c₁, hv, h⟩ := Partial.bind_eq_some.mp h
        have h₁ := visitPointers_steps (fun hf => hle hf.1) hv
        rw [Partial.get_bind] at h
        obtain ⟨x, -, h⟩ := Partial.lift_bind_eq_some.mp h
        exact h₁.trans (ih h)

/-- The roots are copied. -/
theorem processRoots_copied {as : List HeapAddress} {u : Unit} (h : processRoots as c = some (u, c')) :
    Steps c c' ∧ ∀ a ∈ as, ¬c.Free a → Copied c c' a := by
  induction as generalizing c with
  | nil =>
      cases h
      exact ⟨.refl _, nofun⟩
  | cons a as ih =>
      obtain ⟨u₁, c₁, hp, h⟩ := Partial.bind_eq_some.mp h
      have h₁ := process_steps hp
      obtain ⟨h₂, hrest⟩ := ih h
      refine ⟨h₁.trans h₂, fun b hb hfree => ?_⟩
      rcases List.mem_cons.mp hb with rfl | hb
      · exact (process_copied hp hfree).steps h₂ h₁ hfree
      · obtain ⟨f, hf, hle, hlt, hobj⟩ := hrest b hb (h₁.not_free hfree)
        exact ⟨f, hf, h₁.next.trans hle, hlt, hobj.trans (h₁.objects b hfree)⟩

end Runs

theorem exists_of_mapM {α β : Type} {f : α → Option β} {l : List α} {l' : List β}
    (h : l.mapM f = some l') {a : α} (ha : a ∈ l) : ∃ b ∈ l', f a = some b := by
  induction l generalizing l' with
  | nil => cases ha
  | cons x l ih =>
      simp only [List.mapM_cons, Option.bind_eq_bind, Option.bind_eq_some_iff, Option.pure_def,
        Option.some.injEq] at h
      obtain ⟨b, hb, bs, hbs, rfl⟩ := h
      rcases List.mem_cons.mp ha with rfl | ha
      · exact ⟨b, List.mem_cons_self, hb⟩
      · obtain ⟨b', hb', hf⟩ := ih hbs ha
        exact ⟨b', List.mem_cons_of_mem _ hb', hf⟩

end Collector

namespace Heap

variable {h h' : Heap} {a : HeapAddress}

/-- What a collection leaves of a root: a copy in the new semispace that refers to what the root
referred to. -/
structure RootCopied (h h' : Heap) (a b : HeapAddress) : Prop where
  object : h'.objectAt b = h.objectAt a
  lower : h.tospace ≤ b
  upper : b < h'.current

theorem collect_root (hc : h.collect = some h') :
    h'.fromspace = h.tospace ∧ h'.current ≤ h.tospace + h.semisize ∧
    (∀ a ∈ h.classes, ¬h.InTarget a → ∃ b ∈ h'.classes, RootCopied h h' a b) ∧
    ∀ a ∈ h.modules, ¬h.InTarget a → ∃ b ∈ h'.modules, RootCopied h h' a b := by
  simp only [collect, notifyRoots, Option.bind_eq_bind, Option.bind_eq_some_iff, Option.pure_def,
    Option.some.injEq] at hc
  obtain ⟨⟨u, c⟩, hrun, h₁, ⟨classes, hclasses, modules, hmodules, rfl⟩, rfl⟩ := hc
  obtain ⟨u₁, c₁, hroots, hfrom⟩ := Partial.bind_eq_some.mp hrun
  obtain ⟨hsteps, hcopied⟩ := processRoots_copied hroots
  have hsteps' := processFromspace_steps hfrom
  have hall := hsteps.trans hsteps'
  have hroot : ∀ a ∈ h.classes ++ h.modules, ¬h.InTarget a → ∀ b,
      c.heap.forwardingOf a = some b → RootCopied h
        { c.heap with classes, modules, current := c.nextAddress } a b := by
    intro a ha hout b hb
    obtain ⟨f, hf, hle, hlt, hobj⟩ := (hcopied a ha hout).steps hsteps' hsteps hout
    obtain rfl : f = b := Option.some.inj (hf.symm.trans hb)
    exact ⟨hobj, hle, hlt⟩
  refine ⟨hall.fromspace, ?_, fun a ha hout => ?_, fun a ha hout => ?_⟩
  · exact hall.room (Nat.le_add_right _ _)
  · rw [hall.classes] at hclasses
    obtain ⟨b, hb, hf⟩ := exists_of_mapM hclasses ha
    exact ⟨b, hb, hroot a (List.mem_append_left _ ha) hout b hf⟩
  · rw [hall.modules] at hmodules
    obtain ⟨b, hb, hf⟩ := exists_of_mapM hmodules ha
    exact ⟨b, hb, hroot a (List.mem_append_right _ ha) hout b hf⟩

/-- The name of a root is where it was. -/
theorem no_root_of_preserved (hv : h.Valid) (hc : h.collect = some h') (hp : Preserved h h') :
    h.classes = [] ∧ h.modules = [] := by
  obtain ⟨hfrom, hcurrent, hclasses, hmodules⟩ := collect_root hc
  have hname : ∀ {a b name x}, h.Reaches a → h.objectAt a = some x → h'.Reaches b →
      RootCopied h h' a b → name ∈ x.slots → name ≠ 0 → False := by
    intro a b name x ha hx hb hcopied hmem hne
    have hlive : h.Reaches name := .ref ha hx (List.mem_append_left _ hmem) hne
    have hcopy : h'.objectAt b = some x := hcopied.object.trans hx
    obtain ⟨hle, hlt⟩ := hp.2 name (.ref hb hcopy (List.mem_append_left _ hmem) hne)
    rw [hfrom] at hle
    exact hv.live name hlive ⟨hle, hlt.trans_le hcurrent⟩
  refine ⟨List.eq_nil_iff_forall_not_mem.mpr fun a ha => ?_,
    List.eq_nil_iff_forall_not_mem.mpr fun a ha => ?_⟩
  · obtain ⟨parent, name, funcs, fields, hx, hne⟩ := hv.classes a ha
    obtain ⟨b, hb, hcopied⟩ := hclasses a ha (hv.live a (.cls ha))
    exact hname (.cls ha) hx (.cls hb) hcopied (by simp [Contents.slots]) hne
  · obtain ⟨name, scope, namespaces, macros, init, initialized, hx, hne⟩ := hv.modules a ha
    obtain ⟨b, hb, hcopied⟩ := hmodules a ha (hv.live a (.module ha))
    exact hname (.module ha) hx (.module hb) hcopied (by simp [Contents.slots]) hne

theorem not_reaches (hc : h.classes = []) (hm : h.modules = []) : ¬h.Reaches a := by
  intro ha
  induction ha with
  | cls ha =>
      rw [hc] at ha
      cases ha
  | module ha =>
      rw [hm] at ha
      cases ha
  | ref _ _ _ _ ih => exact ih

/-- Without roots there is nothing to copy. -/
theorem collect_of_no_root (hc : h.classes = []) (hm : h.modules = []) :
    ∃ h', h.collect = some h' ∧ Preserved h h' := by
  have hrun : h.collect = some { h.swapSpaces with current := h.tospace } := by
    obtain ⟨memory, fromspace, tospace, semisize, current, classes, modules, values, scopes⟩ := h
    cases hc
    cases hm
    have hstop : processFromspace (semisize + 1) tospace
        ⟨⟨memory, tospace, fromspace, semisize, current, [], [], values, scopes⟩, tospace⟩
        = some ((), ⟨⟨memory, tospace, fromspace, semisize, current, [], [], values, scopes⟩,
            tospace⟩) := by
      rw [processFromspace, Partial.get_bind, if_pos le_rfl]
      rfl
    simp only [collect, swapSpaces, List.append_nil, processRoots, pure_bind, hstop]
    rfl
  refine ⟨_, hrun, ⟨id, rfl, fun a b ha => absurd ha (not_reaches hc hm), ?_, ?_, ?_, ?_⟩, ?_⟩
  · exact (List.map_id _).symm
  · exact (List.map_id _).symm
  · exact fun a x ha => absurd ha (not_reaches hc hm)
  · exact fun b hle hlt => absurd hle (Nat.not_le_of_lt hlt)
  · exact fun a ha => absurd ha (not_reaches hc hm)

theorem collect_preserves_iff (hv : h.Valid) :
    (∃ h', h.collect = some h' ∧ Preserved h h') ↔ h.classes = [] ∧ h.modules = [] := by
  constructor
  · rintro ⟨h', hc, hp⟩
    exact no_root_of_preserved hv hc hp
  · rintro ⟨hc, hm⟩
    exact collect_of_no_root hc hm

/-- The class `Object` and, before it, its name. -/
def objectHeap : Heap where
  memory a :=
    if a = 4096 then some { size := 40, object := .other [] none }
    else if a = 4152 then some { size := 80, object := .cls 0 4096 [] [] }
    else none
  fromspace := 4096
  tospace := 8192
  semisize := 4096
  current := 4248
  classes := [4152]
  modules := []
  values := []
  scopes := []

theorem objectHeap_reaches (ha : objectHeap.Reaches a) : a = 4096 ∨ a = 4152 := by
  induction ha with
  | cls ha => exact .inr (List.mem_singleton.mp ha)
  | module ha => cases ha
  | ref _ hx hb hne ih =>
      rcases ih with rfl | rfl
      · cases hx
        cases hb
      · cases hx
        simp [refs, Contents.slots, Contents.scope, hne] at hb
        exact .inl hb

theorem objectHeap_valid : objectHeap.Valid where
  classes a ha := by
    obtain rfl := List.mem_singleton.mp ha
    exact ⟨_, _, _, _, rfl, by decide⟩
  modules := nofun
  live a ha := by
    rcases objectHeap_reaches ha with rfl | rfl
    · exact fun h => absurd h.1 (by decide)
    · exact fun h => absurd h.1 (by decide)

theorem collect_preserves_iff_sample :
    ¬∃ h', objectHeap.collect = some h' ∧ Preserved objectHeap h' :=
  fun h => List.cons_ne_nil _ _ ((collect_preserves_iff objectHeap_valid).mp h).1

/-- The copy of `Object` is at 8192, and its name at 4096. -/
theorem not_preserved_object :
    ∃ h', objectHeap.collect = some h' ∧ h'.classes = [8192] ∧
      h'.objectAt 8192 = some (.cls 0 4096 [] []) ∧ h'.fromspace = 8192 ∧
      ¬Preserved objectHeap h' := by
  obtain ⟨h', hc⟩ : ∃ h', objectHeap.collect = some h' := ⟨_, rfl⟩
  refine ⟨h', hc, ?_, ?_, ?_, fun hp => ?_⟩
  · cases hc
    rfl
  · cases hc
    rfl
  · cases hc
    rfl
  · exact List.cons_ne_nil _ _ (no_root_of_preserved objectHeap_valid hc hp).1

end Heap

end Gel
