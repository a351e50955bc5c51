import Gel.LocalScope

/-!
# Heap — the new zone and the objects in it

A `Pointer` is the header in front of an object: its size, whether it is remembered, and the
forwarding address a collection leaves in it.  `Contents` are the fields of an object that hold
other objects, which the source writes as `Pointer*`, as `Object*` or as a `uword`; here they are
the address of a header in each case.  Variables and scopes are allocated outside of the heap.
-/

namespace Gel

/-- The address of a `Pointer`; 0 is `UNALLOCATED` and null. -/
abbrev HeapAddress := Nat

/-- `sizeof(Pointer)`: the tag and the forwarding address. -/
def sizeofPointer : Nat := 16

/-- What the fields of an object refer to. -/
inductive Contents where
  /-- `parent_`, `name_`, `funcs_` and `fields_` of a `Class`. -/
  | cls (parent name : HeapAddress) (funcs fields : List HeapAddress)
  /-- `name_`, `scope_`, `namespaces_`, `macros_`, `init_` and the field `initialized` of a
  `Module`. -/
  | module (name : HeapAddress) (scope : ScopeId) (namespaces macros : List HeapAddress)
      (init initialized : HeapAddress)
  /-- `message_` of an `Error`. -/
  | error (message : HeapAddress)
  /-- Any other object. -/
  | other (slots : List HeapAddress) (scope : Option ScopeId)
  deriving DecidableEq, Repr

namespace Contents

def slots : Contents → List HeapAddress
  | cls parent name funcs fields => parent :: name :: (funcs ++ fields)
  | module name _ namespaces macros init initialized =>
      name :: init :: initialized :: (namespaces ++ macros)
  | error message => [message]
  | other slots _ => slots

def scope : Contents → Option ScopeId
  | module _ scope _ _ _ _ => some scope
  | other _ scope => scope
  | _ => none

/-- The same object with other addresses in its fields. -/
def map (f : HeapAddress → HeapAddress) : Contents → Contents
  | cls parent name funcs fields => cls (f parent) (f name) (funcs.map f) (fields.map f)
  | module name scope namespaces macros init initialized =>
      module (f name) scope (namespaces.map f) (macros.map f) (f init) (f initialized)
  | error message => error (f message)
  | other slots scope => other (slots.map f) scope

end Contents

/-- `Pointer`: of the tag, the size and the remembered bit. -/
structure Header where
  size : Nat
  remembered : Bool := false
  forwarding : HeapAddress := 0
  object : Contents
  deriving DecidableEq, Repr

namespace Header

/-- `GetTotalSize`. -/
def totalSize (x : Header) : Nat := sizeofPointer + x.size

def isForwarding (x : Header) : Bool := x.forwarding != 0

end Header

/-- The new zone, the roots, and the variables of the scopes. -/
structure Heap where
  memory : HeapAddress → Option Header
  fromspace : HeapAddress
  tospace : HeapAddress
  semisize : Nat
  current : HeapAddress
  /-- `classes_` and `modules_`. -/
  classes : List HeapAddress
  modules : List HeapAddress
  /-- `LocalVariable::value_`. -/
  values : List HeapAddress
  scopes : List LocalScope

namespace Heap

/-- `NewZone::SwapSpaces`. -/
def swapSpaces (h : Heap) : Heap := { h with fromspace := h.tospace, tospace := h.fromspace }

def objectAt (h : Heap) (a : HeapAddress) : Option Contents := (h.memory a).map Header.object

def forwardingOf (h : Heap) (a : HeapAddress) : Option HeapAddress := (h.memory a).map Header.forwarding

/-- The variables of a scope and of at most `n` scopes around it. -/
def chainWithin (h : Heap) : Nat → ScopeId → List LocalId
  | 0, _ => []
  | n + 1, s => match h.scopes[s]? with
      | none => []
      | some x => x.locals ++ (match x.parent with
          | none => []
          | some s => h.chainWithin n s)

/-- The variables that `LocalScope::VisitLocalPointers` visits: a chain of parents is no longer than
the number of scopes. -/
def chain (h : Heap) (s : ScopeId) : List LocalId := h.chainWithin h.scopes.length s

/-- What an object refers to, in its fields and in the variables of its scope. -/
def refs (h : Heap) (x : Contents) : List HeapAddress :=
  x.slots ++ (match x.scope with
    | none => []
    | some s => (h.chain s).filterMap fun l => h.values[l]?)

/-- The objects that the roots lead to. -/
inductive Reaches (h : Heap) : HeapAddress → Prop where
  | cls {a : HeapAddress} (ha : a ∈ h.classes) : Reaches h a
  | module {a : HeapAddress} (ha : a ∈ h.modules) : Reaches h a
  | ref {a b : HeapAddress} {x : Contents} (ha : Reaches h a) (hx : h.objectAt a = some x)
      (hb : b ∈ h.refs x) (hne : b ≠ 0) : Reaches h b

/-- The semispace that a collection copies to. -/
def InTarget (h : Heap) (a : HeapAddress) : Prop := h.tospace ≤ a ∧ a < h.tospace + h.semisize

/-- The roots are classes and modules, which have a name, and no live object is in the semispace
that is not in use. -/
structure Valid (h : Heap) : Prop where
  classes : ∀ a ∈ h.classes, ∃ parent name funcs fields,
    h.objectAt a = some (.cls parent name funcs fields) ∧ name ≠ 0
  modules : ∀ a ∈ h.modules, ∃ name scope namespaces macros init initialized,
    h.objectAt a = some (.module name scope namespaces macros init initialized) ∧ name ≠ 0
  live : ∀ a, h.Reaches a → ¬h.InTarget a

/-- After a collection the live objects are the same graph, each of them copied once to the
semispace in use, where nothing else is. -/
def Preserved (h h' : Heap) : Prop :=
  (∃ f : HeapAddress → HeapAddress, f 0 = 0 ∧
    (∀ a b, h.Reaches a → h.Reaches b → f a = f b → a = b) ∧
    h'.classes = h.classes.map f ∧ h'.modules = h.modules.map f ∧
    (∀ a x, h.Reaches a → h.objectAt a = some x → h'.objectAt (f a) = some (x.map f) ∧
      ∀ s ∈ x.scope, h'.chain s = h.chain s ∧
        ∀ l ∈ h.chain s, h'.values[l]? = h.values[l]?.map f) ∧
    ∀ b, h'.fromspace ≤ b → b < h'.current → (h'.memory b).isSome → ∃ a, h.Reaches a ∧ f a = b) ∧
  ∀ a, h'.Reaches a → h'.fromspace ≤ a ∧ a < h'.current

end Heap

end Gel
