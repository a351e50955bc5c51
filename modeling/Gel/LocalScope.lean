import Gel.Object

/-!
# LocalScope — variables and the scopes that hold them

`LocalVariable` and `LocalScope` objects are shared by pointer between the parser, the flow graph
builder and the runtime, so they live in a store and are named by their position in it.
A variable's `index` is fixed when it is constructed, from the number of variables its owner had
at that time; where it ends up in a scope's list is a different number.
-/

namespace Gel

/-- A `LocalVariable*`. -/
abbrev LocalId := Nat

/-- A `LocalScope*`. -/
abbrev ScopeId := Nat

structure LocalVariable where
  name : String
  index : UInt64
  value : Option Value := none
  deriving DecidableEq, Repr

/-- `LocalVariable::IsNativeProcedure`: it has a value, and that is a native. -/
def LocalVariable.isNativeProcedure (l : LocalVariable) : Bool :=
  l.value.any Value.isNativeProcedure

structure LocalScope where
  parent : Option ScopeId
  locals : List LocalId
  deriving DecidableEq, Repr

/-- Every variable and every scope allocated so far. -/
structure Scopes where
  locals : List LocalVariable := []
  scopes : List LocalScope := []
  deriving DecidableEq, Repr

namespace Scopes

/-- The variables of a scope; a dangling scope has none. -/
def localsOf (m : Scopes) (s : ScopeId) : List LocalId :=
  (m.scopes[s]?.map LocalScope.locals).getD []

/-- `LocalScope::GetParent`. -/
def parentOf (m : Scopes) (s : ScopeId) : Option ScopeId := m.scopes[s]?.bind LocalScope.parent

/-- `LocalScope::GetNumberOfLocals`. -/
def numberOfLocals (m : Scopes) (s : ScopeId) : Nat := (m.localsOf s).length

/-- `LocalScope::GetLocalAt`; an index past the end reads outside the vector. -/
def getLocalAt (m : Scopes) (s : ScopeId) (idx : Nat) : Option LocalId := (m.localsOf s)[idx]?

/-- `LocalScope::New`. -/
def newScope (m : Scopes) (parent : Option ScopeId) : ScopeId × Scopes :=
  (m.scopes.length, { m with scopes := m.scopes ++ [{ parent := parent, locals := [] }] })

/-- `LocalVariable::New(owner, name, value)`: the index is the number of variables `owner` has
now. -/
def newLocal (m : Scopes) (owner : ScopeId) (name : String) (value : Option Value := none) :
    LocalId × Scopes :=
  (m.locals.length,
    { m with locals := m.locals ++ [{ name, index := .ofNat (m.numberOfLocals owner), value }] })

/-- `LocalVariable::SetValue`. -/
def setValue (m : Scopes) (l : LocalId) (v : Option Value) : Scopes :=
  { m with locals := m.locals.modify l fun x => { x with value := v } }

/-- `LocalScope::Lookup` without recursion. -/
def lookupHere (m : Scopes) (s : ScopeId) (name : String) : Option LocalId :=
  (m.localsOf s).find? fun l => m.locals[l]?.any fun x => x.name == name

/-- `LocalScope::Has` without recursion. -/
def has (m : Scopes) (s : ScopeId) (name : String) : Bool := (m.lookupHere s name).isSome

/-- `LocalScope::Lookup` up a chain of at most `n` scopes. -/
def lookupWithin (m : Scopes) (name : String) : Nat → ScopeId → Option LocalId
  | 0, _ => none
  | n + 1, s => match m.lookupHere s name with
      | some l => some l
      | none => (m.parentOf s).bind (m.lookupWithin name n)

/-- `LocalScope::Lookup`: a chain of parents is no longer than the number of scopes. -/
def lookup (m : Scopes) (s : ScopeId) (name : String) : Option LocalId :=
  m.lookupWithin name m.scopes.length s

/-- Append a variable to a scope's list. -/
def push (m : Scopes) (s : ScopeId) (l : LocalId) : Scopes :=
  { m with scopes := m.scopes.modify s fun x => { x with locals := x.locals ++ [l] } }

/-- `LocalScope::Add(LocalVariable*)`: refused when the scope has a variable of that name.  The
variable keeps its index. -/
def addLocal (m : Scopes) (s : ScopeId) (l : LocalId) : Bool × Scopes :=
  if (m.locals[l]?.map LocalVariable.name).any (m.has s) then (false, m) else (true, m.push s l)

/-- `LocalScope::Add(name, value)`: a new variable at the end, or the value of one that has
none. -/
def addValue (m : Scopes) (s : ScopeId) (name : String) (value : Option Value) : Bool × Scopes :=
  match m.lookupHere s name with
  | none =>
      let (l, m) := m.newLocal s name value
      m.addLocal s l
  | some l =>
      if m.locals[l]?.any fun x => x.value.isSome then (false, m) else (true, m.setValue l value)

/-- The loop of `LocalScope::Add(LocalScope*)` over the variables of the added scope: natives are
counted as added and skipped. -/
def addAll (m : Scopes) (s : ScopeId) : List LocalId → Bool × Scopes
  | [] => (true, m)
  | l :: ls => match m.locals[l]? with
      | none => m.addAll s ls
      | some x =>
          if x.isNativeProcedure then m.addAll s ls
          else
            let (ok, m) := m.addValue s x.name x.value
            let (oks, m) := m.addAll s ls
            (ok && oks, m)

/-- `LocalScope::Add(LocalScope*)`: copies of the other scope's variables, by name and value. -/
def addScope (m : Scopes) (s rhs : ScopeId) : Bool × Scopes := m.addAll s (m.localsOf rhs)

/-- The value a variable holds. -/
def valueOf (m : Scopes) (l : LocalId) : Option Value := m.locals[l]?.bind LocalVariable.value

end Scopes

end Gel
