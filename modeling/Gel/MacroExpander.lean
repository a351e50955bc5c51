import Gel.Expression

/-!
# MacroExpander — expanding the macro calls of a body

`MacroEffectVisitor` and the loop of `ExpandAllInLambda` and `ExpandAllInScript`.  A visitor's
result is what stands in the place of the visited expression, and no result is no change.  Every
visitor but those below logs that it is not implemented and leaves its expression alone.

`VisitSetLocalExpr` changes the node it visits, so a visit also gives the node as it is afterwards,
and the bodies of the macros are part of the state.  A node that stands in a body and in an
expansion made of it is one object in the program and two here; `written` says that the visits have
changed a node of a macro's body.
-/

namespace Gel

/-- A `Macro*`. -/
abbrev MacroId := Nat

/-- `Macro`: the names of its arguments, in the order of their indices, and its body. -/
structure Macro where
  args : List String
  body : List Expr

/-- A variable's value that is a macro. -/
def Value.ofMacro (id : MacroId) : Value := .object (.other "Macro") id

/-- `MacroExpander`: the scope it was made with has been extended by the locals of the body's own
scope; `frames` are the scopes of the macro calls around, the innermost first, which bind the
arguments to expressions. -/
structure MacroExpander where
  names : Scopes
  scope : ScopeId
  frames : List (List (String × Expr)) := []

/-- The macros, and whether a node of their bodies has been changed. -/
structure MacroStore where
  macros : List Macro
  written : Bool := false

abbrev Expand := StateT MacroStore Option

/-- `LocalScope::Union`. -/
def Scopes.union (m : Scopes) (scopes : List ScopeId) (parent : ScopeId) : ScopeId × Scopes :=
  (m.scopes.length,
    { m with scopes := m.scopes ++ [{ parent := parent, locals := scopes.flatMap m.localsOf }] })

/-- What a visitor holds after a visit: `result_`, and the visited node. -/
structure Visited where
  results : List Expr
  self : Expr

namespace Visited

def hasResult (v : Visited) : Bool := !v.results.isEmpty

/-- What is used for an operand: the first result. -/
def operand (v : Visited) : Expr := v.results.headD v.self

/-- What is used for an element of a list: all results. -/
def splice (v : Visited) : List Expr := if v.hasResult then v.results else [v.self]

/-- A visit that makes a new node when something below the visited one has a result. -/
def rebuilt (changed : Bool) (new self : Expr) : Visited := ⟨if changed then [new] else [], self⟩

end Visited

namespace MacroExpander

def pushScope (x : MacroExpander) (frame : List (String × Expr)) : MacroExpander :=
  { x with frames := frame :: x.frames }

/-- `IsMacroCall`, by the target of the call.  A name that a macro call around binds is bound to an
expression. -/
def macroOf (x : MacroExpander) : Expr → Option MacroId
  | .literal (.symbol s) =>
      if x.frames.any fun f => (f.lookup s.fullyQualifiedName).isSome then none
      else match (x.names.lookup x.scope s.fullyQualifiedName).bind x.names.valueOf with
        | some (.object (.other "Macro") id) => some id
        | _ => none
  | _ => none

/-- `VisitLiteralExpr`: only the innermost scope is asked. -/
def visitLiteral (x : MacroExpander) : Value → List Expr
  | .symbol s => ((x.frames.headD []).lookup s.fullyQualifiedName).toList
  | _ => []

mutual

/-- `Expression::Accept` on a `MacroEffectVisitor`; `enter` is the visit of a macro's body. -/
def visit (enter : MacroExpander → MacroId → List Expr → Expand (List Expr)) (x : MacroExpander) :
    Expr → Expand Visited
  | .literal v => return ⟨x.visitLiteral v, .literal v⟩
  | .binaryOp op l r => do
      let l ← visit enter x l
      let r ← visit enter x r
      return .rebuilt (l.hasResult || r.hasResult) (.binaryOp op l.operand r.operand)
        (.binaryOp op l.self r.self)
  | .callProc target args => match x.macroOf target with
      | some m => return ⟨← enter x m args, .callProc target args⟩
      | none => do
          let args ← visitAll enter x args
          return .rebuilt (args.any Visited.hasResult)
            (.callProc target (args.map Visited.operand)) (.callProc target (args.map Visited.self))
  | .setLocal l value => do
      let value ← visit enter x value
      if value.hasResult && !x.frames.isEmpty then modify fun s => { s with written := true }
      return ⟨[], .setLocal l value.operand⟩
  | .when test actions => do
      let test ← visit enter x test
      let actions ← visitAll enter x actions
      return .rebuilt (test.hasResult || actions.any Visited.hasResult)
        (.when test.operand (actions.flatMap Visited.splice))
        (.when test.self (actions.map Visited.self))
  | e => return ⟨[], e⟩

def visitAll (enter : MacroExpander → MacroId → List Expr → Expand (List Expr))
    (x : MacroExpander) : List Expr → Expand (List Visited)
  | [] => return []
  | e :: es => return (← visit enter x e) :: (← visitAll enter x es)

end

/-- The scope of a macro call.  A call with too few arguments reads past their end, and the second
argument of one name aborts. -/
def bindArgs : List String → List Expr → Option (List (String × Expr))
  | [], _ => some []
  | _ :: _, [] => none
  | p :: ps, a :: as => do
      let frame ← bindArgs ps as
      if (frame.lookup p).isSome then none else some ((p, a) :: frame)

/-- `VisitCallProcExpr` of a macro call, with at most `n` macro calls inside one another.  The
arguments are not visited. -/
def enter : Nat → MacroExpander → MacroId → List Expr → Expand (List Expr)
  | 0, _, _, _ => failure
  | n + 1, x, m, args => do
      let called ← (← get).macros[m]?
      let frame ← bindArgs called.args args
      let body ← visitAll (enter n) (x.pushScope frame) called.body
      modify fun s => { s with
        macros := s.macros.modify m fun y => { y with body := body.map Visited.self } }
      return body.flatMap Visited.splice

/-- The loop over a body: what a visit of an expression results in takes its place and is visited
again.  `k` bounds the number of visits. -/
def expandAll (n : Nat) (x : MacroExpander) : Nat → List Expr → Expand (List Expr)
  | _, [] => return []
  | 0, _ => failure
  | k + 1, e :: es => do
      let v ← visit (enter n) x e
      if v.hasResult then expandAll n x k (v.results ++ es)
      else return v.self :: (← expandAll n x k es)

/-- The expander for the body of an executable whose own scope is `own`, if it has one. -/
def forBody (names : Scopes) (scope : ScopeId) (own : Option ScopeId) : MacroExpander :=
  let (s, names) := names.union own.toList scope
  { names, scope := s }

/-- `ExpandAllInScript` and `ExpandAllInLambda`. -/
def expandAllIn (n k : Nat) (names : Scopes) (scope : ScopeId) (own : Option ScopeId)
    (body : List Expr) : Expand (List Expr) := expandAll n (forBody names scope own) k body

end MacroExpander

end Gel
