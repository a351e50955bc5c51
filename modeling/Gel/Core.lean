import Gel.Machine
import Gel.Building

/-!
# Core — the expression core and what it means

The expressions built from literals, references to parameters, unary and binary operations, calls
of constant procedures, and `cond` with one clause and an alternate.  `CoreExpr.eval` evaluates one
from left to right: calls read as a function of their arguments that may change the memory, and of
a `cond` only the branch that is selected is evaluated.

`ReadsAs` says that the machine's calls are such a function, `Env.Holds` that an environment is what
the frame and the names of a procedure say.
-/

namespace Gel

/-- An expression of the core. -/
inductive CoreExpr where
  | literal (value : Value) (h : value.isSymbol = false)
  | param (x : Symbol)
  | unary (op : UnaryOp) (e : CoreExpr)
  | binary (op : BinaryOp) (left right : CoreExpr)
  | call (target : Value) (args : List CoreExpr)
  | cond (test action alternate : CoreExpr)

/-- The values of the parameters, by their symbols, and the procedures that the literals in front
of calls stand for. -/
structure Env where
  param : Symbol → Option Value
  procedure : Value → Option Value

/-- What a call of a procedure does: its result and the memory it leaves. -/
abbrev Application := Value → List Value → Memory → Option (Value × Memory)

namespace CoreExpr

/-- The literal of a long. -/
abbrev long (k : UInt64) : CoreExpr := .literal (.long k) rfl

mutual

def toExpr : CoreExpr → Expr
  | literal v _ => .literal v
  | param x => .literal (.symbol x)
  | unary op e => .unary op e.toExpr
  | binary op l r => .binaryOp op l.toExpr r.toExpr
  | call target args => .callProc (.literal target) (toExprs args)
  | cond t a e => .cond [.mk t.toExpr [a.toExpr]] (some e.toExpr)

def toExprs : List CoreExpr → List Expr
  | [] => []
  | e :: es => e.toExpr :: toExprs es

end

mutual

/-- The value of an expression and the memory its calls leave, where both are defined. -/
def eval (env : Env) (apply : Application) : CoreExpr → Memory → Option (Value × Memory)
  | literal v _, m => some (v, m)
  | param x, m => (env.param x).map fun v => (v, m)
  | unary op e, m => do
      let (v, m) ← e.eval env apply m
      return (← (op.apply v).toOption, m)
  | binary op l r, m => do
      let (x, m) ← l.eval env apply m
      let (y, m) ← r.eval env apply m
      return (← (op.apply x y).toOption, m)
  | call target args, m => do
      let (vs, m) ← evalAll env apply args m
      apply (← env.procedure target) vs m
  | cond t a e, m => do
      let (v, m) ← t.eval env apply m
      if v.truth then a.eval env apply m else e.eval env apply m

/-- The values of arguments, in source order. -/
def evalAll (env : Env) (apply : Application) :
    List CoreExpr → Memory → Option (List Value × Memory)
  | [], m => some ([], m)
  | e :: es, m => do
      let (v, m) ← e.eval env apply m
      let (vs, m) ← evalAll env apply es m
      return (v :: vs, m)

end

@[simp] theorem length_toExprs (es : List CoreExpr) : (toExprs es).length = es.length := by
  induction es with
  | nil => rfl
  | cons e es ih => rw [toExprs, List.length_cons, List.length_cons, ih]

theorem length_evalAll {env : Env} {apply : Application} {es : List CoreExpr} {m m' : Memory}
    {vs : List Value} (h : evalAll env apply es m = some (vs, m')) : vs.length = es.length := by
  induction es generalizing m vs with
  | nil =>
      cases h
      rfl
  | cons e es ih =>
      simp only [evalAll, Option.bind_eq_bind, Option.bind_eq_some_iff, Option.pure_def,
        Option.some.injEq, Prod.mk.injEq] at h
      obtain ⟨⟨v, m₁⟩, -, ⟨vs', m₂⟩, hrest, rfl, rfl⟩ := h
      rw [List.length_cons, List.length_cons, ih hrest]

end CoreExpr

/-- A call reads as a function: it takes its arguments off the operation stack, pushes one value,
changes the memory as the function says, and leaves the procedure's code and slots alone. -/
structure ReadsAs (call : Interpreter.CallWithNArgs) (a : Activation) (apply : Application) :
    Prop where
  returns : ∀ {f args m v m'} (p : Nat) (s : List Value), apply f args m = some (v, m') →
    call f args.length (a.state p (args.reverse ++ s) m) = .ok (a.state p (v :: s) m')
  keeps : ∀ {f args m v m'}, apply f args m = some (v, m') → a.Keeps m m'

namespace CoreExpr

variable {env : Env} {apply : Application} {callN : Interpreter.CallWithNArgs} {a : Activation}

mutual

/-- Evaluation leaves the procedure's code and slots alone. -/
theorem eval_keeps (hc : ReadsAs callN a apply) : ∀ {e : CoreExpr} {m m' : Memory} {v : Value},
    e.eval env apply m = some (v, m') → a.Keeps m m'
  | literal .., m, _, _, h => by
      cases h
      exact .refl a m
  | param x, m, _, _, h => by
      obtain ⟨v, -, he⟩ := Option.map_eq_some_iff.mp h
      cases he
      exact .refl a m
  | unary op e, m, m', v, h => by
      simp only [eval, Option.bind_eq_bind, Option.bind_eq_some_iff, Option.pure_def,
        Option.some.injEq, Prod.mk.injEq] at h
      obtain ⟨⟨x, m₁⟩, h₁, y, -, -, rfl⟩ := h
      exact eval_keeps hc h₁
  | binary op l r, m, m', v, h => by
      simp only [eval, Option.bind_eq_bind, Option.bind_eq_some_iff, Option.pure_def,
        Option.some.injEq, Prod.mk.injEq] at h
      obtain ⟨⟨x, m₁⟩, h₁, ⟨y, m₂⟩, h₂, z, -, -, rfl⟩ := h
      exact (eval_keeps hc h₁).trans (eval_keeps hc h₂)
  | call target args, m, m', v, h => by
      simp only [eval, Option.bind_eq_bind, Option.bind_eq_some_iff] at h
      obtain ⟨⟨vs, m₁⟩, h₁, f, -, h₂⟩ := h
      exact (evalAll_keeps hc h₁).trans (hc.keeps h₂)
  | cond t x y, m, m', v, h => by
      simp only [eval, Option.bind_eq_bind, Option.bind_eq_some_iff] at h
      obtain ⟨⟨b, m₁⟩, h₁, h₂⟩ := h
      split at h₂
      · exact (eval_keeps hc h₁).trans (eval_keeps hc h₂)
      · exact (eval_keeps hc h₁).trans (eval_keeps hc h₂)

theorem evalAll_keeps (hc : ReadsAs callN a apply) : ∀ {es : List CoreExpr} {m m' : Memory}
    {vs : List Value}, evalAll env apply es m = some (vs, m') → a.Keeps m m'
  | [], m, _, _, h => by
      cases h
      exact .refl a m
  | e :: es, m, m', vs, h => by
      simp only [evalAll, Option.bind_eq_bind, Option.bind_eq_some_iff, Option.pure_def,
        Option.some.injEq, Prod.mk.injEq] at h
      obtain ⟨⟨v, m₁⟩, h₁, ⟨vs', m₂⟩, h₂, -, rfl⟩ := h
      exact (eval_keeps hc h₁).trans (evalAll_keeps hc h₂)

end

end CoreExpr

/-! ### Names -/

/-- The instruction `VisitLiteralExpr` makes of a value: a symbol that resolves to a variable is the
variable's value when it has one, and otherwise a load from its slot. -/
def Scopes.literalInstr (m : Scopes) (s : ScopeId) (value : Value) : Instr :=
  match value with
  | .symbol x => match m.lookup s x.fullyQualifiedName with
      | none => .constant value
      | some l => match m.valueOf l, m.locals[l]? with
          | some y, _ => .constant y
          | none, some y => .loadLocal l y.index
          | none, none => .constant value
  | v => .constant v

theorem Scopes.literalInstr_of_not_symbol (m : Scopes) (s : ScopeId) {v : Value}
    (h : v.isSymbol = false) : m.literalInstr s v = .constant v := by
  cases v <;> first | rfl | cases h

theorem Scopes.lookupWithin_isSome {m : Scopes} {name : String} {n : Nat} {s : ScopeId}
    {l : LocalId} (h : m.lookupWithin name n s = some l) :
    ∃ x, m.locals[l]? = some x ∧ x.name = name := by
  induction n generalizing s with
  | zero => cases h
  | succ n ih =>
      rw [lookupWithin] at h
      split at h
      next l' hl =>
          cases h
          have hfound := List.find?_some hl
          cases hx : m.locals[l]? with
          | none => simp [hx] at hfound
          | some x => exact ⟨x, rfl, by simpa [hx] using hfound⟩
      next =>
          obtain ⟨p, -, hp⟩ := Option.bind_eq_some_iff.mp h
          exact ih hp

/-- `VisitLiteralExpr` returns the instruction of its literal. -/
theorem FlowGraphBuilder.visitLiteral_run (md : Mode) (v : Visitor) (value : Value) (b : Builder) :
    visitLiteral md v value b = returnNew md v (b.scopes.literalInstr b.scope value) b := by
  cases value with
  | symbol x =>
      rw [visitLiteral, Partial.get_bind, Scopes.literalInstr]
      cases hl : b.scopes.lookup b.scope x.fullyQualifiedName with
      | none => rfl
      | some l =>
          obtain ⟨y, hy, -⟩ := Scopes.lookupWithin_isSome hl
          cases hv : b.scopes.valueOf l with
          | some w => simp only [hv]
          | none =>
              simp only [hv, hy]
              have hrun : loadLocal l b = some (.loadLocal l y.index, b) := by
                rw [loadLocal, Partial.get_bind, hy]
                rfl
              rw [Partial.bind_run hrun]
  | _ => rfl

/-- The environment is what the names of a procedure and its frame say: parameters resolve to
variables without a value of their own, whose slots hold the actual values, and the procedures in
front of calls are known when the code is compiled. -/
structure Env.Holds (env : Env) (names : Scopes) (scope : ScopeId) (a : Activation) (m : Memory) :
    Prop where
  param : ∀ {x v}, env.param x = some v → ∃ l idx,
    names.literalInstr scope (.symbol x) = .loadLocal l idx ∧ a.slot m idx = some v
  procedure : ∀ {t f}, env.procedure t = some f →
    names.literalInstr scope t = .constant f ∧ f.isProcedure = true

theorem Env.Holds.keeps {env : Env} {names : Scopes} {scope : ScopeId} {a : Activation}
    {m m' : Memory} (h : env.Holds names scope a m) (hk : a.Keeps m m') :
    env.Holds names scope a m' where
  param hx := by
    obtain ⟨l, idx, hl, hs⟩ := h.param hx
    exact ⟨l, idx, hl, (hk.slots idx).trans hs⟩
  procedure := h.procedure

end Gel
