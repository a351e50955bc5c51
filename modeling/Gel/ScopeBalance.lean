import Gel.ParserSteps

/-!
# ScopeBalance — a parse function leaves the parser in the scope it found it in

`PushScope` and `PopScope` are called by hand.  `Keeps p q`: the scope of `q` is the one of `p`, and
the scopes `p` has are scopes of `q` with the same parents.  `Inside p q`: `q` is in a scope that was
pushed on the one of `p`.  Every parse function that returns keeps the scope, so a scope that was
pushed is popped to where it was pushed.
-/

namespace Gel

open Faulting

namespace Parser

structure Keeps (p q : Parser) : Prop where
  scope : q.scope = p.scope
  parents : p.parents <+: q.parents

instance : IsPreorder Parser Keeps where
  refl _ := ⟨rfl, List.prefix_rfl⟩
  trans _ _ _ h h' := ⟨h'.scope.trans h.scope, h.parents.trans h'.parents⟩

structure Inside (p q : Parser) : Prop where
  scope : q.scope = some p.parents.length
  parents : p.parents ++ [p.scope] <+: q.parents

variable {reg : Registry} {α β : Type}

theorem Keeps.of_eq {p q : Parser} (hs : q.scope = p.scope) (hp : q.parents = p.parents) :
    Keeps p q := ⟨hs, prefix_of_eq hp⟩

theorem Inside.step {p q r : Parser} (h : Inside p q) (hk : Keeps q r) : Inside p r :=
  ⟨hk.scope.trans h.scope, h.parents.trans hk.parents⟩

theorem inside_pushed (p : Parser) : Inside p p.pushed :=
  ⟨by simp [pushed, parents, Scopes.newScope], by simp [pushed, parents, Scopes.newScope]⟩

/-- Popping leads back to the scope that was pushed on. -/
theorem Inside.leave {p q r : Parser} {u : Unit} (hq : Inside p q)
    (h : popScope q = .ok (u, r)) : Keeps p r := by
  obtain ⟨s, hs, rfl⟩ := popScope_eq_ok h
  obtain rfl : s = p.parents.length := Option.some.inj (hs.symm.trans hq.scope)
  refine ⟨?_, (List.prefix_append _ _).trans hq.parents⟩
  obtain ⟨l, hl⟩ := hq.parents
  change q.scopes.parentOf p.parents.length = p.scope
  rw [parentOf_eq, ← Parser.parents, ← hl]
  simp

/-! ### What is read keeps the scope -/

instance : Framed Keeps where
  still h := ⟨h.scope, h.parents⟩
  pop hq h := ((inside_pushed _).step hq).leave h

instance : Blind Keeps where
  blind hs hp _ := .of_eq hs (by rw [Parser.parents, Parser.parents, hp])

/-! ### Every parse function -/

/-- Whenever the function returns, the current scope is the one it was entered in. -/
def Balanced (x : Parse α) : Prop := ∀ ⦃p a q⦄, x p = .ok (a, q) → q.scope = p.scope

theorem balanced {x : Parse α} (h : Steps Keeps x) : Balanced x := fun _ _ _ hrun => (h hrun).scope

/-- The parse functions, nesting at most `n` deep and looping for at most `k` rounds. -/
structure ScopesBalanced (reg : Registry) (n k : Nat) (expr : ParseExpr) : Prop where
  expression : Balanced (parseExpression reg n)
  script : Balanced (parseScript reg n k)
  module : ∀ name, Balanced (parseModule reg name n k)
  symbol : Balanced (parseSymbol reg)
  literalValue : Balanced (parseLiteralValue reg)
  arguments : ∀ bind, Balanced (parseArguments reg k bind)
  expressionList : ∀ push, Balanced (parseExpressionList reg expr k push)
  lambda : ∀ kind, Balanced (parseLambda reg expr k kind)
  literalLambda : ∀ kind, Balanced (parseLiteralLambda reg expr k kind)
  literalExpr : Balanced (parseLiteralExpr reg expr k)
  map : Balanced (parseMap reg expr k)
  quotedExpr : Balanced (parseQuotedExpr reg k)
  macro_ : Balanced (parseMacro reg expr k)
  macroDef : Balanced (parseMacroDef reg expr k)
  defNative : Balanced (parseDefNative reg k)
  defn : Balanced (parseDefn reg expr k)
  definition : Balanced (parseDef reg expr)
  namespace_ : Balanced (parseNamespace reg expr k)
  defNamespace : Balanced (parseDefNamespace reg expr k)
  callExpr : Balanced (parseCallExpr reg expr k)
  unaryExpr : Balanced (parseUnaryExpr reg expr)
  binaryExpr : Balanced (parseBinaryExpr reg expr k)
  listExpr : Balanced (parseListExpr reg expr k)
  beginExpr : Balanced (parseBeginExpr reg expr k)
  condExpr : Balanced (parseCondExpr reg expr k)
  whenExpr : Balanced (parseWhenExpr reg expr k)
  whileExpr : Balanced (parseWhileExpr reg expr k)
  clause : Balanced (parseClause reg expr k)
  caseExpr : Balanced (parseCaseExpr reg expr k)
  letExpr : Balanced (parseLetExpr reg expr k)
  rxOpExpr : Balanced (parseRxOpExpr reg expr k)
  letRxExpr : Balanced (parseLetRxExpr reg expr k)
  setExpr : Balanced (parseSetExpr reg expr)
  throwExpr : Balanced (parseThrowExpr reg expr)
  castExpr : Balanced (parseCastExpr reg expr)
  instanceOfExpr : Balanced (parseInstanceOfExpr reg expr)
  newExpr : Balanced (parseNewExpr reg expr k)
  importExpr : Balanced (parseImportExpr reg)

/-- **A parse function that returns leaves the parser in the scope it was entered in.** -/
theorem scopesBalanced (reg : Registry) (n k : Nat) :
    ScopesBalanced reg n k (parseExpression reg n) := by
  have h : Steps Keeps (parseExpression reg n) := parseExpression_steps n
  exact {
    expression := balanced h
    script := balanced (parseScript_steps n k)
    module := fun name => balanced (parseModule_steps name n k)
    symbol := balanced parseSymbol_steps
    literalValue := balanced parseLiteralValue_steps
    arguments := fun bind => balanced (parseArguments_steps k bind)
    expressionList := fun push => balanced (parseExpressionList_steps h k push)
    lambda := fun kind => balanced (parseAnyLambda_steps h k kind)
    literalLambda := fun kind => balanced (parseAnyLiteralLambda_steps h k kind)
    literalExpr := balanced (Tracks.literal h)
    map := balanced (parseMap_steps h k)
    quotedExpr := balanced (parseQuotedExpr_steps k)
    macro_ := balanced (parseMacro_steps h k)
    macroDef := balanced (parseMacroDef_steps h k)
    defNative := balanced (parseDefNative_steps k)
    defn := balanced (parseDefn_steps h k)
    definition := balanced (parseDef_steps h)
    namespace_ := balanced (parseNamespace_steps h k)
    defNamespace := balanced (parseDefNamespace_steps h k)
    callExpr := balanced (parseCallExpr_steps h k)
    unaryExpr := balanced (parseUnaryExpr_steps h)
    binaryExpr := balanced (parseBinaryExpr_steps h k)
    listExpr := balanced (parseListExpr_steps h k)
    beginExpr := balanced (parseBeginExpr_steps h k)
    condExpr := balanced (parseCondExpr_steps h k)
    whenExpr := balanced (parseWhenExpr_steps h k)
    whileExpr := balanced (parseWhileExpr_steps h k)
    clause := balanced (parseClause_steps h k)
    caseExpr := balanced (parseCaseExpr_steps h k)
    letExpr := balanced (parseLetExpr_steps h k)
    rxOpExpr := balanced (parseRxOpExpr_steps h k)
    letRxExpr := balanced (parseLetRxExpr_steps h k)
    setExpr := balanced (parseSetExpr_steps h)
    throwExpr := balanced (parseThrowExpr_steps h)
    castExpr := balanced (parseCastExpr_steps h)
    instanceOfExpr := balanced (parseInstanceOfExpr_steps h)
    newExpr := balanced (parseNewExpr_steps h k)
    importExpr := balanced parseImportExpr_steps }

end Parser

end Gel
