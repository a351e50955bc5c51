import Gel.Tokens

/-!
# ParserSteps — what every parse function keeps

A parse function reads tokens, pushes and pops scopes, and adds to the objects it makes.  A relation
of parser states that each of these steps is in (`Framed`, `Lexical`) holds between the states before
and after every parse function that returns; the one function that a relation has to answer for
itself is `ParseLiteralExpr`, where a dispatch literal can begin (`Tracks`).  A relation that the
count of its parameters keeps (`Dispatching`) holds there as well.

* `parseExpression_steps`, `parseScript_steps`, `parseModule_steps`: the parse functions that others
  are parts of.
-/

namespace Gel

open Faulting

namespace Parser

/-- The parents of the scopes, in the order of their creation. -/
def parents (p : Parser) : List (Option ScopeId) := p.scopes.scopes.map LocalScope.parent

/-- The parser behind `PushScope`. -/
def pushed (p : Parser) : Parser :=
  { p with scope := some (p.scopes.newScope p.scope).1, scopes := (p.scopes.newScope p.scope).2 }

/-- Equal lists, as a list and what it begins. -/
theorem prefix_of_eq {α : Type} {l l' : List α} (h : l' = l) : l <+: l' :=
  ⟨[], by rw [List.append_nil, h]⟩

/-- Nothing has been read, the scope is the same, and no scope or lambda is gone. -/
structure Still (p q : Parser) : Prop where
  lexer : q.lexer = p.lexer
  peek : q.peek = p.peek
  scope : q.scope = p.scope
  parents : p.parents <+: q.parents
  lambdas : p.lambdas.length ≤ q.lambdas.length

theorem Still.of_eq {p q : Parser} (hlexer : q.lexer = p.lexer) (hpeek : q.peek = p.peek)
    (hscope : q.scope = p.scope) (hscopes : q.scopes = p.scopes) (hlambdas : q.lambdas = p.lambdas) :
    Still p q :=
  ⟨hlexer, hpeek, hscope, prefix_of_eq (by rw [Parser.parents, Parser.parents, hscopes]),
    hlambdas ▸ le_rfl⟩

theorem Still.withScopes {p : Parser} {m : Scopes} (h : p.parents <+: m.scopes.map LocalScope.parent) :
    Still p { p with scopes := m } := ⟨rfl, rfl, rfl, h, le_rfl⟩

/-- A relation that holds when nothing is read, and from before a push to behind its pop. -/
class Framed (R : Parser → Parser → Prop) : Prop extends IsPreorder Parser R where
  still : ∀ {p q}, Still p q → R p q
  pop : ∀ {p q r u}, R p.pushed q → popScope q = .ok (u, r) → R p r

/-- A relation that holds when tokens and quoted data are read. -/
class Lexical (reg : Registry) (R : Parser → Parser → Prop) : Prop where
  next : Steps R (nextToken reg)
  peek : Steps R (peekToken reg)
  quoted : ∀ {p : Parser} {n l depth text l'}, p.lexer.skipWhitespace n = .ok l →
    l.readQuoted depth bufferSize = .ok (text, l') → R p { p with lexer := l' }
  args : ∀ rhs, Steps R (setParsingArgs rhs)

/-- A relation that holds across literals as well. -/
class Tracks (reg : Registry) (R : Parser → Parser → Prop) : Prop where
  literal : ∀ {expr n}, Steps R expr → Steps R (parseLiteralExpr reg expr n)

/-- A computation that leaves the scope that was pushed on the one of `p`. -/
def Leaves {α : Type} (R : Parser → Parser → Prop) (p : Parser) (x : Parse α) : Prop :=
  ∀ ⦃q a r⦄, R p.pushed q → x q = .ok (a, r) → R p r

variable {reg : Registry} {R : Parser → Parser → Prop} {α β : Type}

theorem parentOf_eq (m : Scopes) (s : ScopeId) :
    m.parentOf s = (m.scopes.map LocalScope.parent)[s]?.join := by
  rw [List.getElem?_map]
  cases h : m.scopes[s]? with
  | none => simp [Scopes.parentOf, h]
  | some x => simp [Scopes.parentOf, h]

theorem getScope_eq_ok {p q : Parser} {s : ScopeId} (h : getScope p = .ok (s, q)) :
    p.scope = some s ∧ q = p := by
  simp only [getScope] at h
  obtain ⟨p', t, hg, h⟩ := bind_eq_ok.mp h
  cases hg
  cases hs : p.scope with
  | none =>
      rw [hs] at h
      cases h
  | some s' =>
      rw [hs] at h
      cases h
      exact ⟨rfl, rfl⟩

theorem popScope_eq_ok {p q : Parser} {u : Unit} (h : popScope p = .ok (u, q)) :
    ∃ s, p.scope = some s ∧ q = { p with scope := p.scopes.parentOf s } := by
  obtain ⟨s, p', hs, hm⟩ := bind_eq_ok.mp h
  obtain ⟨hs, rfl⟩ := getScope_eq_ok hs
  exact ⟨s, hs, (congrArg Prod.snd (Except.ok.inj hm)).symm⟩

theorem parents_push (m : Scopes) (s : ScopeId) (l : LocalId) :
    (m.push s l).scopes.map LocalScope.parent = m.scopes.map LocalScope.parent := by
  apply List.ext_getElem?
  intro i
  simp only [Scopes.push, List.getElem?_map, List.getElem?_modify]
  by_cases hi : s = i
  · simp [hi, Function.comp_def]
  · simp [hi]

theorem parents_addLocal (m : Scopes) (s : ScopeId) (l : LocalId) :
    (m.addLocal s l).2.scopes.map LocalScope.parent = m.scopes.map LocalScope.parent := by
  rw [Scopes.addLocal]
  split
  · rfl
  · exact parents_push m s l

theorem parents_addValue (m : Scopes) (s : ScopeId) (name : String) (v : Option Value) :
    (m.addValue s name v).2.scopes.map LocalScope.parent = m.scopes.map LocalScope.parent := by
  rw [Scopes.addValue]
  cases m.lookupHere s name with
  | none => exact parents_addLocal _ s _
  | some l =>
      dsimp only
      split <;> rfl

theorem parents_addScope (m : Scopes) (s rhs : ScopeId) :
    (m.addScope s rhs).2.scopes.map LocalScope.parent = m.scopes.map LocalScope.parent := by
  rw [Scopes.addScope]
  generalize m.localsOf rhs = ls
  induction ls generalizing m with
  | nil => rfl
  | cons l ls ih =>
      rw [Scopes.addAll]
      cases m.locals[l]? with
      | none => exact ih m
      | some x =>
          by_cases hx : x.isNativeProcedure
          · simp only [hx, if_true]
            exact ih m
          · simp only [hx, if_false, Bool.false_eq_true]
            exact (ih _).trans (parents_addValue m s x.name x.value)

/-! ### Scopes -/

section Frames

open Framed

variable [Framed R]

theorem Leaves.step {p : Parser} {x : Parse α} {f : α → Parse β} (hx : Steps R x)
    (hf : ∀ a, Leaves R p (f a)) : Leaves R p (x >>= f) := by
  intro q b r hq h
  obtain ⟨a, t, h₁, h₂⟩ := bind_eq_ok.mp h
  exact hf a (trans_of R hq (hx h₁)) h₂

theorem Leaves.pop {p : Parser} {f : Unit → Parse β} (hf : ∀ a, Steps R (f a)) :
    Leaves R p (popScope >>= f) := by
  intro q b r hq h
  obtain ⟨u, t, hpop, h⟩ := bind_eq_ok.mp h
  exact trans_of R (Framed.pop hq hpop) (hf u h)

/-- A scope is pushed and left again. -/
theorem push_steps {f : ScopeId → Parse β} (hf : ∀ p s, Leaves R p (f s)) :
    Steps R (pushScope >>= f) := by
  intro p b r h
  obtain ⟨s, q, hpush, h⟩ := bind_eq_ok.mp h
  cases hpush
  exact hf p _ (refl_of R _) h

theorem getScope_steps : Steps R getScope := by
  intro p s q h
  obtain ⟨-, rfl⟩ := getScope_eq_ok h
  exact refl_of R q

theorem newLocal_steps (s : ScopeId) (name : String) (value : Option Value) :
    Steps R (newLocal s name value) :=
  .modifyGet fun _ => still (.withScopes List.prefix_rfl)

theorem addLocal_steps (s : ScopeId) (l : LocalId) : Steps R (addLocal s l) := by
  refine .getBind fun p a q h => ?_
  have hp := parents_addLocal p.scopes s l
  generalize p.scopes.addLocal s l = r at h hp
  obtain ⟨ok, m⟩ := r
  cases ok with
  | false => cases h
  | true =>
      cases h
      exact still (.withScopes (prefix_of_eq hp))

theorem newLambda_steps : Steps R newLambda :=
  .modifyGet fun p => still ⟨rfl, rfl, rfl, List.prefix_rfl, by simp⟩

theorem setLambda_steps (id : Nat) (f : Lambda) : Steps R (setLambda id f) :=
  .modify fun _ => still ⟨rfl, rfl, rfl, List.prefix_rfl, (List.length_set).ge⟩

theorem bindParameters_steps (s : ScopeId) (k : Nat) : Steps R (bindParameters s k) := by
  rw [bindParameters]
  split
  · exact .mapM fun _ => .bind (newLocal_steps s _ _) fun l => .bind (addLocal_steps s l) fun _ =>
      .pure _
  · exact .throw _

theorem findOrCreate_steps (symbol : Symbol) : Steps R (findOrCreate symbol) := by
  refine .getBind fun p a q h => ?_
  cases hi : p.natives.findIdx? (fun x => x.symbol.equals symbol) with
  | none =>
      rw [hi] at h
      cases h
      exact still (.of_eq rfl rfl rfl rfl rfl)
  | some i =>
      rw [hi] at h
      cases h
      exact refl_of R _

theorem appendNamespace_steps (symbol : Symbol) (id : Nat) :
    Steps R (appendNamespace symbol id) := by
  refine .getBind fun p a q h => ?_
  cases hs : p.script with
  | none =>
      rw [hs] at h
      cases h
      exact refl_of R _
  | some s =>
      rw [hs] at h
      dsimp only at h
      have hp := parents_addValue p.scopes s symbol.fullyQualifiedName (some (.ofNamespace id))
      generalize p.scopes.addValue s symbol.fullyQualifiedName (some (.ofNamespace id)) = r at h hp
      obtain ⟨ok, m⟩ := r
      cases ok with
      | false => cases h
      | true =>
          cases h
          exact still ⟨rfl, rfl, rfl, prefix_of_eq hp, le_rfl⟩

theorem appendToModule_steps (ns : Namespace) : Steps R (appendToModule ns) := by
  refine .modify fun p => ?_
  cases hm : p.module with
  | none => exact refl_of R p
  | some s =>
      have hp := parents_addScope p.scopes s ns.scope
      exact still ⟨rfl, rfl, rfl, prefix_of_eq hp, le_rfl⟩

theorem createInitFunc_steps (id : Nat) (body : List Expr) :
    Steps R (createInitFunc id body) := by
  refine .bind newLambda_steps fun init => .bind (.modifyGet fun p => still (.withScopes ?_))
    fun scope =>
    .bind (newLocal_steps scope _ _) fun l => .bind (addLocal_steps scope l) fun _ =>
    .bind (setLambda_steps init _) fun _ => .modify fun _ => still (.of_eq rfl rfl rfl rfl rfl)
  simp [parents, Scopes.newScope]

end Frames

section Tokens

open Framed

variable [Lexical reg R]

theorem peekKind_steps : Steps R (peekKind reg) := .map Lexical.peek

theorem peekEq_steps (k : Token.Kind) : Steps R (peekEq reg k) := .map peekKind_steps

variable [Framed R]

theorem expectNext_steps (k : Token.Kind) : Steps R (expectNext reg k) := by
  refine .bind Lexical.next fun t => ?_
  by_cases hk : t.kind ≠ k
  · rw [if_pos hk]
    exact .bind (.modify fun p => still (.of_eq rfl rfl rfl rfl rfl)) fun _ => .pure t
  · rw [if_neg hk]
    exact .pure t

theorem parseUntil_steps {stop : Token.Kind → Bool} {item : Parse α} (h : Steps R item)
    (n : Nat) : Steps R (parseUntil reg stop item n) := by
  induction n with
  | zero => exact .throw _
  | succ n ih =>
      refine .bind peekKind_steps fun k => ?_
      by_cases hk : stop k
      · rw [if_pos hk]
        exact .pure _
      · rw [if_neg hk]
        exact .bind h fun x => .bind ih fun xs => .pure _

theorem nonnull_steps {expr : ParseExpr} (h : Steps R expr) : Steps R (nonnull expr) := by
  refine .bind h fun e => ?_
  cases e with
  | none => exact .throw _
  | some e => exact .pure e

theorem parseQuotedExpr_steps (n : Nat) : Steps R (parseQuotedExpr reg n) := by
  refine .bind .get fun p => .bind (expectNext_steps _) fun _ => .getBind fun p' a q h => ?_
  obtain ⟨l, p₁, h₁, h⟩ := bind_eq_ok.mp h
  obtain ⟨hskip, rfl⟩ := lift_eq_ok.mp h₁
  obtain ⟨⟨text, l'⟩, p₂, h₂, h⟩ := bind_eq_ok.mp h
  obtain ⟨hread, rfl⟩ := lift_eq_ok.mp h₂
  cases h
  exact Lexical.quoted reg hskip hread

/-! ### Scopes and symbols -/

theorem parseSymbol_steps : Steps R (parseSymbol reg) := by
  refine .bind Lexical.next fun t => ?_
  split
  · exact .throw _
  · refine .bind .get fun p => ?_
    cases p.current with
    | none => exact .lift _
    | some ns => exact .lift _

/-! ### Literals, lambdas and macros -/

theorem parseLiteralValue_steps : Steps R (parseLiteralValue reg) := by
  refine .bind Lexical.next fun t => ?_
  cases t.kind with
  | identifier => exact .bind (.lift _) fun _ => .pure _
  | literalTrue | literalFalse | literalLong | literalDouble | literalString => exact .pure _
  | _ => exact .throw _

theorem parseEntry_steps {expr : ParseExpr} (h : Steps R expr) :
    Steps R (parseEntry reg expr) := by
  refine .bind parseSymbol_steps fun key => .bind (nonnull_steps h) fun e =>
    .bind (peekEq_steps _) fun b => ?_
  cases b with
  | false => exact .pure _
  | true => exact .bind Lexical.next fun _ => .pure _

theorem parseMap_steps {expr : ParseExpr} (h : Steps R expr) (n : Nat) :
    Steps R (parseMap reg expr n) :=
  .bind (expectNext_steps _) fun _ => .bind (parseUntil_steps (parseEntry_steps h) n) fun _ =>
    .bind (expectNext_steps _) fun _ => .pure _

theorem parseExpressionList_steps {expr : ParseExpr} (h : Steps R expr) (n : Nat)
    (push : Bool) : Steps R (parseExpressionList reg expr n push) := by
  cases push with
  | false =>
      exact Steps.bind (parseUntil_steps h n) fun es => .pure es.reduceOption
  | true =>
      exact push_steps fun _ s => .step (parseUntil_steps h n) fun es => .pop fun _ => .pure _

theorem parseArgument_steps (bind : Bool) : Steps R (parseArgument reg bind) := by
  refine .bind (expectNext_steps _) fun t => .bind peekKind_steps fun k => ?_
  have hrest (arg : Argument) : Steps R (do
      if bind then
        let scope ← getScope
        let l ← newLocal scope (← Symbol.new t.text).fullyQualifiedName
        addLocal scope l
      return arg) := by
    cases bind with
    | false => exact .pure _
    | true =>
        exact .bind getScope_steps fun s => .bind (.lift _) fun x =>
          .bind (newLocal_steps s _ _) fun l => .bind (addLocal_steps s l) fun _ => .pure _
  cases k with
  | question | dotDotDot => exact .bind Lexical.next fun _ => .bind (.pure _) hrest
  | identifier | rBracket => exact .bind (.pure _) hrest
  | _ => exact .bind (.throw _) hrest

theorem parseArguments_steps (n : Nat) (bind : Bool) :
    Steps R (parseArguments reg n bind) :=
  .bind (expectNext_steps _) fun _ => .bind (Lexical.args reg _) fun _ =>
    .bind (parseUntil_steps (parseArgument_steps bind) n) fun _ =>
      .bind (Lexical.args reg _) fun _ => .bind (expectNext_steps _) fun _ => .pure _

theorem parseName_steps : Steps R (parseName reg) := by
  refine .bind (peekEq_steps _) fun b => ?_
  cases b with
  | false => exact .pure _
  | true => exact .bind parseSymbol_steps fun _ => .pure _

theorem parseBody_steps {expr : ParseExpr} (h : Steps R expr) (n : Nat) :
    Steps R (parseBody reg expr n) := by
  refine .bind (peekEq_steps _) fun b => ?_
  cases b with
  | false => exact parseExpressionList_steps h n false
  | true =>
      exact .bind (expectNext_steps _) fun _ => .bind (parseExpressionList_steps h n false) fun _ =>
        .pure _

theorem parseFunction_steps {expr : ParseExpr} (h : Steps R expr) (n : Nat)
    (kind : Token.Kind) : Steps R (parseFunction reg expr n kind) :=
  .bind newLambda_steps fun id => push_steps fun _ s =>
    .step (expectNext_steps _) fun _ => .step parseName_steps fun _ =>
    .step (newLocal_steps s _ _) fun l => .step (addLocal_steps s l) fun _ =>
    .step (parseArguments_steps n true) fun _ => .step (parseBody_steps h n) fun _ =>
    .step (setLambda_steps id _) fun _ => .pop fun _ => .pure id

theorem parseLambda_steps {expr : ParseExpr} (h : Steps R expr) (n : Nat) {kind : Token.Kind}
    (hk : kind ≠ .dispatch) : Steps R (parseLambda reg expr n kind) := by
  rw [parseLambda, if_neg hk]
  exact parseFunction_steps h n kind

theorem parseLiteralLambda_steps {expr : ParseExpr} (h : Steps R expr) (n : Nat)
    {kind : Token.Kind} (hk : kind ≠ .dispatch) : Steps R (parseLiteralLambda reg expr n kind) :=
  .bind (parseLambda_steps h n hk) fun _ => .pure _

theorem parseMacro_steps {expr : ParseExpr} (h : Steps R expr) (n : Nat) :
    Steps R (parseMacro reg expr n) :=
  .bind (expectNext_steps _) fun _ => .bind (.modifyGet fun _ => still (.of_eq rfl rfl rfl rfl rfl)) fun id =>
    push_steps fun _ s => .step parseName_steps fun _ => .step (newLocal_steps s _ _) fun l =>
    .step (addLocal_steps s l) fun _ => .step (parseArguments_steps n false) fun _ =>
    .step (parseBody_steps h n) fun _ => .pop fun _ =>
    .bind (.modify fun _ => still (.of_eq rfl rfl rfl rfl rfl)) fun _ => .pure id

/-! ### Definitions -/

theorem parseDefn_steps {expr : ParseExpr} (h : Steps R expr) (n : Nat) :
    Steps R (parseDefn reg expr n) := by
  refine .bind getScope_steps fun s => .bind (parseLambda_steps h n (by decide)) fun id =>
    .bind .get fun p => ?_
  cases p.lambdas[id]?.bind Lambda.symbol with
  | none => exact .throw _
  | some x => exact .bind (newLocal_steps s _ _) fun l => addLocal_steps s l

theorem parseMacroDef_steps {expr : ParseExpr} (h : Steps R expr) (n : Nat) :
    Steps R (parseMacroDef reg expr n) := by
  refine .bind getScope_steps fun s => .bind (parseMacro_steps h n) fun id => .bind .get fun p => ?_
  cases p.macros[id]?.bind MacroObject.symbol with
  | none => exact .throw _
  | some x => exact .bind (newLocal_steps s _ _) fun l => addLocal_steps s l

theorem parseDefNative_steps (n : Nat) : Steps R (parseDefNative reg n) := by
  refine .bind (expectNext_steps _) fun _ => .bind parseSymbol_steps fun x =>
    .bind (findOrCreate_steps x) fun i => .bind (parseArguments_steps n false) fun args =>
    .bind (.modify fun _ => still (.of_eq rfl rfl rfl rfl rfl)) fun _ => .bind (peekEq_steps _) fun b => ?_
  have hrest : Steps R (do
      let value := (← get).natives[i]?.map fun x => Value.native x.symbol
      let scope ← getScope
      let l ← newLocal scope x.fullyQualifiedName value
      addLocal scope l) :=
    .bind .get fun _ => .bind getScope_steps fun s => .bind (newLocal_steps s _ _) fun l =>
      addLocal_steps s l
  cases b with
  | false => exact hrest
  | true => exact .bind (expectNext_steps _) fun _ => hrest

theorem parseDef_steps {expr : ParseExpr} (h : Steps R expr) :
    Steps R (parseDef reg expr) := by
  refine .bind (expectNext_steps _) fun _ => .bind parseSymbol_steps fun x =>
    .bind getScope_steps fun s => .bind (newLocal_steps s _ _) fun l =>
    .bind (addLocal_steps s l) fun _ => .bind (nonnull_steps h) fun e =>
    .getBind fun p r q hq => ?_
  by_cases hc : e.isConstantExpr fun y => ((p.scopes.lookup reg.config.runtimeScope
      y.fullyQualifiedName).bind p.scopes.valueOf).isSome
  · rw [if_pos hc] at hq
    rcases hv : e.evalToConstant reg.config p.scopes s with - | - | v
    · rw [hv] at hq
      cases hq
    · rw [hv] at hq
      cases hq
    · rw [hv] at hq
      cases hq
      exact still (.withScopes List.prefix_rfl)
  · rw [if_neg hc] at hq
    cases hq
    exact refl_of R _

theorem parseMember_steps {expr : ParseExpr} (h : Steps R expr) (n : Nat) :
    Steps R (parseMember reg expr n) := by
  refine .bind (expectNext_steps _) fun _ => .bind peekKind_steps fun k => ?_
  have hrest : Steps R (do let _ ← expectNext reg .rParen; return ()) :=
    .bind (expectNext_steps _) fun _ => .pure _
  cases k with
  | defn => exact .bind (parseDefn_steps h n) fun _ => hrest
  | defMacro => exact .bind (parseMacroDef_steps h n) fun _ => hrest
  | defNative => exact .bind (parseDefNative_steps n) fun _ => hrest
  | _ => exact .bind (.throw _) fun _ => hrest

theorem parseNamespace_steps {expr : ParseExpr} (h : Steps R expr) (n : Nat) :
    Steps R (parseNamespace reg expr n) := by
  refine .bind (expectNext_steps _) fun _ => .bind parseSymbol_steps fun x => push_steps fun p s =>
    .step (.modifyGet fun _ => still (.of_eq rfl rfl rfl rfl rfl)) fun id => .step (peekEq_steps _) fun b => ?_
  have hrest : Leaves R p (do
      let _ ← parseUntil reg atRParen (parseMember reg expr n) n
      modify fun p => { p with current := none }
      popScope
      return id) :=
    .step (parseUntil_steps (parseMember_steps h n) n) fun _ =>
      .step (.modify fun _ => still (.of_eq rfl rfl rfl rfl rfl)) fun _ => .pop fun _ => .pure id
  cases b with
  | false => exact hrest
  | true => exact .step (expectNext_steps _) fun _ => hrest

theorem parseDefNamespace_steps {expr : ParseExpr} (h : Steps R expr) (n : Nat) :
    Steps R (parseDefNamespace reg expr n) := by
  refine .bind .get fun p => ?_
  by_cases hd : p.lexer.depth ≠ 1
  · rw [if_pos hd]
    exact .throw _
  rw [if_neg hd]
  refine .bind (parseNamespace_steps h n) fun id => .bind .get fun p => ?_
  cases p.namespaces[id]? with
  | none => exact .throw _
  | some ns =>
      exact .bind getScope_steps fun s => .bind (newLocal_steps s _ _) fun l =>
        .bind (addLocal_steps s l) fun _ => .bind (appendNamespace_steps _ id) fun _ =>
        appendToModule_steps ns

/-! ### Expressions -/

section

variable {expr : ParseExpr}

theorem parseOperands_steps (h : Steps R expr) (n : Nat) :
    Steps R (parseOperands reg expr n) := parseUntil_steps (nonnull_steps h) n

theorem parseCallExpr_steps (h : Steps R expr) (n : Nat) :
    Steps R (parseCallExpr reg expr n) := by
  have hargs (f : List Expr → Expr) :
      Steps R (do return f (← parseOperands reg expr n)) :=
    .bind (parseOperands_steps h n) fun _ => .pure _
  refine .bind (peekEq_steps _) fun b => ?_
  cases b with
  | false => exact .bind (nonnull_steps h) fun target => hargs (.callProc target)
  | true =>
      refine .bind parseSymbol_steps fun symbol => ?_
      split
      · exact hargs _
      · exact .bind (nonnull_steps h) fun _ => .pure _
      · cases reg.findClass symbol.name with
        | none => exact hargs _
        | some c => exact hargs _

theorem parseUnaryExpr_steps (h : Steps R expr) : Steps R (parseUnaryExpr reg expr) := by
  refine .bind Lexical.next fun t => ?_
  cases t.kind with
  | unaryOp op => exact .bind (nonnull_steps h) fun _ => .pure _
  | _ => exact .throw _

theorem parseBinaryRest_steps (h : Steps R expr) (op : BinaryOp) (n : Nat) (left : Expr) :
    Steps R (parseBinaryRest reg expr op n left) := by
  induction n generalizing left with
  | zero => exact .throw _
  | succ n ih =>
      refine .bind (peekEq_steps _) fun b => ?_
      cases b with
      | true => exact .pure _
      | false => exact .bind (nonnull_steps h) fun right => ih _

theorem parseBinaryExpr_steps (h : Steps R expr) (n : Nat) :
    Steps R (parseBinaryExpr reg expr n) := by
  refine .bind Lexical.next fun t => ?_
  cases t.kind with
  | binaryOp op =>
      exact .bind (nonnull_steps h) fun _ => .bind (nonnull_steps h) fun _ =>
        parseBinaryRest_steps h op n _
  | _ => exact .throw _

theorem parseListExpr_steps (h : Steps R expr) (n : Nat) :
    Steps R (parseListExpr reg expr n) := by
  refine .bind (nonnull_steps h) fun first => .bind (peekEq_steps _) fun b => ?_
  cases b with
  | false => exact .bind (parseOperands_steps h n) fun _ => .pure _
  | true =>
      refine .bind Lexical.next fun _ => ?_
      split
      · refine .bind h fun last => ?_
        split
        · exact .pure _
        · exact .throw _
      · exact .throw _

theorem parseBeginExpr_steps (h : Steps R expr) (n : Nat) :
    Steps R (parseBeginExpr reg expr n) :=
  .bind (expectNext_steps _) fun _ => push_steps fun _ _ =>
    .step (parseUntil_steps h n) fun _ => .pop fun _ => .pure _

theorem parseCondClauses_steps (h : Steps R expr) (n : Nat) :
    Steps R (parseCondClauses reg expr n) := by
  induction n with
  | zero => exact .throw _
  | succ n ih =>
      refine .bind (nonnull_steps h) fun a => .bind (peekEq_steps _) fun b => ?_
      cases b with
      | true => exact .pure _
      | false =>
          refine .bind (nonnull_steps h) fun e => .bind (peekEq_steps _) fun b => ?_
          cases b with
          | true => exact .pure _
          | false => exact .bind ih fun _ => .pure _

theorem parseCondExpr_steps (h : Steps R expr) (n : Nat) :
    Steps R (parseCondExpr reg expr n) :=
  .bind (expectNext_steps _) fun _ => .bind (parseCondClauses_steps h n) fun _ => .pure _

theorem parseRxOpExpr_steps (h : Steps R expr) (n : Nat) :
    Steps R (parseRxOpExpr reg expr n) :=
  .bind (expectNext_steps _) fun _ => .bind parseSymbol_steps fun _ =>
    .bind (parseExpressionList_steps h n true) fun _ => .bind (expectNext_steps _) fun _ => .pure _

theorem parseLetRxExpr_steps (h : Steps R expr) (n : Nat) :
    Steps R (parseLetRxExpr reg expr n) :=
  .bind (expectNext_steps _) fun _ => push_steps fun _ _ => .step (nonnull_steps h) fun _ =>
    .step (parseUntil_steps (parseRxOpExpr_steps h n) n) fun _ => .pop fun _ => .pure _

theorem parseBinding_steps (h : Steps R expr) (scope : ScopeId) :
    Steps R (parseBinding reg expr scope) := by
  refine .bind (expectNext_steps _) fun _ => .bind parseSymbol_steps fun x => .bind .get fun p => ?_
  have hrest : Steps R (do
      let value ← nonnull expr
      let l ← newLocal scope x.fullyQualifiedName
      addLocal scope l
      let _ ← expectNext reg .rParen
      return Expr.binding l value) :=
    .bind (nonnull_steps h) fun _ => .bind (newLocal_steps scope _ _) fun l =>
      .bind (addLocal_steps scope l) fun _ => .bind (expectNext_steps _) fun _ => .pure _
  by_cases hb : p.scopes.has scope x.fullyQualifiedName
  · rw [if_pos hb]
    exact .bind (.throw _) fun _ => hrest
  · rw [if_neg hb]
    exact hrest

theorem parseLetExpr_steps (h : Steps R expr) (n : Nat) :
    Steps R (parseLetExpr reg expr n) :=
  .bind (expectNext_steps _) fun _ => push_steps fun _ s => .step (expectNext_steps _) fun _ =>
    .step (parseUntil_steps (parseBinding_steps h s) n) fun _ => .step (expectNext_steps _) fun _ =>
    .step (parseExpressionList_steps h n true) fun _ => .pop fun _ => .pure _

theorem parseThrowExpr_steps (h : Steps R expr) : Steps R (parseThrowExpr reg expr) :=
  .bind (expectNext_steps _) fun _ => .bind (nonnull_steps h) fun _ => .pure _

theorem parseSetExpr_steps (h : Steps R expr) : Steps R (parseSetExpr reg expr) := by
  refine .bind (expectNext_steps _) fun _ => .bind parseSymbol_steps fun x => ?_
  split
  · exact .bind (nonnull_steps h) fun _ => .bind (nonnull_steps h) fun _ => .pure _
  · refine .bind getScope_steps fun s => .bind .get fun p => ?_
    cases p.scopes.lookup s x.fullyQualifiedName with
    | none => exact .throw _
    | some l => exact .bind (nonnull_steps h) fun _ => .pure _

theorem parseWhenExpr_steps (h : Steps R expr) (n : Nat) :
    Steps R (parseWhenExpr reg expr n) :=
  .bind (expectNext_steps _) fun _ => .bind (nonnull_steps h) fun _ =>
    .bind (parseExpressionList_steps h n true) fun _ => .pure _

theorem parseWhileExpr_steps (h : Steps R expr) (n : Nat) :
    Steps R (parseWhileExpr reg expr n) :=
  .bind (expectNext_steps _) fun _ => .bind (nonnull_steps h) fun _ =>
    .bind (parseExpressionList_steps h n true) fun _ => .pure _

theorem parseClass_steps (kind : Token.Kind) : Steps R (parseClass reg kind) := by
  refine .bind (expectNext_steps _) fun t => .bind (.lift _) fun x => ?_
  cases reg.findClass x.name with
  | none => exact .throw _
  | some c => exact .pure c

theorem parseCastExpr_steps (h : Steps R expr) : Steps R (parseCastExpr reg expr) :=
  .bind (parseClass_steps _) fun _ => .bind (nonnull_steps h) fun _ => .pure _

theorem parseInstanceOfExpr_steps (h : Steps R expr) :
    Steps R (parseInstanceOfExpr reg expr) :=
  .bind (parseClass_steps _) fun _ => .bind (nonnull_steps h) fun _ => .pure _

theorem parseNewExpr_steps (h : Steps R expr) (n : Nat) :
    Steps R (parseNewExpr reg expr n) := by
  refine .bind (parseClass_steps _) fun c => .bind (parseExpressionList_steps h n true) fun es =>
    .bind (peekEq_steps _) fun b => ?_
  cases b with
  | false => exact .throw _
  | true => exact .pure _

variable [Tracks reg R]

theorem parseClause_steps (h : Steps R expr) (n : Nat) :
    Steps R (parseClause reg expr n) :=
  .bind (expectNext_steps _) fun _ => .bind (Tracks.literal h) fun _ =>
    .bind (parseExpressionList_steps h n true) fun _ => .bind (expectNext_steps _) fun _ => .pure _

theorem parseCaseExpr_steps (h : Steps R expr) (n : Nat) :
    Steps R (parseCaseExpr reg expr n) :=
  .bind (expectNext_steps _) fun _ => .bind (nonnull_steps h) fun _ =>
    .bind (parseUntil_steps (parseClause_steps h n) n) fun _ => .pure _

theorem parseForm_steps (h : Steps R expr) (n : Nat) :
    Steps R (parseForm reg expr n) := by
  refine .bind peekKind_steps fun k => ?_
  cases k with
  | unaryOp => exact .map (parseUnaryExpr_steps h)
  | binaryOp => exact .map (parseBinaryExpr_steps h n)
  | lBrace | literalTrue | literalFalse | literalString | literalLong | literalDouble =>
      exact .map (parseListExpr_steps h n)
  | defNamespace => exact .bind (parseDefNamespace_steps h n) fun _ => .pure _
  | defMacro => exact .bind (parseMacroDef_steps h n) fun _ => .pure _
  | defNative => exact .bind (parseDefNative_steps n) fun _ => .pure _
  | define => exact parseDef_steps h
  | defn => exact .bind (parseDefn_steps h n) fun _ => .pure _
  | newExpr => exact .map (parseNewExpr_steps h n)
  | beginExpr => exact .map (parseBeginExpr_steps h n)
  | set => exact .map (parseSetExpr_steps h)
  | cond => exact .map (parseCondExpr_steps h n)
  | throwExpr => exact .map (parseThrowExpr_steps h)
  | fn => exact .map (parseLiteralLambda_steps h n (by decide))
  | lParen | dispatch | identifier => exact .map (parseCallExpr_steps h n)
  | quote => exact .map (parseQuotedExpr_steps n)
  | whenExpr => exact .map (parseWhenExpr_steps h n)
  | caseExpr => exact .map (parseCaseExpr_steps h n)
  | whileExpr => exact .map (parseWhileExpr_steps h n)
  | letRxExpr => exact .map (parseLetRxExpr_steps h n)
  | castExpr => exact .map (parseCastExpr_steps h)
  | instanceOfExpr => exact .map (parseInstanceOfExpr_steps h)
  | letExpr => exact .map (parseLetExpr_steps h n)
  | _ => exact .throw _

end

theorem parseImportExpr_steps : Steps R (parseImportExpr reg) := by
  refine .bind (expectNext_steps _) fun _ => .bind (expectNext_steps _) fun next =>
    .bind getScope_steps fun scope => .getBind fun p a q h => ?_
  cases hload : reg.findOrLoad next.text p.scopes with
  | none =>
      rw [hload] at h
      cases h
  | some r =>
      obtain ⟨m, scopes⟩ := r
      rw [hload] at h
      dsimp only at h
      have hadd := parents_addScope scopes scope m
      generalize scopes.addScope scope m = r at h hadd
      obtain ⟨ok, scopes'⟩ := r
      cases ok with
      | false => cases h
      | true =>
          cases h
          refine still (.withScopes ?_)
          rw [hadd]
          exact reg.findOrLoad_parents hload

variable [Tracks reg R]

/-- **What tokens, quoted data and literals keep, `ParseExpression` keeps.** -/
theorem parseExpression_steps (n : Nat) : Steps R (parseExpression reg n) := by
  induction n with
  | zero => exact .throw _
  | succ n ih =>
      refine .bind peekKind_steps fun k => ?_
      split
      · exact .map (Tracks.literal ih)
      · split
        · exact .map (parseQuotedExpr_steps n)
        · exact .bind (expectNext_steps _) fun _ => .bind (parseForm_steps ih n) fun _ =>
            .bind (expectNext_steps _) fun _ => .pure _

/-! ### Scripts and modules -/

theorem parseScriptForm_steps {expr : ParseExpr} (h : Steps R expr) (n : Nat) :
    Steps R (parseScriptForm reg expr n) := by
  refine .bind peekKind_steps fun k => ?_
  cases k with
  | unaryOp => exact .map (parseUnaryExpr_steps h)
  | binaryOp => exact .map (parseBinaryExpr_steps h n)
  | lBrace | literalTrue | literalFalse | literalString | literalLong | literalDouble =>
      exact .map (parseListExpr_steps h n)
  | defNamespace => exact .bind (parseDefNamespace_steps h n) fun _ => .pure _
  | define => exact parseDef_steps h
  | defn => exact .bind (parseDefn_steps h n) fun _ => .pure _
  | defMacro => exact .bind (parseMacroDef_steps h n) fun _ => .pure _
  | beginExpr => exact .map (parseBeginExpr_steps h n)
  | set => exact .map (parseSetExpr_steps h)
  | cond => exact .map (parseCondExpr_steps h n)
  | throwExpr => exact .map (parseThrowExpr_steps h)
  | fn => exact .map (parseLiteralLambda_steps h n (by decide))
  | lParen | dispatch | identifier => exact .map (parseCallExpr_steps h n)
  | quote => exact .map (parseQuotedExpr_steps n)
  | whenExpr => exact .map (parseWhenExpr_steps h n)
  | caseExpr => exact .map (parseCaseExpr_steps h n)
  | whileExpr => exact .map (parseWhileExpr_steps h n)
  | letExpr => exact .map (parseLetExpr_steps h n)
  | letRxExpr => exact .map (parseLetRxExpr_steps h n)
  | castExpr => exact .map (parseCastExpr_steps h)
  | instanceOfExpr => exact .map (parseInstanceOfExpr_steps h)
  | importExpr => exact .map parseImportExpr_steps
  | _ => exact .throw _

theorem parseAtom_steps {expr : ParseExpr} (h : Steps R expr) (n : Nat) :
    Steps R (parseAtom reg expr n) := by
  refine .bind peekKind_steps fun k => ?_
  split
  · exact .bind (Tracks.literal h) fun _ => .pure _
  · split
    · exact .bind (parseQuotedExpr_steps n) fun _ => .pure _
    · exact .pure _

theorem parseRound_steps {expr : ParseExpr} (h : Steps R expr) (n : Nat) :
    Steps R (parseRound reg expr n) :=
  .bind (parseAtom_steps h n) fun _ => .bind (expectNext_steps _) fun _ =>
    .bind (parseScriptForm_steps h n) fun _ => .bind (expectNext_steps _) fun _ => .pure _

theorem parseRounds_steps {expr : ParseExpr} (h : Steps R expr) (n k : Nat) :
    Steps R (parseRounds reg expr n k) := by
  induction k with
  | zero => exact .throw _
  | succ k ih =>
      refine .bind (peekEq_steps _) fun b => ?_
      cases b with
      | true => exact .pure _
      | false => exact .bind (parseRound_steps h n) fun _ => .bind ih fun _ => .pure _

theorem parseScript_steps (n k : Nat) : Steps R (parseScript reg n k) := by
  rw [parseScript, newScript, bind_assoc]
  refine push_steps fun p scope => ?_
  rw [bind_assoc]
  refine .step (.modify fun _ => still (.of_eq rfl rfl rfl rfl rfl)) fun _ => ?_
  rw [pure_bind]
  exact .step (parseRounds_steps (parseExpression_steps n) n k) fun _ => .pop fun _ => .pure _

theorem parseModule_steps (name : String) (n k : Nat) :
    Steps R (parseModule reg name n k) := by
  rw [parseModule, newModule, bind_assoc]
  refine push_steps fun p scope => .step (.modifyGet fun _ => still (.of_eq rfl rfl rfl rfl rfl)) fun id =>
    .step (parseUntil_steps (parseExpression_steps n) k) fun body => ?_
  have hrest : Leaves R p (do
      popScope
      modify fun p => { p with module := none }
      return id) :=
    .pop fun _ => .bind (.modify fun _ => still (.of_eq rfl rfl rfl rfl rfl)) fun _ => .pure id
  cases hb : body.reduceOption.isEmpty with
  | true => exact hrest
  | false => exact .step (createInitFunc_steps id _) fun _ => hrest

end Tokens

/-! ### Relations that tokens have no part in -/

/-- A relation that only the scopes and the lambdas decide. -/
class Blind (R : Parser → Parser → Prop) : Prop where
  blind : ∀ {p q}, q.scope = p.scope → q.scopes = p.scopes → q.lambdas = p.lambdas → R p q

/-- A relation that holds as well when the parameters of a dispatch literal begin and end. -/
class Dispatching (R : Parser → Parser → Prop) : Prop where
  dispatched : ∀ rhs, Steps R (setDispatched rhs)

instance [Blind R] : Lexical reg R where
  next p t q h := by
    rcases nextToken_eq_ok h with ⟨-, rfl⟩ | ⟨-, l, -, rfl⟩ <;> exact Blind.blind rfl rfl rfl
  peek p t q h := by
    rcases peekToken_eq_ok h with ⟨-, rfl⟩ | ⟨-, l, -, rfl⟩ <;> exact Blind.blind rfl rfl rfl
  quoted _ _ := Blind.blind rfl rfl rfl
  args _ := .modify fun _ => Blind.blind rfl rfl rfl

instance [Blind R] : Dispatching R where
  dispatched _ := .modify fun _ => Blind.blind rfl rfl rfl

section Dispatching

variable [Lexical reg R] [Framed R] [Dispatching R] {expr : ParseExpr}

theorem parseDispatch_steps (h : Steps R expr) (n : Nat) : Steps R (parseDispatch reg expr n) :=
  .bind newLambda_steps fun id => push_steps fun _ s =>
    .step (expectNext_steps _) fun _ => .step (Dispatching.dispatched _) fun _ =>
    .step (newLocal_steps s _ _) fun l => .step (addLocal_steps s l) fun _ =>
    .step (parseExpressionList_steps h n true) fun _ => .step .get fun _ =>
    .step (bindParameters_steps s _) fun _ => .step (setLambda_steps id _) fun _ =>
    .pop fun _ => .bind (Dispatching.dispatched _) fun _ => .bind (expectNext_steps _) fun _ =>
    .pure id

theorem parseAnyLambda_steps (h : Steps R expr) (n : Nat) (kind : Token.Kind) :
    Steps R (parseLambda reg expr n kind) := by
  by_cases hk : kind = .dispatch
  · rw [parseLambda, if_pos hk]
    exact parseDispatch_steps h n
  · exact parseLambda_steps h n hk

theorem parseAnyLiteralLambda_steps (h : Steps R expr) (n : Nat) (kind : Token.Kind) :
    Steps R (parseLiteralLambda reg expr n kind) :=
  .bind (parseAnyLambda_steps h n kind) fun _ => .pure _

instance : Tracks reg R where
  literal {expr n} h := by
    refine .bind peekKind_steps fun k => ?_
    split
    · exact parseAnyLiteralLambda_steps h n k
    · split
      · exact parseMap_steps h n
      · exact .bind parseLiteralValue_steps fun _ => .pure _

end Dispatching

end Parser

end Gel
