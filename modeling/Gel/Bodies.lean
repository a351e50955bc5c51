import Gel.Sequencing
import Gel.Scoping

/-!
# Bodies — what lambdas and scripts return

The code of a body over the core: its expressions are compiled by value visitors, one after the
other, and a return stands behind the last one.  `VisitScript` pushes a null in front of the return
whenever the last visitor has no value; `VisitLambda` does not when its code ends in a join.

* `lambda_returns`, `script_returns`: what is on top of the stack at the return.
* `sequencing_iff`: when the sequencing forms have the value of their last expression.
-/

namespace Gel

open FlowGraphCompiler FlowGraphBuilder Layout Interpreter

/-! ### Bodies -/

/-- The last expression of a body. -/
inductive Last where
  | core (e : CoreExpr)
  | when (test : CoreExpr) (body : List CoreExpr)

namespace Last

def toExpr : Last → Expr
  | core e => e.toExpr
  | .when test body => (Sequence.when test body).toExpr

/-- The values that are evaluated last: that of a core expression, or those of the body of a `when`
whose test is true. -/
def eval (env : Env) (apply : Application) : Last → Memory → Option (List Value × Memory)
  | core e, m => CoreExpr.evalAll env apply [e] m
  | .when test body, m => (Sequence.when test body).eval env apply m

/-- The values that stay on the stack. -/
def kept : Last → List Value → List Value
  | core _, vs => vs
  | .when _ body, vs => CoreExpr.kept body vs

/-- The value visitor has a definition for the expression's value. -/
def hasValue : Last → Bool
  | core (.cond ..) | .when .. => false
  | core _ => true

end Last

/-- The body of a lambda or a script: core expressions, and a last one that may be a `when`. -/
structure Body where
  init : List CoreExpr
  last : Last

namespace Body

def toExprs (p : Body) : List Expr := CoreExpr.toExprs p.init ++ [p.last.toExpr]

/-- The values of the expressions in front of the last one, and those of the last one. -/
def eval (env : Env) (apply : Application) (p : Body) (m : Memory) :
    Option (List Value × List Value × Memory) := do
  let (vs, m) ← CoreExpr.evalAll env apply p.init m
  let (rs, m) ← p.last.eval env apply m
  return (vs, rs, m)

end Body

/-! ### The code of a body -/

/-- The code of the last expression of a body. -/
structure LastFor (cfg : Config) (l : Last) (b : Builder) (v : Visitor) (b' : Builder)
    (c : List Item) : Prop where
  run : visit cfg .value l.toExpr {} b = some (v, b')
  built : Built Anywhere b v b' c
  value : v.value.isNone = !l.hasValue
  join : l.hasValue = false → ∃ j, v.exit = some j ∧ b'.graph.isJoinEntry j = true
  computes : ∀ (host : Host) {callN a env apply}, ReadsAs callN a apply → ∀ {m},
    env.Holds b.scopes b.scope a m → ∀ s {rs m'}, l.eval env apply m = some (rs, m') →
      Computes host callN a c b.numBlocks b'.numBlocks s m ((l.kept rs).reverse ++ s) m'

/-- A `cond` has no value of its own; its code ends in a join. -/
theorem CodeFor.join {cfg : Config} {t x y : CoreExpr} {b b' : Builder} {v : Visitor}
    {c : List Item} (hf : b.Fresh) (h : CodeFor cfg (.cond t x y) b v b' c) :
    v.value = none ∧ ∃ j, v.exit = some j ∧ b'.graph.isJoinEntry j = true := by
  obtain ⟨v', b'', k, h'⟩ : ∃ v b' k, CondFor cfg .value [(t, [x])] (some y) b v b' k :=
    condFor (List.cons_ne_nil _ _) hf (by simp [CoreExpr.compiles]) (by simp [CoreExpr.compiles])
  cases h.run.symm.trans h'.run
  exact ⟨h'.value, k.join, h'.exit, h'.isJoin⟩

/-- Every other core expression has one. -/
theorem CodeFor.value_of_hasValue {cfg : Config} {e : CoreExpr} {b b' : Builder} {v : Visitor}
    {c : List Item} (he : (Last.core e).hasValue = true) (h : CodeFor cfg e b v b' c) :
    v.value.isSome = true := by
  rcases h.value with ⟨t, x, y, rfl, -⟩ | hsome
  · cases he
  · exact hsome

theorem lastFor (cfg : Config) (l : Last) {b : Builder} (hf : b.Fresh) :
    ∃ v b' c, LastFor cfg l b v b' c := by
  cases l with
  | core e =>
      obtain ⟨v, b', c, h⟩ := (CoreExpr.compiles cfg e).code b hf
      have hcomp : ∀ (host : Host) {callN a env apply}, ReadsAs callN a apply → ∀ {m},
          env.Holds b.scopes b.scope a m → ∀ s {rs m'},
          (Last.core e).eval env apply m = some (rs, m') →
          Computes host callN a c b.numBlocks b'.numBlocks s m (rs.reverse ++ s) m' := by
        intro host callN a env apply hr m hm s rs m' he
        obtain ⟨r, m₁, ws, hv, hws, rfl⟩ := CoreExpr.evalAll_cons.mp he
        cases hws
        exact h.computes host hr hm s hv
      cases hval : (Last.core e).hasValue with
      | true =>
          refine ⟨v, b', c, h.run, h.built, ?_, by simp [hval], hcomp⟩
          simp [hval, h.value_of_hasValue hval]
      | false =>
          obtain ⟨t, x, y, rfl⟩ : ∃ t x y, e = .cond t x y := by
            cases e with
            | cond t x y => exact ⟨t, x, y, rfl⟩
            | _ => cases hval
          obtain ⟨hnone, hj⟩ := h.join hf
          exact ⟨v, b', c, h.run, h.built, by rw [hnone]; rfl, fun _ => hj, hcomp⟩
  | when test body =>
      obtain ⟨v, b', c, h⟩ := sequenceFor cfg (.when test body) hf
      refine ⟨v, b', c, h.run, h.built, ?_, fun _ => h.join test body rfl, h.computes⟩
      rw [h.value]
      rfl

/-- What is emitted for the expressions of a body. -/
structure BodyFor (p : Body) (names : Names) (c : List Item) (lo hi : BlockId) : Prop where
  le : lo ≤ hi
  computes : ∀ (host : Host) {callN a env apply}, ReadsAs callN a apply → ∀ {m},
    env.Holds names.1 names.2 a m → ∀ {vs rs m'}, p.eval env apply m = some (vs, rs, m') →
      Computes host callN a c lo hi [] m (vs ++ p.last.kept rs).reverse m' ∧ a.Keeps m m'

section Body

variable {cfg : Config} {b b₁ : Builder} {v v₁ : Visitor} {es : List Expr} {e : Expr}

/-- The argument loop runs over an expression as long as the visitor is open. -/
theorem visitArgs_cons_eq_some (h : visitArgs cfg (e :: es) v b = some (v₁, b₁))
    (ho : v₁.isOpen = true) : v.isOpen = true ∧ ∃ f b₂ v₂ b₃, visit cfg .value e {} b = some (f, b₂) ∧
      append v f b₂ = some (v₂, b₃) ∧ visitArgs cfg es v₂ b₃ = some (v₁, b₁) := by
  rw [visitArgs] at h
  by_cases hv : v.isOpen = true
  · rw [if_pos hv] at h
    obtain ⟨f, b₂, h₁, h⟩ := Partial.bind_eq_some.mp h
    obtain ⟨v₂, b₃, h₂, h⟩ := Partial.bind_eq_some.mp h
    exact ⟨hv, f, b₂, v₂, b₃, h₁, h₂, h⟩
  · rw [if_neg hv] at h
    cases h
    exact absurd ho hv

/-- The loop over a script's body, up to its last expression. -/
theorem visitScriptBody_init {r : Option InstrId} (h : visitArgs cfg es v b = some (v₁, b₁))
    (ho : v₁.isOpen = true) : visitScriptBody cfg (es ++ [e]) v r b = (do
      let forValue ← visit cfg .value e {}
      return (← append v₁ forValue, forValue.value) : Build (Visitor × Option InstrId)) b₁ := by
  induction es generalizing v b r with
  | nil =>
      rw [visitArgs_nil] at h
      cases h
      rw [List.nil_append, visitScriptBody, if_pos ho]
      simp only [visitScriptBody]
  | cons x es ih =>
      obtain ⟨hv, f, b₂, v₂, b₃, h₁, h₂, h⟩ := visitArgs_cons_eq_some h ho
      rw [List.cons_append, visitScriptBody, if_pos hv, Partial.bind_run h₁, Partial.bind_run h₂]
      exact ih h

/-- The loop over a lambda's body, up to its last expression. -/
theorem visitLambdaBody_init (h : visitArgs cfg es v b = some (v₁, b₁)) (ho : v₁.isOpen = true) :
    visitLambdaBody cfg (es ++ [e]) v b = visitLambdaBody cfg [e] v₁ b₁ := by
  induction es generalizing v b with
  | nil =>
      rw [visitArgs_nil] at h
      cases h
      rfl
  | cons x es ih =>
      obtain ⟨hv, f, b₂, v₂, b₃, h₁, h₂, h⟩ := visitArgs_cons_eq_some h ho
      have hne : (es ++ [e]).isEmpty = false := by cases es <;> rfl
      rw [List.cons_append, visitLambdaBody, if_pos hv, Partial.bind_run h₁, Partial.bind_run h₂, hne]
      exact ih h

theorem Last.eval_keeps {callN : CallWithNArgs} {a : Activation} {env : Env} {apply : Application}
    {m m' : Memory} {rs : List Value} (hr : ReadsAs callN a apply) {l : Last}
    (h : l.eval env apply m = some (rs, m')) : a.Keeps m m' := by
  cases l with
  | core e => exact CoreExpr.evalAll_keeps hr h
  | when test body =>
      simp only [Last.eval, Sequence.eval, Option.bind_eq_bind, Option.bind_eq_some_iff] at h
      obtain ⟨⟨r, m₁⟩, hv, hsel⟩ := h
      have hk := CoreExpr.eval_keeps hr hv
      cases htruth : r.truth with
      | true =>
          rw [if_pos htruth] at hsel
          exact hk.trans (CoreExpr.evalAll_keeps hr hsel)
      | false =>
          rw [if_neg (by simp [htruth])] at hsel
          cases hsel
          exact hk

/-- `Append` only links. -/
theorem append_instrs {f v' : Visitor} {b' : Builder} (h : append v f b = some (v', b')) :
    b'.graph.instrs = b.graph.instrs := by
  cases hf : f.entry with
  | none =>
      rw [append, hf] at h
      cases h
      rfl
  | some i =>
      rw [append, hf] at h
      by_cases hv : v.isEmpty = true
      · simp only [hv, if_true] at h
        cases h
        rfl
      · cases hx : v.exit with
        | none =>
            simp only [hv, hx] at h
            cases h
        | some x =>
            simp only [hv, hx] at h
            cases h
            rfl

/-- **The expressions of a body**, up to what is done for the return. -/
theorem bodyFor (cfg : Config) (p : Body) (hf : b.Fresh) :
    ∃ v₁ b₁ f b₂ v₂ b₃ c, visitArgs cfg (CoreExpr.toExprs p.init) {} b = some (v₁, b₁) ∧
      v₁.isOpen = true ∧ visit cfg .value p.last.toExpr {} b₁ = some (f, b₂) ∧
      append v₁ f b₂ = some (v₂, b₃) ∧ f.value.isNone = !p.last.hasValue ∧
      (p.last.hasValue = false → ∃ j, f.exit = some j ∧ b₃.graph.isJoinEntry j = true) ∧
      Built Anywhere b v₂ b₃ c ∧ BodyFor p (b.scopes, b.scope) c b.numBlocks b₃.numBlocks := by
  obtain ⟨v₁, b₁, c₁, h₁⟩ : ∃ v' b' c', CodeForAll cfg p.init b {} [] b v' b' c' :=
    codeForAll (fun e _ => (CoreExpr.compiles cfg e).code) (.start hf)
  obtain ⟨f, b₂, c₂, h₂⟩ := lastFor cfg p.last h₁.built.fresh
  obtain ⟨v₂, b₃, hrun₃, -, -, hblocks₃, hbuilt₃⟩ := h₁.built.append h₂.built
  have hle : b₁.numBlocks ≤ b₃.numBlocks := hblocks₃ ▸ h₂.built.grown.blocks
  refine ⟨v₁, b₁, f, b₂, v₂, b₃, c₁ ++ c₂, h₁.run, h₁.built.isOpen, h₂.run, hrun₃, h₂.value, ?_,
    by simpa using hbuilt₃, ?_, ?_⟩
  · intro hval
    obtain ⟨j, hj, hjoin⟩ := h₂.join hval
    refine ⟨j, hj, ?_⟩
    rw [Graph.isJoinEntry, Graph.instr?] at hjoin ⊢
    rwa [append_instrs hrun₃]
  · exact h₁.blocks.trans hle
  · intro host callN a env apply hr m hm vs rs m' he
    simp only [Body.eval, Option.bind_eq_bind, Option.bind_eq_some_iff, Option.pure_def,
      Option.some.injEq, Prod.mk.injEq] at he
    obtain ⟨⟨ws, m₁⟩, hvs, ⟨ts, m₂⟩, hrs, rfl, rfl, rfl⟩ := he
    have hk := CoreExpr.evalAll_keeps hr hvs
    have hm₁ : env.Holds b₁.scopes b₁.scope a m₁ := by
      rw [h₁.built.grown.scopes, h₁.built.grown.scope]
      exact hm.keeps hk
    have hlast : Computes host callN a c₂ b₁.numBlocks b₃.numBlocks (ws.reverse ++ []) m₁ _ m₂ :=
      hblocks₃ ▸ h₂.computes host hr hm₁ (ws.reverse ++ []) hrs
    have hall := (h₁.computes host hr hm [] hvs).append hlast hk h₁.blocks hle
      fun l h₁' _ => h₁.labels.not_bind (.inr h₁')
    exact ⟨by simpa using hall, hk.trans (Last.eval_keeps hr hrs)⟩

/-- What is emitted for a script or a lambda, behind the entries of the graph: `nulls` is pushed in
front of the return. -/
def ProcedureFor (p : Body) (names : Names) (nulls : List Value) (c : List Item) (lo hi : BlockId) :
    Prop :=
  ∃ body pushes i, c = body ++ pushes ++ [.visit i, .code .ret] ∧ BodyFor p names body lo hi ∧
    ∀ (host : Host) (callN : CallWithNArgs) (a : Activation) lo hi s m,
      Computes host callN a pushes lo hi s m (nulls ++ s) m

/-- **The code of a script.** -/
theorem scriptFor (cfg : Config) (p : Body) (hf : b.Fresh) :
    ∃ v' b' c, visitScript cfg p.toExprs {} b = some (v', b') ∧ Built Anywhere b v' b' c ∧
      ProcedureFor p (b.scopes, b.scope) (if p.last.hasValue then [] else [.null]) c b.numBlocks
        b'.numBlocks := by
  obtain ⟨v₁, b₁, f, b₂, v₂, b₃, c, hargs, hopen, hlast, happ, hval, -, hbuilt, hbody⟩ :=
    bodyFor cfg p hf
  have hloop : visitScriptBody cfg p.toExprs {} none b = some ((v₂, f.value), b₃) := by
    rw [Body.toExprs, visitScriptBody_init hargs hopen, Partial.bind_run hlast,
      Partial.bind_run happ]
    rfl
  cases hv : p.last.hasValue with
  | true =>
      obtain ⟨v₄, b₄, hrun₄, -, -, -, -, hblocks₄, hbuilt₄⟩ :=
        hbuilt.addNew (x := .ret) (l := [.code .ret]) fun _ _ => rfl
      rw [← hblocks₄] at hbody
      refine ⟨v₄, b₄, _, ?_, hbuilt₄, c, [], b₃.graph.size, by simp, hbody,
        fun _ _ _ _ _ _ _ => .nil _ _ _ _⟩
      rw [visitScript, Partial.bind_run hloop]
      simp only [hval, hv, Bool.not_true, Bool.false_eq_true, if_false, pure_bind]
      exact hrun₄
  | false =>
      obtain ⟨v₄, b₄, hrun₄, -, -, -, -, hblocks₄, hbuilt₄⟩ :=
        hbuilt.addNew (x := .constant .null) (l := [.code (.push .null)]) fun _ _ => rfl
      obtain ⟨v₅, b₅, hrun₅, -, -, -, -, hblocks₅, hbuilt₅⟩ :=
        hbuilt₄.addNew (x := .ret) (l := [.code .ret]) fun _ _ => rfl
      rw [← hblocks₄, ← hblocks₅] at hbody
      refine ⟨v₅, b₅, _, ?_, hbuilt₅, c, [.visit b₃.graph.size, .code (.push .null)],
        b₄.graph.size, by simp,
        hbody, fun _ _ a _ _ s m => .instr rfl nofun fun p q => a.exec_push .null⟩
      rw [visitScript, Partial.bind_run hloop]
      simp only [hval, hv, Bool.not_false, if_true]
      exact (Partial.bind_run hrun₄).trans hrun₅

/-- **The code of a lambda's body.** -/
theorem lambdaBodyFor (cfg : Config) (p : Body) (hf : b.Fresh) :
    ∃ v' b' c, visitLambdaBody cfg p.toExprs {} b = some (v', b') ∧ Built Anywhere b v' b' c ∧
      ProcedureFor p (b.scopes, b.scope) [] c b.numBlocks b'.numBlocks := by
  obtain ⟨v₁, b₁, f, b₂, v₂, b₃, c, hargs, hopen, hlast, happ, hval, hjoin, hbuilt, hbody⟩ :=
    bodyFor cfg p hf
  obtain ⟨v₄, b₄, hrun₄, -, -, -, -, hblocks₄, hbuilt₄⟩ :=
    hbuilt.addNew (x := .ret) (l := [.code .ret]) fun _ _ => rfl
  rw [← hblocks₄] at hbody
  refine ⟨v₄, b₄, _, ?_, hbuilt₄, c, [], b₃.graph.size, by simp, hbody,
    fun _ _ _ _ _ _ _ => .nil _ _ _ _⟩
  rw [Body.toExprs, visitLambdaBody_init hargs hopen, visitLambdaBody, if_pos hopen,
    Partial.bind_run hlast, Partial.bind_run happ]
  cases hv : p.last.hasValue with
  | true =>
      simp only [List.isEmpty_nil, if_true, hval, hv, Bool.not_true, Bool.false_eq_true, if_false,
        pure_bind, visitLambdaBody, bind_pure]
      exact hrun₄
  | false =>
      obtain ⟨j, hj, hjoin⟩ := hjoin hv
      simp only [List.isEmpty_nil, if_true, hval, hv, Bool.not_false, hj, visitLambdaBody, bind_pure]
      rw [Partial.get_bind, if_pos hjoin, pure_bind]
      exact hrun₄

end Body

/-! ### Whole procedures -/

/-- The scope a lambda's body is compiled in: a new one that holds copies of the lambda's variables,
where they fit. -/
def lambdaNames (m : Scopes) (s : ScopeId) : Option ScopeId → Option Names
  | none => some ((m.newScope (some s)).2, (m.newScope (some s)).1)
  | some e =>
      let r := (m.newScope (some s)).2.addScope (m.newScope (some s)).1 e
      if r.1 then some (r.2, (m.newScope (some s)).1) else none

theorem parentOf_newScope (m : Scopes) (s : ScopeId) :
    (m.newScope (some s)).2.parentOf (m.newScope (some s)).1 = some s := by
  simp [Scopes.newScope, Scopes.parentOf]

theorem parentOf_lambdaNames {m : Scopes} {s : ScopeId} {scope : Option ScopeId} {names : Names}
    (h : lambdaNames m s scope = some names) : names.1.parentOf names.2 = some s := by
  cases scope with
  | none =>
      cases h
      exact parentOf_newScope m s
  | some e =>
      rw [lambdaNames] at h
      split at h
      · cases h
        have hlt : (m.newScope (some s)).1 < (m.newScope (some s)).2.scopes.length := by
          simp [Scopes.newScope]
        rw [(Scopes.Extended.addScope _ _ _).parentOf hlt]
        exact parentOf_newScope m s
      · cases h

theorem pushScope_run (b : Builder) : FlowGraphBuilder.pushScope b = some ((), { b with
    scope := (b.scopes.newScope (some b.scope)).1
    scopes := (b.scopes.newScope (some b.scope)).2 }) := rfl

/-- `VisitLambda` visits the body in that scope. -/
theorem visitLambda_run {cfg : Config} {scope : Option ScopeId} {body : List Expr} {v : Visitor}
    {b : Builder} {names : Names} (h : lambdaNames b.scopes b.scope scope = some names) :
    visitLambda cfg scope body v b = (do
      let v ← visitLambdaBody cfg body v
      popScope
      return v : Build Visitor) { b with scopes := names.1, scope := names.2 } := by
  cases scope with
  | none =>
      cases h
      rfl
  | some e =>
      rw [lambdaNames] at h
      split at h
      next hok =>
          cases h
          rw [visitLambda, Partial.bind_run (pushScope_run b)]
          simp only []
          rw [Partial.get_bind]
          simp only [hok]
          rfl
      next => cases h

/-- The emission of the graph that is built around a visitor. -/
def Compiled (visitor : Visitor → Build Visitor) (b : Builder) (c : List Item) : Prop :=
  ∃ entry b', build visitor b = some (entry, b') ∧ Emits b'.graph (some entry) c

theorem Compiled.functional {visitor : Visitor → Build Visitor} {b : Builder} {c c' : List Item}
    (h : Compiled visitor b c) (h' : Compiled visitor b c') : c = c' := by
  obtain ⟨entry, b₁, hrun, hem⟩ := h
  obtain ⟨entry', b₂, hrun', hem'⟩ := h'
  cases hrun.symm.trans hrun'
  exact hem.functional hem'

/-- The graph is linked in the same way in every scope. -/
theorem appendFragment_scope {i : InstrId} {v : Visitor} {b b' : Builder} (s : ScopeId)
    (h : appendFragment i v b = some ((), b')) :
    appendFragment i v { b with scope := s } = some ((), { b' with scope := s }) := by
  cases hv : v.entry with
  | none =>
      rw [appendFragment, hv] at h ⊢
      cases h
      rfl
  | some e =>
      rw [appendFragment, hv] at h ⊢
      simp only [appendInstr] at h ⊢
      rw [Partial.get_bind] at h ⊢
      cases hg : b.graph.append i e with
      | none =>
          simp only [hg] at h
          cases h
      | some g =>
          simp only [hg] at h ⊢
          cases h
          rfl

theorem appendInstr_scope {i j : InstrId} {b b' : Builder} (s : ScopeId)
    (h : appendInstr i j b = some ((), b')) :
    appendInstr i j { b with scope := s } = some ((), { b' with scope := s }) :=
  appendFragment_scope (v := { entry := some j }) s h

/-- **A lambda** is compiled like its body in the lambda's scope. -/
theorem compiled_lambda {cfg : Config} {scope : Option ScopeId} {body : List Expr} {b : Builder}
    {names : Names} {c : List Item} (h : lambdaNames b.scopes b.scope scope = some names)
    (hscopes : ∀ v b', visitLambdaBody cfg body {} { b.entered with
      scopes := names.1, scope := names.2 } = some (v, b') →
        b'.scopes = names.1 ∧ b'.scope = names.2)
    (hc : Compiled (visitLambdaBody cfg body) { b with scopes := names.1, scope := names.2 } c) :
    Compiled (visitLambda cfg scope body) b c := by
  obtain ⟨entry, b', hrun, hem⟩ := hc
  have hbuild : ∀ (visitor : Visitor → Build Visitor) (b : Builder), build visitor b = (do
      appendFragment (b.allocBlock .graphEntry).graph.size (← visitor {})
      appendInstr b.graph.size (b.allocBlock .graphEntry).graph.size
      return b.graph.size : Build InstrId) b.entered := fun _ _ => rfl
  rw [hbuild] at hrun
  obtain ⟨v, b₁, hbody, hrun⟩ := Partial.bind_eq_some.mp hrun
  obtain ⟨⟨⟩, b₂, happ, hrun⟩ := Partial.bind_eq_some.mp hrun
  obtain ⟨⟨⟩, b₃, happ', hrun⟩ := Partial.bind_eq_some.mp hrun
  cases hrun
  have hparent : b₁.scopes.parentOf b₁.scope = some b.scope := by
    obtain ⟨h₁, h₂⟩ := hscopes v b₁ hbody
    rw [h₁, h₂]
    exact parentOf_lambdaNames h
  have hpop : popScope b₁ = some ((), { b₁ with scope := b.scope }) := by
    rw [popScope, Partial.get_bind]
    simp only [hparent]
    rfl
  have hvisit : visitLambda cfg scope body {} b.entered
      = some (v, { b₁ with scope := b.scope }) := by
    rw [visitLambda_run (show lambdaNames b.entered.scopes b.entered.scope scope = some names from h)]
    refine (Partial.bind_run hbody).trans ?_
    rw [Partial.bind_run hpop]
    rfl
  refine ⟨b.graph.size, { b' with scope := b.scope }, ?_, hem⟩
  rw [hbuild, Partial.bind_run hvisit]
  refine (Partial.bind_run (appendFragment_scope b.scope happ)).trans ?_
  exact (Partial.bind_run (appendInstr_scope b.scope happ')).trans rfl

/-- **The code of a procedure**: the entries of the graph, and the body. -/
theorem compiled_body {visitor : Visitor → Build Visitor} {b b' : Builder} {v : Visitor}
    {c : List Item} (hf : b.Fresh) (hrun : visitor {} b.entered = some (v, b'))
    (hbuilt : Built Anywhere b.entered v b' c) :
    Compiled visitor b (.visit b.graph.size :: .visit (b.graph.size + 1) :: c) := by
  obtain ⟨b'', own, hbuild, hblock⟩ := build_block hf hrun hbuilt
  exact ⟨_, b'', hbuild, hblock.emits _ trivial (.refl _ _ _)⟩

/-- The code of a script. -/
theorem compiled_script (cfg : Config) (p : Body) {b : Builder} (hf : b.Fresh) :
    ∃ g t c lo hi, Compiled (visitScript cfg p.toExprs) b (.visit g :: .visit t :: c) ∧
      ProcedureFor p (b.scopes, b.scope) (if p.last.hasValue then [] else [.null]) c lo hi := by
  obtain ⟨v', b', c, hrun, hbuilt, hproc⟩ := scriptFor cfg p (Builder.fresh_entered hf)
  exact ⟨_, _, c, _, _, compiled_body hf hrun hbuilt, hproc⟩

/-- The code of a lambda. -/
theorem compiled_lambda_body (cfg : Config) (p : Body) {b : Builder} {scope : Option ScopeId}
    {names : Names} (hf : b.Fresh) (h : lambdaNames b.scopes b.scope scope = some names) :
    ∃ g t c lo hi, Compiled (visitLambda cfg scope p.toExprs) b (.visit g :: .visit t :: c) ∧
      ProcedureFor p names [] c lo hi := by
  have hf' : Builder.Fresh { b with scopes := names.1, scope := names.2 } := hf
  obtain ⟨v', b', c, hrun, hbuilt, hproc⟩ := lambdaBodyFor cfg p (Builder.fresh_entered hf')
  refine ⟨_, _, c, _, _, compiled_lambda h (fun v b'' hrun' => ?_) (compiled_body hf' hrun hbuilt),
    hproc⟩
  cases hrun.symm.trans hrun'
  exact ⟨hbuilt.grown.scopes, hbuilt.grown.scope⟩

/-! ### What a procedure returns -/

/-- The procedure runs from its beginning, on an empty stack, to a return; there the value is on top
of the stack, or null when the stack is empty. -/
def RunsToReturn (host : Host) (callN : CallWithNArgs) (a : Activation) (m : Memory) (v : Value)
    (m' : Memory) : Prop :=
  ∃ ps q s next, Runs.Run (Steps host callN a.region) ps (a.state 0 [] m) (a.state q s m') ∧
    fetch a.region (a.state q s m') = some (q, .ret, next) ∧ s.headD .null = v

section Returns

variable {host : Host} {callN : CallWithNArgs} {a : Activation} {env : Env} {apply : Application}
  {m m' m'' : Memory} {v w : Value}

/-- Nothing is executed behind a return. -/
theorem not_steps_of_ret {rt rt' : Runtime} {q p next : Nat}
    (h : fetch a.region rt = some (q, .ret, next)) : ¬ Steps host callN a.region rt p rt' := by
  rintro ⟨-, hs⟩
  rw [step, h] at hs
  simp only [if_true] at hs
  cases hev : host.runEvents { rt with current := some ⟨a.region, next⟩ } with
  | error e =>
      rw [hev] at hs
      cases hs
  | ok rt'' =>
      rw [hev] at hs
      cases hs

/-- **A procedure returns one value.** -/
theorem RunsToReturn.unique (h : RunsToReturn host callN a m v m') (h' : RunsToReturn host callN a m w m'') :
    v = w ∧ m' = m'' := by
  obtain ⟨ps, q, s, next, hrun, hret, rfl⟩ := h
  obtain ⟨ps', q', s', next', hrun', hret', rfl⟩ := h'
  have hstate : a.state q s m' = a.state q' s' m'' := by
    rcases hrun.prefix_or (steps_deterministic host callN a.region) hrun' with ⟨cs, -, hcs⟩ | ⟨cs, -, hcs⟩
    · cases hcs with
      | refl => rfl
      | head hs _ => exact absurd hs (not_steps_of_ret hret)
    · cases hcs with
      | refl => rfl
      | head hs _ => exact absurd hs (not_steps_of_ret hret')
  simp only [Activation.state, Runtime.mk.injEq, List.cons.injEq, Frame.mk.injEq] at hstate
  obtain ⟨rfl, -, ⟨⟨-, -, rfl⟩, -⟩, -⟩ := hstate
  exact ⟨rfl, rfl⟩

/-- What the code of a procedure returns. -/
theorem ProcedureFor.returns {p : Body} {names : Names} {nulls : List Value} {c : List Item}
    {lo hi : BlockId} {g t : InstrId} (h : ProcedureFor p names nulls c lo hi) (host : Host)
    (hr : ReadsAs callN a apply) (hm : env.Holds names.1 names.2 a m) {vs rs : List Value}
    (he : p.eval env apply m = some (vs, rs, m'))
    (hl : Loaded (.visit g :: .visit t :: c) a.region m) :
    RunsToReturn host callN a m (((vs ++ p.last.kept rs ++ nulls.reverse).getLast?).getD .null) m' := by
  obtain ⟨body, pushes, i, rfl, hbody, hnulls⟩ := h
  obtain ⟨hcomp, hk⟩ := hbody.computes host hr hm he
  have hall := hcomp.append (hnulls host callN a hi hi _ m') hk hbody.le le_rfl
    fun l h₁ h₂ => absurd h₁ (Nat.not_le.mpr h₂)
  have hl' : Loaded (([.visit g, .visit t] ++ (body ++ pushes)) ++ [.visit i] ++ .code .ret :: [])
      a.region m := by
    simpa using hl
  obtain ⟨ps, hrun, -⟩ := hall [.visit g, .visit t] [.visit i, .code .ret] (by simp)
    (by simpa using hl)
  have hsize : size (([.visit g, .visit t] ++ (body ++ pushes)) ++ [.visit i] : List Item)
      = size ([.visit g, .visit t] ++ (body ++ pushes) : List Item) := by
    simp [Item.size]
  have hret := Loaded.fetch_of_decode (s := nulls ++ (vs ++ p.last.kept rs).reverse)
    ((hk.loaded hl').decode_code rfl)
  rw [hsize] at hret
  refine ⟨ps, _, _, _, hrun, hret, ?_⟩
  rw [List.headD_eq_head?_getD, ← List.head?_reverse]
  simp

end Returns

/-! ### The sequencing forms -/

/-- A sequence used as an operand contributes one value; when expressions are evaluated it is that of
the last one. -/
def ContributesLast (host : Host) (callN : CallWithNArgs) (a : Activation) (pre c : List Item)
    (s : List Value) (m : Memory) (rs : List Value) (m' : Memory) : Prop :=
  ∃ r, (∀ x ∈ rs.getLast?, r = x) ∧
    Passes host callN a (size pre) s m (size (pre ++ c)) (r :: s) m'

/-- Exactly one of the expressions that are evaluated is not a literal, and its value is that of the
last one. -/
def Sequence.KeepsLast (f : Sequence) (rs : List Value) : Prop :=
  ∃ r, (∀ x ∈ rs.getLast?, r = x) ∧ CoreExpr.kept f.body rs = [r]

namespace Body

/-- The values of a body in source order, without those of the literals in a `when` at its end. -/
def shown (p : Body) (vs rs : List Value) : List Value := vs ++ p.last.kept rs

/-- A lambda has the value of its last expression: when that is a `when`, the value shown last is
the value of the `when`. -/
def LambdaLast (p : Body) (vs rs : List Value) : Prop :=
  ∀ test body, p.last = .when test body → ∀ x ∈ rs.getLast?,
    (p.shown vs rs).getLast?.getD .null = x

/-- A script has it when the last expression is neither a `cond` nor a `when`, or is null. -/
def ScriptLast (p : Body) (rs : List Value) : Prop :=
  p.last.hasValue = true ∨ ∀ x ∈ rs.getLast?, x = .null

/-- Both return the same value: so it is, or the value shown last is null. -/
def SameLast (p : Body) (vs rs : List Value) : Prop :=
  p.last.hasValue = true ∨ (p.shown vs rs).getLast?.getD .null = .null

end Body

section Sequencing

variable {host : Host} {callN : CallWithNArgs} {a : Activation} {env : Env} {apply : Application}
  {m m' : Memory}

theorem contributesLast_iff {cfg : Config} {f : Sequence} {b b' : Builder} {v : Visitor}
    {c pre post : List Item} {s rs : List Value} (h : SequenceFor cfg f b v b' c)
    (hr : ReadsAs callN a apply) (hm : env.Holds b.scopes b.scope a m)
    (he : f.eval env apply m = some (rs, m'))
    (hfree : ∀ l, b.numBlocks ≤ l → l < b'.numBlocks → Item.bind l ∉ pre)
    (hl : Loaded (pre ++ (c ++ post)) a.region m) :
    ContributesLast host callN a pre c s m rs m' ↔ f.KeepsLast rs := by
  have hp := h.computes host hr hm s he pre post hfree hl
  constructor
  · rintro ⟨r, hx, hrun⟩
    obtain ⟨hs, -⟩ := Passes.unique hrun hp
    have hkept : [r] = (CoreExpr.kept f.body rs).reverse := List.append_cancel_right hs
    refine ⟨r, hx, ?_⟩
    rw [← List.reverse_reverse (CoreExpr.kept f.body rs), ← hkept, List.reverse_singleton]
  · rintro ⟨r, hx, hk⟩
    rw [hk] at hp
    exact ⟨r, hx, hp⟩

/-- The value of a core expression at the end of a body is shown last. -/
theorem Body.getLast?_shown {p : Body} {vs rs : List Value}
    (he : p.eval env apply m = some (vs, rs, m')) (hp : ∀ test body, p.last ≠ .when test body) :
    ∃ r, rs = [r] ∧ (p.shown vs rs).getLast? = some r := by
  obtain ⟨init, last⟩ := p
  cases last with
  | when test body => exact absurd rfl (hp test body)
  | core e =>
      simp only [eval, Option.bind_eq_bind, Option.bind_eq_some_iff, Option.pure_def,
        Option.some.injEq, Prod.mk.injEq] at he
      obtain ⟨⟨ws, m₁⟩, -, ⟨ts, m₂⟩, hts, rfl, rfl, rfl⟩ := he
      obtain ⟨r, m₃, us, -, hus, rfl⟩ := CoreExpr.evalAll_cons.mp hts
      cases hus
      exact ⟨r, rfl, by simp [shown, Last.kept]⟩

theorem Last.not_when_of_hasValue {l : Last} (h : l.hasValue = true) (test : CoreExpr)
    (body : List CoreExpr) : l ≠ .when test body := by
  rintro rfl
  cases h

/-- What a lambda returns. -/
theorem lambda_returns (host : Host) {p : Body} {names : Names} {c : List Item} {lo hi : BlockId} {g t : InstrId}
    (h : ProcedureFor p names [] c lo hi) (hr : ReadsAs callN a apply)
    (hm : env.Holds names.1 names.2 a m) {vs rs : List Value}
    (he : p.eval env apply m = some (vs, rs, m'))
    (hl : Loaded (.visit g :: .visit t :: c) a.region m) :
    RunsToReturn host callN a m ((p.shown vs rs).getLast?.getD .null) m' := by
  have hret := h.returns host hr hm he hl
  rwa [List.reverse_nil, List.append_nil] at hret

/-- What a script returns. -/
theorem script_returns (host : Host) {p : Body} {names : Names} {c : List Item} {lo hi : BlockId} {g t : InstrId}
    (h : ProcedureFor p names (if p.last.hasValue then [] else [.null]) c lo hi)
    (hr : ReadsAs callN a apply) (hm : env.Holds names.1 names.2 a m) {vs rs : List Value}
    (he : p.eval env apply m = some (vs, rs, m'))
    (hl : Loaded (.visit g :: .visit t :: c) a.region m) :
    RunsToReturn host callN a m
      (if p.last.hasValue then (p.shown vs rs).getLast?.getD .null else .null) m' := by
  have hret := h.returns host hr hm he hl
  cases hv : p.last.hasValue with
  | true =>
      rw [hv, if_pos rfl, List.reverse_nil, List.append_nil] at hret
      rwa [if_pos rfl]
  | false =>
      rw [hv, if_neg Bool.false_ne_true, List.reverse_singleton, List.getLast?_concat] at hret
      rwa [if_neg Bool.false_ne_true]

end Sequencing

/-- **When the sequencing forms have the value of their last expression.**  As an operand, a `begin`
or a `when` contributes that value alone if and only if it `KeepsLast`.  A lambda returns the value
of its last expression if and only if `LambdaLast`, and a script if and only if `ScriptLast`; a
script and a lambda with one body return the same if and only if `SameLast`. -/
theorem sequencing_iff (cfg : Config) :
    (∀ (f : Sequence) (b : Builder), b.Fresh →
      (∃ v b' c, visit cfg .value f.toExpr {} b = some (v, b') ∧ Emits b'.graph v.entry c) ∧
      ∀ v b' c, visit cfg .value f.toExpr {} b = some (v, b') → Emits b'.graph v.entry c →
        (c ≠ [] → EmitsInFront b v b' c) ∧
        ∀ (host : Host) (callN : CallWithNArgs) (a : Activation) (env : Env) (apply : Application),
          ReadsAs callN a apply → ∀ m, env.Holds b.scopes b.scope a m →
          ∀ rs m', f.eval env apply m = some (rs, m') →
          ∀ s pre post, (∀ l, b.numBlocks ≤ l → l < b'.numBlocks → Item.bind l ∉ pre) →
            Loaded (pre ++ (c ++ post)) a.region m →
            (ContributesLast host callN a pre c s m rs m' ↔ f.KeepsLast rs)) ∧
    (∀ (p : Body) (b : Builder) (scope : Option ScopeId) (names : Names), b.Fresh →
      lambdaNames b.scopes b.scope scope = some names →
      (∃ c, Compiled (visitLambda cfg scope p.toExprs) b c) ∧
      ∀ c, Compiled (visitLambda cfg scope p.toExprs) b c →
        ∀ (host : Host) (callN : CallWithNArgs) (a : Activation) (env : Env) (apply : Application),
          ReadsAs callN a apply → ∀ m, env.Holds names.1 names.2 a m →
          ∀ vs rs m', p.eval env apply m = some (vs, rs, m') → Loaded c a.region m →
            (∃ r, RunsToReturn host callN a m r m') ∧
            ((∀ x ∈ rs.getLast?, RunsToReturn host callN a m x m') ↔ p.LambdaLast vs rs)) ∧
    (∀ (p : Body) (b : Builder), b.Fresh →
      (∃ c, Compiled (visitScript cfg p.toExprs) b c) ∧
      ∀ c, Compiled (visitScript cfg p.toExprs) b c →
        ∀ (host : Host) (callN : CallWithNArgs) (a : Activation) (env : Env) (apply : Application),
          ReadsAs callN a apply → ∀ m, env.Holds b.scopes b.scope a m →
          ∀ vs rs m', p.eval env apply m = some (vs, rs, m') → Loaded c a.region m →
            (∃ r, RunsToReturn host callN a m r m') ∧
            ((∀ x ∈ rs.getLast?, RunsToReturn host callN a m x m') ↔ p.ScriptLast rs)) ∧
    ∀ (p : Body) (b b' : Builder) (scope : Option ScopeId) (names : Names), b.Fresh → b'.Fresh →
      lambdaNames b.scopes b.scope scope = some names →
      ∀ c c', Compiled (visitLambda cfg scope p.toExprs) b c →
        Compiled (visitScript cfg p.toExprs) b' c' →
        ∀ (host : Host) (callN : CallWithNArgs) (a a' : Activation) (env : Env)
          (apply : Application), ReadsAs callN a apply → ReadsAs callN a' apply →
          ∀ m, env.Holds names.1 names.2 a m → env.Holds b'.scopes b'.scope a' m →
          ∀ vs rs m', p.eval env apply m = some (vs, rs, m') → Loaded c a.region m →
            Loaded c' a'.region m →
            ((∃ r, RunsToReturn host callN a m r m' ∧ RunsToReturn host callN a' m r m') ↔
              p.SameLast vs rs) := by
  refine ⟨fun f b hf => ?_, fun p b scope names hf hnames => ?_, fun p b hf => ?_,
    fun p b b' scope names hf hf' hnames c c' hc hc' host callN a a' env apply hr hr' m hm hm' vs rs
      m' he hl hl' => ?_⟩
  · obtain ⟨v, b', c, h⟩ := sequenceFor cfg f hf
    refine ⟨⟨v, b', c, h.run, h.built.emits⟩, fun v₁ b₁ c₁ hrun hemits => ?_⟩
    cases h.run.symm.trans hrun
    obtain rfl := h.built.emits.functional hemits
    exact ⟨h.built.inFront, fun host callN a env apply hr m hm rs m' he s pre post hfree hl =>
      contributesLast_iff h hr hm he hfree hl⟩
  · obtain ⟨g, t, c, lo, hi, hc, hproc⟩ := compiled_lambda_body cfg p hf hnames
    refine ⟨⟨_, hc⟩, fun c₁ hc₁ host callN a env apply hr m hm vs rs m' he hl => ?_⟩
    obtain rfl := hc.functional hc₁
    have hret := lambda_returns host hproc hr hm he hl
    refine ⟨⟨_, hret⟩, fun h test body hw x hx => ((h x hx).unique hret).1.symm, fun h x hx => ?_⟩
    by_cases hw : ∃ test body, p.last = .when test body
    · obtain ⟨test, body, hw⟩ := hw
      rwa [h test body hw x hx] at hret
    · obtain ⟨r, rfl, hlast⟩ := p.getLast?_shown he fun test body hw' => hw ⟨test, body, hw'⟩
      cases hx
      rwa [hlast] at hret
  · obtain ⟨g, t, c, lo, hi, hc, hproc⟩ := compiled_script cfg p hf
    refine ⟨⟨_, hc⟩, fun c₁ hc₁ host callN a env apply hr m hm vs rs m' he hl => ?_⟩
    obtain rfl := hc.functional hc₁
    have hret := script_returns host hproc hr hm he hl
    refine ⟨⟨_, hret⟩, fun h => ?_, fun h x hx => ?_⟩
    · cases hv : p.last.hasValue with
      | true => exact .inl hv
      | false =>
          rw [hv, if_neg Bool.false_ne_true] at hret
          exact .inr fun x hx => ((h x hx).unique hret).1
    · cases hv : p.last.hasValue with
      | true =>
          obtain ⟨r, rfl, hlast⟩ := p.getLast?_shown he (Last.not_when_of_hasValue hv)
          cases hx
          rwa [hv, if_pos rfl, hlast] at hret
      | false =>
          rw [hv, if_neg Bool.false_ne_true] at hret
          obtain rfl : x = .null := (h.resolve_left (by simp [hv])) x hx
          exact hret
  · obtain ⟨g, t, c₁, lo, hi, hc₁, hproc⟩ := compiled_lambda_body cfg p hf hnames
    obtain ⟨g', t', c₂, lo', hi', hc₂, hproc'⟩ := compiled_script cfg p hf'
    obtain rfl := hc₁.functional hc
    obtain rfl := hc₂.functional hc'
    have hret := lambda_returns host hproc hr hm he hl
    have hret' := script_returns host hproc' hr' hm' he hl'
    cases hv : p.last.hasValue with
    | true =>
        rw [hv, if_pos rfl] at hret'
        exact ⟨fun _ => .inl hv, fun _ => ⟨_, hret, hret'⟩⟩
    | false =>
        rw [hv, if_neg Bool.false_ne_true] at hret'
        refine ⟨fun ⟨r, h, h'⟩ => .inr ?_, fun h => ⟨.null, ?_, hret'⟩⟩
        · rw [(hret.unique h).1, (h'.unique hret').1]
        · rwa [h.resolve_left (by simp [hv])] at hret

namespace Body.Sample

/-- A variable of the first scope; the second one is empty. -/
def scopes : Scopes where
  locals := [{ name := "x", index := 0 }]
  scopes := [{ parent := none, locals := [0] }, { parent := none, locals := [] }]

/-- The scope a lambda whose variables are those of the first scope is compiled in, from the second
one. -/
def names : Names :=
  ({ locals := [{ name := "x", index := 0 }, { name := "x", index := 0 }]
     scopes := [{ parent := none, locals := [0] }, { parent := none, locals := [] },
      { parent := some 1, locals := [1] }] }, 2)

/-- `(begin 1 x)`. -/
def sequence : Sequence := .begin [.long 1, .param { name := "x" }]

/-- `(cond (x 1) 0)`. -/
def body : Body where
  init := []
  last := .core (.cond (.param { name := "x" }) (.long 1) (.long 0))

def sequenceCode : List Item := [.visit 1, .code (.loadLocal 0)]

/-- What a lambda and a script emit in front of the return. -/
def front : List Item :=
  [.visit 0, .visit 1, .visit 7, .code (.loadLocal 0), .visit 8, .jump .jnz 2, .bind 4, .visit 4,
    .visit 5, .code (.push (.long 1)), .visit 6, .jump .jump 3, .bind 2, .visit 2, .visit 9,
    .code (.push (.long 0)), .visit 10, .jump .jump 3, .bind 3, .visit 3]

def lambdaCode : List Item := front ++ [.visit 11, .code .ret]

def scriptCode : List Item := front ++ [.visit 11, .code (.push .null), .visit 12, .code .ret]

/-- A slot that holds 5, and no code. -/
def start : Memory where
  scopes := { scopes with locals := [{ name := "x", index := 0, value := some (.long 5) }] }

/-- The sequence, the lambda and the script in one region each. -/
def memory : Memory := ((start.load sequenceCode).load lambdaCode).load scriptCode

def activation (region : Nat) : Activation := { region, scope := 0, locals := 0 }

def env : Env where
  param x := if x = { name := "x" } then some (.long 5) else none
  procedure _ := none

/-- No call is made. -/
def failingCall : CallWithNArgs := fun _ _ _ => .error .fatal

def noApplication : Application := fun _ _ _ => none

theorem readsAs (a : Activation) : ReadsAs failingCall a noApplication := ⟨nofun, nofun⟩

theorem holds (m : Scopes) (s : ScopeId) (region : Nat) {l : LocalId}
    (h : m.literalInstr s (.symbol { name := "x" }) = .loadLocal l 0)
    (hslot : (activation region).slot memory 0 = some (.long 5)) :
    env.Holds m s (activation region) memory := by
  refine ⟨fun {x v} hx => ?_, fun {t f} hf => by cases hf⟩
  obtain ⟨rfl, rfl⟩ : x = { name := "x" } ∧ v = .long 5 := by simpa [env, eq_comm] using hx
  exact ⟨l, 0, h, hslot⟩

theorem loaded : Loaded sequenceCode 0 memory ∧ Loaded lambdaCode 1 memory ∧
    Loaded scriptCode 2 memory := by
  have h₀ : Loaded sequenceCode 0 (start.load sequenceCode) :=
    .load start (by decide) (by decide)
  have h₁ : Loaded lambdaCode 1 ((start.load sequenceCode).load lambdaCode) :=
    .load (start.load sequenceCode) (by decide) (by decide)
  have h₂ : Loaded scriptCode 2 memory :=
    .load ((start.load sequenceCode).load lambdaCode) (by decide) (by decide)
  exact ⟨h₀.mono (by decide +kernel) (by decide +kernel),
    h₁.mono (by decide +kernel) (by decide +kernel), h₂⟩

end Body.Sample

open Body.Sample in
/-- The literal of `(begin 1 x)` is dropped.  The body `(cond (x 1) 0)` is 1 in a lambda and null in
a script. -/
theorem sequencing_iff_sample :
    ContributesLast .bare failingCall (activation 0) [] sequenceCode [] memory [.long 1, .long 5] memory ∧
      RunsToReturn .bare failingCall (activation 1) memory (.long 1) memory ∧
      ¬ RunsToReturn .bare failingCall (activation 2) memory (.long 1) memory ∧
      ¬ ∃ r, RunsToReturn .bare failingCall (activation 1) memory r memory ∧
        RunsToReturn .bare failingCall (activation 2) memory r memory := by
  obtain ⟨hseq, hlambda, hscript, hsame⟩ := sequencing_iff {}
  obtain ⟨hl₀, hl₁, hl₂⟩ := loaded
  have hslot : ∀ region, (activation region).slot memory 0 = some (.long 5) := fun _ => rfl
  have hx : scopes.literalInstr 0 (.symbol { name := "x" }) = .loadLocal 0 0 := by decide
  have hx' : names.1.literalInstr names.2 (.symbol { name := "x" }) = .loadLocal 1 0 := by decide
  have hnames : lambdaNames scopes 1 (some 0) = some names := by decide
  have heval : body.eval env noApplication memory = some ([], [.long 1], memory) := by
    simp [Body.eval, body, Last.eval, CoreExpr.evalAll, CoreExpr.eval, env, Value.truth,
      Value.isNull]
  -- what is emitted
  have hc₀ : ((visit {} .value sequence.toExpr {} { scope := 0, scopes }).bind fun r =>
      emission r.2.graph 20 r.1.entry) = some sequenceCode := by decide +kernel
  have hc₁ : ((build (visitLambda {} (some 0) body.toExprs) { scope := 1, scopes }).bind fun r =>
      emission r.2.graph 30 (some r.1)) = some lambdaCode := by decide +kernel
  have hc₂ : ((build (visitScript {} body.toExprs) { scope := 0, scopes }).bind fun r =>
      emission r.2.graph 30 (some r.1)) = some scriptCode := by decide +kernel
  obtain ⟨⟨entry, b₁⟩, hrun₁, hem₁⟩ := Option.bind_eq_some_iff.mp hc₁
  obtain ⟨⟨entry', b₂⟩, hrun₂, hem₂⟩ := Option.bind_eq_some_iff.mp hc₂
  have hcompiled₁ : Compiled (visitLambda {} (some 0) body.toExprs) { scope := 1, scopes }
      lambdaCode := ⟨entry, b₁, hrun₁, emits_of_emission hem₁⟩
  have hcompiled₂ : Compiled (visitScript {} body.toExprs) { scope := 0, scopes } scriptCode :=
    ⟨entry', b₂, hrun₂, emits_of_emission hem₂⟩
  refine ⟨?_, ?_, ?_, ?_⟩
  · obtain ⟨⟨v, b', c, hrun, hem⟩, hall⟩ := hseq sequence { scope := 0, scopes } fun _ _ => rfl
    rw [hrun] at hc₀
    obtain rfl : c = sequenceCode := hem.functional (emits_of_emission hc₀)
    refine ((hall v b' _ hrun hem).2 .bare failingCall (activation 0) env noApplication (readsAs _)
      memory (holds _ _ 0 hx (hslot 0)) _ _ rfl [] [] [] (fun _ _ _ => List.not_mem_nil) hl₀).mpr ?_
    exact ⟨.long 5, by simp, rfl⟩
  · have h := ((hlambda body { scope := 1, scopes } (some 0) names (fun _ _ => rfl) hnames).2 _
      hcompiled₁ .bare failingCall (activation 1) env noApplication (readsAs _) memory
      (holds _ _ 1 hx' (hslot 1)) _ _ _ heval hl₁).2
    exact h.mpr (fun _ _ hw => by cases hw) (.long 1) rfl
  · have h := ((hscript body { scope := 0, scopes } (fun _ _ => rfl)).2 _ hcompiled₂ .bare failingCall
      (activation 2) env noApplication (readsAs _) memory (holds _ _ 2 hx (hslot 2)) _ _ _ heval
      hl₂).2
    intro hret
    rcases h.mp (fun x hx => by cases hx; exact hret) with hval | hnull
    · cases hval
    · cases hnull (.long 1) rfl
  · have h := hsame body { scope := 1, scopes } { scope := 0, scopes } (some 0) names
      (fun _ _ => rfl) (fun _ _ => rfl) hnames _ _ hcompiled₁ hcompiled₂ .bare failingCall (activation 1)
      (activation 2) env noApplication (readsAs _) (readsAs _) memory (holds _ _ 1 hx' (hslot 1))
      (holds _ _ 2 hx (hslot 2)) _ _ _ heval hl₁ hl₂
    intro hret
    rcases h.mp hret with hval | hnull
    · cases hval
    · cases hnull

/-- `(begin 1 2)` contributes no value. -/
theorem not_contributesLast_begin :
    ¬ ∀ (f : Sequence) (b : Builder), f.body ≠ [] → b.Fresh → ∀ v b' c,
      visit {} .value f.toExpr {} b = some (v, b') → Emits b'.graph v.entry c →
      ∀ (host : Host) (callN : CallWithNArgs) (a : Activation) (env : Env) (apply : Application),
        ReadsAs callN a apply → ∀ m, env.Holds b.scopes b.scope a m →
        ∀ rs m', f.eval env apply m = some (rs, m') →
        ∀ s pre post, (∀ l, b.numBlocks ≤ l → l < b'.numBlocks → Item.bind l ∉ pre) →
          Loaded (pre ++ (c ++ post)) a.region m → ContributesLast host callN a pre c s m rs m' := by
  intro hall
  have h := hall (.begin [.long 1, .long 2]) { scope := 0 } (by simp [Sequence.body])
    (fun _ _ => rfl) {} _ [] rfl .done .bare Body.Sample.failingCall (Body.Sample.activation 0)
    { param := fun _ => none, procedure := fun _ => none } Body.Sample.noApplication
    (Body.Sample.readsAs _) (Memory.load {} []) ⟨nofun, nofun⟩ _ _ rfl [] [] []
    (fun _ _ _ => List.not_mem_nil) (.load {} (by decide) (by decide))
  obtain ⟨r, -, hp⟩ := h
  exact nomatch (hp.unique (.refl 0 [] _)).1

end Gel
