import Gel.Scoping
import Gel.Support.Worlds
import Mathlib.Logic.Relation

/-!
# BuilderSteps — all that building a flow graph does

A flow graph is built in steps: an instruction is allocated or linked, a block gets the next id, a
scope is entered or left, a variable is made, added to a scope or given a value, a subject is
created.  `steps_visit` says that visiting an expression, whatever it is, does nothing else, so that
what every step keeps is kept by every flow graph that is built.

* `Scopes.Step`, `Builder.Step`: the steps.
* `steps_visitLambda`, `steps_visitScript`, `steps_build`: the visitors take them.
-/

namespace Gel

open FlowGraphBuilder

/-- What is done to scopes and variables. -/
inductive Scopes.Step : Scopes → Scopes → Prop where
  /-- A new scope below one that is there.  The scope of a `let:rx` starts with the variables of the
  reactive operators, every other one without variables. -/
  | newScope (m : Scopes) (parent : Option ScopeId) (locals : List LocalId)
      (hparent : ∀ p ∈ parent, p < m.scopes.length) :
      Step m { m with scopes := m.scopes ++ [{ parent, locals }] }
  | newLocal (m : Scopes) (s : ScopeId) (name : String) (value : Option Value) :
      Step m (m.newLocal s name value).2
  /-- A variable is added to a scope that has none of its name. -/
  | push (m : Scopes) (s : ScopeId) (l : LocalId)
      (hnew : (m.locals[l]?.map LocalVariable.name).any (m.has s) = false) : Step m (m.push s l)
  | setValue (m : Scopes) (l : LocalId) (value : Option Value) : Step m (m.setValue l value)

/-- Any number of steps. -/
def Scopes.Evolves : Scopes → Scopes → Prop := Relation.ReflTransGen Scopes.Step

namespace Scopes.Evolves

variable {m m' m'' : Scopes}

theorem refl (m : Scopes) : m.Evolves m := Relation.ReflTransGen.refl

theorem trans (h : m.Evolves m') (h' : m'.Evolves m'') : m.Evolves m'' :=
  Relation.ReflTransGen.trans h h'

theorem single (h : Scopes.Step m m') : m.Evolves m' := Relation.ReflTransGen.single h

theorem addLocal (m : Scopes) (s : ScopeId) (l : LocalId) : m.Evolves (m.addLocal s l).2 := by
  rw [Scopes.addLocal]
  split
  · exact refl m
  · rename_i hnew
    exact single (.push m s l (by simpa using hnew))

theorem addValue (m : Scopes) (s : ScopeId) (name : String) (v : Option Value) :
    m.Evolves (m.addValue s name v).2 := by
  rw [Scopes.addValue]
  split
  · exact (single (.newLocal m s name v)).trans (addLocal _ s _)
  · split
    · exact refl m
    · exact single (.setValue m _ v)

theorem addAll (m : Scopes) (s : ScopeId) (ls : List LocalId) : m.Evolves (m.addAll s ls).2 := by
  induction ls generalizing m with
  | nil => exact refl m
  | cons l ls ih =>
      rw [Scopes.addAll]
      split
      · exact ih m
      · split
        · exact ih m
        · exact (addValue m s _ _).trans (ih _)

theorem addScope (m : Scopes) (s rhs : ScopeId) : m.Evolves (m.addScope s rhs).2 :=
  addAll m s _

theorem foldl {α : Type} {f : Scopes → α → Scopes} (as : List α) (m : Scopes)
    (h : ∀ (m : Scopes) a, m.Evolves (f m a)) : m.Evolves (as.foldl f m) := by
  induction as generalizing m with
  | nil => exact refl m
  | cons a as ih => exact (h m a).trans (ih _)

end Scopes.Evolves

/-- What building a flow graph does. -/
inductive Builder.Step : Builder → Builder → Prop where
  /-- A new instruction that is no entry. -/
  | alloc (b : Builder) (x : Instr) (hx : x.blockId = none) :
      Step b { b with graph := (b.graph.alloc x).2 }
  /-- A new block: its entry has the next id. -/
  | block (b : Builder) (x : BlockId → Instr) (hx : ∀ n, (x n).blockId = some n) :
      Step b { b with graph := (b.graph.alloc (x b.numBlocks)).2, numBlocks := b.numBlocks + 1 }
  | link (b : Builder) (i k : InstrId) : Step b { b with graph := b.graph.link i k }
  | scopes (b : Builder) (m : Scopes) (hm : Scopes.Step b.scopes m) : Step b { b with scopes := m }
  /-- Enter a new scope below the current one. -/
  | enter (b : Builder) (locals : List LocalId) :
      Step b { b with
        scope := b.scopes.scopes.length
        scopes := { b.scopes with
          scopes := b.scopes.scopes ++ [{ parent := some b.scope, locals }] } }
  /-- Go back to the scope around the current one. -/
  | leave (b : Builder) (p : ScopeId) (hp : b.scopes.parentOf b.scope = some p) :
      Step b { b with scope := p }
  | object (b : Builder) : Step b { b with nextObject := b.nextObject + 1 }

/-- Any number of steps. -/
def Builder.Steps : Builder → Builder → Prop := Relation.ReflTransGen Builder.Step

namespace Builder.Steps

theorem refl (b : Builder) : b.Steps b := Relation.ReflTransGen.refl

theorem trans {b b' b'' : Builder} (h : b.Steps b') (h' : b'.Steps b'') : b.Steps b'' :=
  Relation.ReflTransGen.trans h h'

theorem single {b b' : Builder} (h : b.Step b') : b.Steps b' := Relation.ReflTransGen.single h

theorem scopes {m : Scopes} (b : Builder) (h : b.scopes.Evolves m) :
    b.Steps { b with scopes := m } := by
  induction h with
  | refl => exact refl b
  | tail _ hstep ih => exact ih.trans (single (.scopes _ _ hstep))

end Builder.Steps

namespace FlowGraphBuilder

/-- A builder, and the builders it comes to. -/
def stepping : Worlds Builder Builder where
  le := Builder.Steps
  holds w b := b = w
  refl := .refl
  trans := .trans

/-- From `b`, the computation takes steps. -/
abbrev StepsFrom {α : Type} (b : Builder) (x : Build α) : Prop := stepping.From b x fun _ _ => True

/-- The computation takes steps. -/
def Steps {α : Type} (x : Build α) : Prop := ∀ b, StepsFrom b x

section Combinators

variable {α β : Type} {b : Builder}

theorem steps_pure (a : α) : Steps (pure a : Build α) := fun _ => .pure trivial

theorem steps_failure : Steps (failure : Build α) := fun _ => .failure

theorem Steps.after {x : Build α} {f : α → Build β} (hx : StepsFrom b x) (hf : ∀ a, Steps (f a)) :
    StepsFrom b (x >>= f) := hx.bind fun a w _ _ => hf a w

theorem Steps.bind {x : Build α} {f : α → Build β} (hx : Steps x) (hf : ∀ a, Steps (f a)) :
    Steps (x >>= f) := fun b => Steps.after (hx b) hf

/-- What follows a `get` may use that it starts in the state it has got. -/
theorem steps_get {f : Builder → Build β} (hf : ∀ b, StepsFrom b (f b)) : Steps (get >>= f) := by
  refine fun b => .get ?_
  rintro _ rfl
  exact hf _

theorem stepsFrom_of {x : Build α} (h : ∀ a b', x b = some (a, b') → b.Steps b') :
    StepsFrom b x := by
  rintro _ a b' rfl hrun
  exact ⟨b', h a b' hrun, rfl, trivial⟩

theorem stepsFrom_set {b' : Builder} (h : b.Steps b') : StepsFrom b (set b' : Build Unit) := by
  refine stepsFrom_of fun _ b'' hrun => ?_
  cases hrun
  exact h

theorem steps_modify {f : Builder → Builder} (h : ∀ b : Builder, b.Steps (f b)) :
    Steps (modify f : Build Unit) := by
  refine fun b => stepsFrom_of fun _ b' hrun => ?_
  cases hrun
  exact h b

end Combinators

/-! ### The operations of the builder -/

theorem steps_newInstr {x : Instr} (hx : x.blockId = none) : Steps (newInstr x) := by
  refine fun b => stepsFrom_of fun _ b' hrun => ?_
  cases hrun
  exact .single (.alloc b x hx)

/-- A block gets its id and its entry. -/
theorem steps_newBlock {x : BlockId → Instr} (hx : ∀ n, (x n).blockId = some n) :
    Steps (do newInstr (x (← getNextBlockId))) := by
  refine fun b => stepsFrom_of fun _ b' hrun => ?_
  cases hrun
  exact .single (.block b x hx)

theorem steps_newTarget : Steps newTarget := steps_newBlock fun _ => rfl

theorem steps_newJoin : Steps newJoin := steps_newBlock fun _ => rfl

theorem steps_pushScope : Steps pushScope := steps_modify fun b => .single (.enter b [])

theorem steps_popScope : Steps popScope := by
  refine steps_get fun b => ?_
  split
  · rename_i p hp
    exact stepsFrom_set (.single (.leave b p hp))
  · exact steps_failure b

theorem steps_add (v : Visitor) (i : InstrId) : Steps (add v i) := by
  rw [add]
  split
  · exact steps_pure _
  · split
    · exact steps_failure
    · exact (steps_modify fun b => .single (.link b _ _)).bind fun _ => steps_pure _

theorem steps_addNew (v : Visitor) {x : Instr} (hx : x.blockId = none) : Steps (addNew v x) :=
  (steps_newInstr hx).bind fun _ => steps_add _ _

theorem steps_append (v rhs : Visitor) : Steps (append v rhs) := by
  rw [append]
  split
  · exact steps_pure _
  · split
    · exact steps_pure _
    · split
      · exact steps_failure
      · exact (steps_modify fun b => .single (.link b _ _)).bind fun _ => steps_pure _

theorem steps_appendInstr (entry i : InstrId) : Steps (appendInstr entry i) := by
  refine steps_get fun b => ?_
  split
  · rename_i g hg
    obtain ⟨l, -, rfl⟩ := Option.map_eq_some_iff.mp hg
    exact stepsFrom_set (.single (.link b l i))
  · exact steps_failure b

theorem steps_appendFragment (entry : InstrId) (v : Visitor) : Steps (appendFragment entry v) := by
  rw [appendFragment]
  split
  · exact steps_pure _
  · exact steps_appendInstr _ _

theorem steps_returnDefinition (m : Mode) (v : Visitor) (d : InstrId) :
    Steps (returnDefinition m v d) := by
  cases m with
  | effect =>
      refine steps_get fun b => ?_
      split
      · exact steps_pure _ b
      · exact steps_add v d b
  | value => exact (steps_add v d).bind fun _ => steps_pure _

theorem steps_returnNew (m : Mode) (v : Visitor) {x : Instr} (hx : x.blockId = none) :
    Steps (returnNew m v x) := (steps_newInstr hx).bind fun _ => steps_returnDefinition _ _ _

theorem steps_addInstanceOf (cfg : Config) (v : Visitor) (c : ClassId) :
    Steps (addInstanceOf cfg v c) := by
  rw [addInstanceOf]
  split
  · exact steps_addNew _ rfl
  · exact steps_pure _

theorem steps_returnCallTo (cfg : Config) (m : Mode) (v : Visitor) (d : InstrId) (n : UInt64) :
    Steps (returnCallTo cfg m v d n) := by
  refine steps_get fun b => ?_
  split
  · exact steps_returnNew _ _ rfl b
  · exact steps_returnNew _ _ rfl b
  · refine Steps.after (steps_add v d b) fun _ => ?_
    refine (steps_addInstanceOf _ _ _).bind fun _ => (steps_addNew _ rfl).bind fun _ => ?_
    refine (steps_newInstr rfl).bind fun _ => (steps_addInstanceOf _ _ _).bind fun _ => ?_
    exact steps_returnDefinition _ _ _

theorem steps_addImplicitReturn (v : Visitor) : Steps (addImplicitReturn v) := by
  rw [addImplicitReturn]
  split
  · exact steps_pure _
  · refine steps_get fun b => ?_
    split
    · exact steps_pure _ b
    · exact steps_addNew _ rfl b

theorem steps_storeLocal {β : Type} (l : LocalId) {f : Instr → Build β}
    (hf : ∀ x : Instr, x.blockId = none → Steps (f x)) : Steps (storeLocal l >>= f) := by
  refine fun b => Worlds.From.bind (P := fun x _ => x.blockId = none) ?_ fun x w _ hx => hf x hx w
  refine .get fun b' _ => ?_
  split
  · exact .pure rfl
  · exact .failure

theorem steps_loadLocal {β : Type} (l : LocalId) {f : Instr → Build β}
    (hf : ∀ x : Instr, x.blockId = none → Steps (f x)) : Steps (loadLocal l >>= f) := by
  refine fun b => Worlds.From.bind (P := fun x _ => x.blockId = none) ?_ fun x w _ hx => hf x hx w
  refine .get fun b' _ => ?_
  split
  · exact .pure rfl
  · exact .failure

theorem steps_addStore (v : Visitor) (l : LocalId) : Steps (do addNew v (← storeLocal l)) :=
  steps_storeLocal l fun _ hx => steps_addNew v hx

theorem steps_visitLiteral (m : Mode) (v : Visitor) (x : Value) : Steps (visitLiteral m v x) := by
  unfold visitLiteral
  split
  · refine steps_get fun b => ?_
    split
    · exact steps_returnNew _ _ rfl b
    · split
      · exact steps_returnNew _ _ rfl b
      · exact steps_loadLocal _ (fun _ hx => steps_returnNew _ _ hx) b
  · exact steps_returnNew _ _ rfl

theorem steps_isConstantExpr (cfg : Config) (e : Expr) : Steps (isConstantExpr cfg e) :=
  steps_get fun b => steps_pure _ b

theorem steps_evalToConstant (cfg : Config) (e : Expr) : Steps (evalToConstant cfg e) := by
  refine steps_get fun b => ?_
  split
  · exact steps_pure _ b
  · exact steps_failure b

theorem steps_newSubject (c : ClassId) : Steps (newSubject c) := by
  refine fun b => stepsFrom_of fun _ b' hrun => ?_
  cases hrun
  exact .single (.object b)

theorem steps_addSubject (v : Visitor) (l : LocalId) (c : ClassId) : Steps (do
    let v ← addNew v (.constant (← newSubject c))
    addNew v (← storeLocal l)) := by
  refine (steps_newSubject _).bind fun _ => (steps_addNew _ rfl).bind fun _ => ?_
  exact steps_addStore _ l

theorem steps_addRxCall (v : Visitor) (s : Symbol) (n : UInt64) : Steps (addRxCall v s n) := by
  refine steps_get fun b => ?_
  split
  · exact steps_failure b
  · split
    · exact steps_failure b
    · refine Steps.after (steps_newInstr rfl b) fun _ => ?_
      split
      · exact steps_addNew _ rfl
      · exact steps_addNew _ rfl
      · exact steps_failure

/-- The scope of a `let:rx`, with its variable `.`. -/
theorem letRx_steps (cfg : Config) (b : Builder) :
    let m := (b.scopes.newScope (some b.scope)).2
    let s := (b.scopes.newScope (some b.scope)).1
    let m : Scopes := { m with
      scopes := m.scopes.modify s fun x => { x with locals := m.localsOf cfg.rxScope } }
    b.Steps { b with
      scope := s, scopes := ((m.newLocal s ".").2.addLocal s (m.newLocal s ".").1).2 } := by
  intro m s m'
  have hm : m' = { b.scopes with scopes := b.scopes.scopes ++
      [{ parent := some b.scope, locals := m.localsOf cfg.rxScope }] } := by
    simp [m', m, s, Scopes.newScope, List.modify_eq_set_getElem?]
  have henter : b.Steps { b with scope := s, scopes := m' } := by
    rw [hm]
    exact .single (.enter b _)
  refine henter.trans (Builder.Steps.scopes { b with scope := s, scopes := m' } ?_)
  exact (Scopes.Evolves.single (.newLocal m' s "." none)).trans (.addLocal _ s _)

/-! ### The visitors -/

mutual

/-- **A visitor takes steps**, whatever it visits. -/
theorem steps_visit (cfg : Config) (m : Mode) : ∀ (e : Expr) (v : Visitor), Steps (visit cfg m e v)
  | .literal value, v => by
      rw [visit]
      exact steps_visitLiteral m v value
  | .quoted value, v => by
      rw [visit]
      exact steps_returnNew _ _ rfl
  | .unary op e, v => by
      rw [visit]
      refine (steps_visit cfg .value e {}).bind fun _ => (steps_append _ _).bind fun _ => ?_
      dsimp only
      split
      · exact (steps_addInstanceOf _ _ _).bind fun _ => steps_returnNew _ _ rfl
      · exact (steps_pure _).bind fun _ => steps_returnNew _ _ rfl
  | .binaryOp op l r, v => by
      rw [visit]
      refine (steps_visit cfg .value l {}).bind fun _ => (steps_append _ _).bind fun _ => ?_
      refine (steps_visit cfg .value r {}).bind fun _ => (steps_append _ _).bind fun _ => ?_
      exact steps_returnNew _ _ rfl
  | .begin body, v => by
      rw [visit]
      exact steps_visitSequence cfg body v
  | .while test body, v => by
      rw [visit]
      refine steps_newTarget.bind fun _ => (steps_add _ _).bind fun _ => ?_
      refine steps_newTarget.bind fun _ => steps_newJoin.bind fun _ => ?_
      refine (steps_visit cfg .value test {}).bind fun _ =>
        (steps_appendFragment _ _).bind fun _ => ?_
      refine (steps_newInstr rfl).bind fun _ => (steps_appendInstr _ _).bind fun _ => ?_
      refine (steps_visitBody cfg body {}).bind fun _ => (steps_appendFragment _ _).bind fun _ => ?_
      refine (steps_newInstr rfl).bind fun _ => (steps_appendInstr _ _).bind fun _ => ?_
      exact steps_pure _
  | .cond clauses alternate, v => by
      rw [visit]
      refine steps_newTarget.bind fun _ => steps_newJoin.bind fun _ => ?_
      refine (steps_visitCondClauses cfg _ _ clauses v).bind fun _ => ?_
      exact (steps_visitAlternate cfg _ _ alternate).bind fun _ => steps_pure _
  | .when test actions, v => by
      rw [visit]
      refine steps_newJoin.bind fun _ => steps_newTarget.bind fun _ => ?_
      refine (steps_visitConseq cfg _ actions).bind fun _ => ?_
      refine (steps_newInstr rfl).bind fun _ => (steps_appendInstr _ _).bind fun _ => ?_
      refine (steps_visit cfg .value test {}).bind fun _ => (steps_append _ _).bind fun _ => ?_
      exact (steps_addNew _ rfl).bind fun _ => steps_pure _
  | .case key clauses, v => by
      rw [visit]
      refine steps_newJoin.bind fun _ => ?_
      refine (steps_visitCaseClauses cfg (steps_visit cfg .value key) _ clauses v).bind fun _ => ?_
      exact steps_pure _
  | .localDef l e, v | .setLocal l e, v => by
      rw [visit]
      refine (steps_visit cfg .value e {}).bind fun _ => (steps_append _ _).bind fun _ => ?_
      exact steps_addStore _ l
  | .setField field inst e, v => by
      rw [visit]
      refine (steps_visit cfg .value e {}).bind fun _ => (steps_append _ _).bind fun _ => ?_
      refine (steps_visit cfg .value inst {}).bind fun _ => (steps_append _ _).bind fun _ => ?_
      exact steps_addNew _ rfl
  | .loadField inst field, v => by
      rw [visit]
      refine (steps_visit cfg .value inst {}).bind fun _ => (steps_append _ _).bind fun _ => ?_
      exact steps_returnNew _ _ rfl
  | .import, v => by
      rw [visit]
      exact steps_pure _
  | .callProc target args, v => by
      rw [visit]
      refine (steps_visitArgs cfg args v).bind fun _ =>
        (steps_visit cfg .value target {}).bind fun _ => ?_
      split
      · exact steps_failure
      · exact steps_returnCallTo _ _ _ _ _
  | .binding l e, v => by
      rw [visit]
      refine steps_get fun b => ?_
      dsimp only
      split
      · exact steps_failure b
      · refine Steps.after (stepsFrom_set (.scopes b (.addLocal _ _ _))) fun _ => ?_
        split
        · exact steps_addSubject _ l _
        · split
          · exact steps_addSubject _ l _
          · refine (steps_visit cfg .value e {}).bind fun _ => (steps_append _ _).bind fun _ => ?_
            exact steps_addStore _ l
  | .let bindings body, v => by
      rw [visit]
      refine steps_newTarget.bind fun target => (steps_addNew _ rfl).bind fun v => ?_
      refine steps_newJoin.bind fun join => steps_pushScope.bind fun _ => ?_
      refine (steps_visitChildren cfg _ bindings _).bind fun _ => ?_
      refine (steps_visitChildren cfg _ body _).bind fun returnValue => ?_
      have hleave : ∀ d, Steps (do
          let v ← returnDefinition m v d
          appendInstr target (← newInstr (.goto join))
          popScope
          return { v with exit := some join }) := fun d => by
        refine (steps_returnDefinition _ _ _).bind fun _ => (steps_newInstr rfl).bind fun _ => ?_
        exact (steps_appendInstr _ _).bind fun _ => steps_popScope.bind fun _ => steps_pure _
      cases returnValue with
      | some d => exact (steps_pure _).bind hleave
      | none =>
          refine (steps_newInstr rfl).bind fun _ => (steps_appendInstr _ _).bind fun _ => ?_
          exact (steps_pure _).bind hleave
  | .letRx source operators, v => by
      rw [visit]
      refine steps_get fun b => ?_
      have hletRx := letRx_steps cfg b
      dsimp only at hletRx ⊢
      split
      · exact steps_failure b
      · refine Steps.after (stepsFrom_set hletRx) fun _ => ?_
        refine (steps_visit cfg .value source {}).bind fun _ => (steps_append _ _).bind fun v => ?_
        have hleave : ∀ l v, Steps (do
            let v ← visitOperators cfg m l operators v
            popScope
            return v) := fun l v =>
          (steps_visitOperators cfg m l operators v).bind fun _ =>
            steps_popScope.bind fun _ => steps_pure _
        refine steps_get fun b => ?_
        split
        · exact steps_storeLocal _ (fun _ hx => (steps_addNew _ hx).bind (hleave _)) b
        · refine Steps.after (steps_addNew _ rfl b) fun _ => ?_
          exact steps_storeLocal _ fun _ hx => (steps_addNew _ hx).bind (hleave _)
  | .list values, v => by
      rw [visit]
      refine (steps_isConstantExpr _ _).bind fun _ => ?_
      split
      · refine (steps_evalToConstant _ _).bind fun _ => ?_
        split
        · exact steps_returnNew _ _ rfl
        · exact steps_failure
      · refine (steps_visitArgs cfg values v).bind fun _ => (steps_newInstr rfl).bind fun _ => ?_
        exact steps_returnCallTo _ _ _ _ _
  | .throw e, v => by
      rw [visit]
      refine (steps_visit cfg .value e {}).bind fun _ => (steps_append _ _).bind fun _ => ?_
      exact (steps_addInstanceOf _ _ _).bind fun _ => steps_addNew _ rfl
  | .instanceOf c e, v => by
      rw [visit]
      refine (steps_isConstantExpr _ _).bind fun _ => ?_
      split
      · refine (steps_evalToConstant _ _).bind fun _ => ?_
        split
        · exact steps_returnNew _ _ rfl
        · exact steps_failure
      · refine (steps_visit cfg .value e {}).bind fun _ => (steps_append _ _).bind fun _ => ?_
        exact (steps_addNew _ rfl).bind fun _ => steps_returnNew _ _ rfl
  | .cast c e, v => by
      rw [visit]
      refine (steps_visit cfg .value e {}).bind fun _ => (steps_append _ _).bind fun _ => ?_
      exact steps_returnNew _ _ rfl
  | .new c args, v => by
      rw [visit]
      refine (steps_isConstantExpr _ _).bind fun _ => ?_
      split
      · refine (steps_evalToConstant _ _).bind fun _ => ?_
        split
        · exact steps_returnNew _ _ rfl
        · exact steps_returnNew _ _ rfl
      · exact (steps_visitArgs cfg args v).bind fun _ => steps_returnNew _ _ rfl
  | .newMap data, v => by
      rw [visit]
      refine (steps_visitEntries cfg data v).bind fun _ => (steps_newInstr rfl).bind fun _ => ?_
      exact (steps_add _ _).bind fun _ => steps_returnDefinition _ _ _
  | .loadInstanceMethod .., v => by
      rw [visit]
      exact steps_failure

theorem steps_visitArgs (cfg : Config) :
    ∀ (es : List Expr) (v : Visitor), Steps (visitArgs cfg es v)
  | [], v => by
      rw [visitArgs]
      exact steps_pure _
  | e :: es, v => by
      rw [visitArgs]
      split
      · refine (steps_visit cfg .value e {}).bind fun _ => (steps_append _ _).bind fun _ => ?_
        exact steps_visitArgs cfg es _
      · exact steps_pure _

theorem steps_visitSequence (cfg : Config) :
    ∀ (es : List Expr) (v : Visitor), Steps (visitSequence cfg es v)
  | [], v => by
      rw [visitSequence]
      exact steps_pure _
  | e :: es, v => by
      rw [visitSequence]
      split
      · refine (steps_visit cfg .effect e {}).bind fun _ => (steps_append _ _).bind fun _ => ?_
        exact steps_visitSequence cfg es _
      · exact steps_pure _

theorem steps_visitBody (cfg : Config) :
    ∀ (es : List Expr) (v : Visitor), Steps (visitBody cfg es v)
  | [], v => by
      rw [visitBody]
      exact steps_pure _
  | e :: es, v => by
      rw [visitBody]
      exact (steps_visit cfg .effect e v).bind fun _ => steps_visitBody cfg es _

theorem steps_visitConseq (cfg : Config) (target : InstrId) :
    ∀ es : List Expr, Steps (visitConseq cfg target es)
  | [] => by
      rw [visitConseq]
      exact steps_pure _
  | e :: es => by
      rw [visitConseq]
      refine (steps_visit cfg .effect e {}).bind fun _ =>
        (steps_appendFragment _ _).bind fun _ => ?_
      exact steps_visitConseq cfg target es

theorem steps_visitActions (cfg : Config) (target : InstrId) :
    ∀ es : List Expr, Steps (visitActions cfg target es)
  | [] => by
      rw [visitActions]
      exact steps_pure _
  | e :: es => by
      rw [visitActions]
      refine (steps_visit cfg .value e {}).bind fun _ => (steps_appendFragment _ _).bind fun _ => ?_
      exact steps_visitActions cfg target es

theorem steps_visitCondClauses (cfg : Config) (altTarget join : InstrId) :
    ∀ (cs : List Clause) (v : Visitor), Steps (visitCondClauses cfg altTarget join cs v)
  | [], v => by
      rw [visitCondClauses]
      exact steps_pure _
  | .mk key actions :: cs, v => by
      rw [visitCondClauses]
      refine steps_newTarget.bind fun target => (steps_visitActions cfg _ actions).bind fun _ => ?_
      refine (steps_newInstr rfl).bind fun _ => (steps_appendInstr _ _).bind fun _ => ?_
      dsimp only
      have htrue : Steps (do
          let v ← append v (← visit cfg .value key {})
          visitCondClauses cfg altTarget join cs
            (← addNew v (.branch .true target (some altTarget) join))) := by
        refine (steps_visit cfg .value key {}).bind fun _ => (steps_append _ _).bind fun _ => ?_
        exact (steps_addNew _ rfl).bind fun _ => steps_visitCondClauses cfg _ _ cs _
      cases key with
      | binaryOp op l r => cases op with
          | equals =>
              refine (steps_visit cfg .value l {}).bind fun _ => (steps_append _ _).bind fun _ => ?_
              refine (steps_visit cfg .value r {}).bind fun _ => (steps_append _ _).bind fun _ => ?_
              exact (steps_addNew _ rfl).bind fun _ => steps_visitCondClauses cfg _ _ cs _
          | _ => exact htrue
      | _ => exact htrue

theorem steps_visitAlternate (cfg : Config) (altTarget join : InstrId) :
    ∀ e : Option Expr, Steps (visitAlternate cfg altTarget join e)
  | none => by
      rw [visitAlternate]
      exact steps_pure _
  | some e => by
      rw [visitAlternate]
      refine (steps_visit cfg .value e {}).bind fun _ => (steps_appendFragment _ _).bind fun _ => ?_
      exact (steps_newInstr rfl).bind fun _ => steps_appendInstr _ _

theorem steps_visitCaseClauses (cfg : Config) {visitKey : Visitor → Build Visitor}
    (hkey : ∀ v, Steps (visitKey v)) (join : InstrId) :
    ∀ (cs : List Clause) (v : Visitor), Steps (visitCaseClauses cfg visitKey join cs v)
  | [], v => by
      rw [visitCaseClauses]
      exact steps_pure _
  | .mk clauseKey actions :: cs, v => by
      rw [visitCaseClauses]
      refine steps_newTarget.bind fun _ => (steps_add _ _).bind fun _ => ?_
      refine (steps_visitClauseActions cfg _ actions _).bind fun _ =>
        (steps_addNew _ rfl).bind fun _ => ?_
      refine (hkey _).bind fun _ => (steps_visit cfg .value clauseKey _).bind fun _ => ?_
      refine (steps_addNew _ rfl).bind fun _ => (steps_addNew _ rfl).bind fun _ => ?_
      exact (steps_append _ _).bind fun _ => steps_visitCaseClauses cfg hkey join cs _

theorem steps_visitClauseActions (cfg : Config) (target : InstrId) :
    ∀ (es : List Expr) (v : Visitor), Steps (visitClauseActions cfg target es v)
  | [], v => by
      rw [visitClauseActions]
      exact steps_pure _
  | e :: es, v => by
      rw [visitClauseActions]
      refine (steps_visit cfg .effect e {}).bind fun forAction => ?_
      have hnext : ∀ forAction : Visitor, Steps (do
          appendFragment target forAction
          visitClauseActions cfg target es { v with exit := forAction.exit }) := fun _ =>
        (steps_appendFragment _ _).bind fun _ => steps_visitClauseActions cfg target es _
      dsimp only
      split
      · exact (steps_addImplicitReturn _).bind hnext
      · exact (steps_pure _).bind hnext

theorem steps_visitChildren (cfg : Config) (target : InstrId) :
    ∀ (es : List Expr) (r : Option InstrId), Steps (visitChildren cfg target es r)
  | [], r => by
      rw [visitChildren]
      exact steps_pure _
  | e :: es, r => by
      rw [visitChildren]
      refine (steps_visit cfg .value e {}).bind fun _ => (steps_appendFragment _ _).bind fun _ => ?_
      exact steps_visitChildren cfg target es _

theorem steps_visitEntries (cfg : Config) :
    ∀ (es : List Entry) (v : Visitor), Steps (visitEntries cfg es v)
  | [], v => by
      rw [visitEntries]
      exact steps_pure _
  | .mk key e :: es, v => by
      rw [visitEntries]
      refine (steps_addNew _ rfl).bind fun _ => (steps_visit cfg .value e {}).bind fun _ => ?_
      exact (steps_append _ _).bind fun _ => steps_visitEntries cfg es _

theorem steps_visitOperators (cfg : Config) (m : Mode) (l : LocalId) :
    ∀ (ops : List RxOp) (v : Visitor), Steps (visitOperators cfg m l ops v)
  | [], v => by
      rw [visitOperators]
      exact steps_pure _
  | .mk symbol args :: ops, v => by
      rw [visitOperators]
      split
      · refine steps_loadLocal _ fun _ hx => (steps_addNew _ hx).bind fun _ => ?_
        refine (steps_visitArgs cfg args _).bind fun _ => (steps_addRxCall _ _ _).bind fun _ => ?_
        refine (steps_append _ _).bind fun _ => ?_
        split
        · split
          · exact steps_returnNew _ _ rfl
          · exact steps_loadLocal _ fun _ hx => steps_returnNew _ _ hx
        · exact steps_visitOperators cfg m l ops _
      · exact steps_pure _

end

/-! ### Bodies -/

theorem steps_visitLambdaBody (cfg : Config) (es : List Expr) (v : Visitor) :
    Steps (visitLambdaBody cfg es v) := by
  induction es generalizing v with
  | nil => exact steps_pure _
  | cons e es ih =>
      rw [visitLambdaBody]
      split
      · refine (steps_visit cfg .value e {}).bind fun forValue =>
          (steps_append _ _).bind fun v => ?_
        have hret : ∀ v : Visitor, Steps (do visitLambdaBody cfg es (← addNew v .ret)) := fun v =>
          (steps_addNew v rfl).bind fun _ => ih _
        dsimp only
        split
        · split
          · split
            · exact steps_failure
            · refine steps_get fun b => ?_
              split
              · exact Steps.after (steps_pure _ b) hret
              · exact Steps.after (steps_addNew _ rfl b) hret
          · exact (steps_pure _).bind hret
        · exact (steps_pure _).bind fun _ => ih _
      · exact steps_pure _

theorem steps_visitLambda (cfg : Config) (scope : Option ScopeId) (body : List Expr) (v : Visitor) :
    Steps (visitLambda cfg scope body v) := by
  have hbody : Steps (do
      let v ← visitLambdaBody cfg body v
      popScope
      return v) :=
    (steps_visitLambdaBody cfg body v).bind fun _ => steps_popScope.bind fun _ => steps_pure _
  refine steps_pushScope.bind fun _ => ?_
  cases scope with
  | none => exact hbody
  | some s =>
      refine steps_get fun b => ?_
      dsimp only
      split
      · exact steps_failure b
      · exact Steps.after (stepsFrom_set (.scopes b (.addScope _ _ _))) fun _ => hbody

theorem steps_visitScriptBody (cfg : Config) (es : List Expr) (v : Visitor) (r : Option InstrId) :
    Steps (visitScriptBody cfg es v r) := by
  induction es generalizing v r with
  | nil => exact steps_pure _
  | cons e es ih =>
      rw [visitScriptBody]
      split
      · refine (steps_visit cfg .value e {}).bind fun _ => (steps_append _ _).bind fun _ => ?_
        exact ih _ _
      · exact steps_pure _

theorem steps_visitScript (cfg : Config) (body : List Expr) (v : Visitor) :
    Steps (visitScript cfg body v) := by
  refine (steps_visitScriptBody cfg body v none).bind fun _ => ?_
  dsimp only
  split
  · exact (steps_addNew _ rfl).bind fun _ => steps_addNew _ rfl
  · exact (steps_pure _).bind fun _ => steps_addNew _ rfl

/-- **Building a flow graph takes steps.** -/
theorem steps_build {visitor : Visitor → Build Visitor} (h : Steps (visitor {})) :
    Steps (build visitor) := by
  have hbuild : build visitor = ((do newInstr (.graphEntry (← getNextBlockId))) >>=
      fun graphEntry => do
        let target ← newTarget
        appendFragment target (← visitor {})
        appendInstr graphEntry target
        return graphEntry) := by
    rw [bind_assoc]
    rfl
  rw [hbuild]
  refine (steps_newBlock fun _ => rfl).bind fun _ => steps_newTarget.bind fun _ => ?_
  refine h.bind fun _ => (steps_appendFragment _ _).bind fun _ => ?_
  exact (steps_appendInstr _ _).bind fun _ => steps_pure _

end FlowGraphBuilder

end Gel
