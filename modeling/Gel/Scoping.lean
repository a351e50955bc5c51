import Gel.Runtime
import Gel.Support.Faulting

/-!
# Scoping — what never changes of a scope

Variables and scopes are only ever added: the parent of a scope, and the name and the index of a
variable, are fixed when it is made.  Building a flow graph keeps this for every body
(`keeps_visit`), and so does compiling in a scope (`compileTarget_extended`).
-/

namespace Gel

/-- The scopes and variables of `m` are still there, with their parents, names and indices. -/
structure Scopes.Extended (m m' : Scopes) : Prop where
  parents : m.scopes.map LocalScope.parent <+: m'.scopes.map LocalScope.parent
  locals : m.locals.map (fun x => (x.name, x.index)) <+: m'.locals.map fun x => (x.name, x.index)

namespace Scopes.Extended

variable {m m' m'' : Scopes} {s : ScopeId} {l : LocalId}

theorem refl (m : Scopes) : m.Extended m := ⟨List.prefix_refl _, List.prefix_refl _⟩

theorem trans (h : m.Extended m') (h' : m'.Extended m'') : m.Extended m'' :=
  ⟨h.parents.trans h'.parents, h.locals.trans h'.locals⟩

theorem length_le (h : m.Extended m') : m.scopes.length ≤ m'.scopes.length := by
  simpa using h.parents.length_le

theorem parentOf (h : m.Extended m') (hs : s < m.scopes.length) :
    m'.parentOf s = m.parentOf s := by
  have hget := List.prefix_iff_getElem?.mp h.parents s (by simpa using hs)
  have hs' := hs.trans_le h.length_le
  simp only [List.getElem?_map, List.getElem?_eq_getElem hs', List.getElem_map, Option.map_some,
    Option.some.injEq] at hget
  simp [Scopes.parentOf, List.getElem?_eq_getElem hs, List.getElem?_eq_getElem hs', hget]

theorem newScope (m : Scopes) (p : Option ScopeId) : m.Extended (m.newScope p).2 :=
  ⟨by simp [Scopes.newScope], List.prefix_refl _⟩

theorem newLocal (m : Scopes) (s : ScopeId) (name : String) (v : Option Value) :
    m.Extended (m.newLocal s name v).2 :=
  ⟨List.prefix_refl _, by simp [Scopes.newLocal]⟩

/-- The scopes' lists of variables may change. -/
theorem modifyScope (m : Scopes) (s : ScopeId) (f : List LocalId → List LocalId) :
    m.Extended { m with scopes := m.scopes.modify s fun x => { x with locals := f x.locals } } := by
  have heq : (m.scopes.modify s fun x => { x with locals := f x.locals }).map LocalScope.parent
      = m.scopes.map LocalScope.parent := by
    refine List.ext_getElem? fun i => ?_
    by_cases hi : s = i <;> simp [hi, Function.comp_def]
  exact ⟨heq ▸ List.prefix_refl _, List.prefix_refl _⟩

theorem setValue (m : Scopes) (l : LocalId) (v : Option Value) : m.Extended (m.setValue l v) := by
  have heq : (m.setValue l v).locals.map (fun x => (x.name, x.index))
      = m.locals.map fun x => (x.name, x.index) := by
    refine List.ext_getElem? fun i => ?_
    by_cases hi : l = i <;> simp [Scopes.setValue, hi, Function.comp_def]
  exact ⟨List.prefix_refl _, heq ▸ List.prefix_refl _⟩

theorem addLocal (m : Scopes) (s : ScopeId) (l : LocalId) : m.Extended (m.addLocal s l).2 := by
  rw [Scopes.addLocal]
  split
  · exact refl m
  · exact modifyScope m s (· ++ [l])

theorem addValue (m : Scopes) (s : ScopeId) (name : String) (v : Option Value) :
    m.Extended (m.addValue s name v).2 := by
  rw [Scopes.addValue]
  split
  · exact (newLocal m s name v).trans (addLocal _ s _)
  · split
    · exact refl m
    · exact setValue m _ v

theorem addAll (m : Scopes) (s : ScopeId) (ls : List LocalId) : m.Extended (m.addAll s ls).2 := by
  induction ls generalizing m with
  | nil => exact refl m
  | cons l ls ih =>
      rw [Scopes.addAll]
      split
      · exact ih m
      · split
        · exact ih m
        · exact (addValue m s _ _).trans (ih _)

theorem addScope (m : Scopes) (s rhs : ScopeId) : m.Extended (m.addScope s rhs).2 :=
  addAll m s _

theorem foldl {α : Type} {f : Scopes → α → Scopes} (as : List α) (m : Scopes)
    (h : ∀ (m : Scopes) a, m.Extended (f m a)) : m.Extended (as.foldl f m) := by
  induction as generalizing m with
  | nil => exact refl m
  | cons a as ih => exact (h m a).trans (ih _)

end Scopes.Extended

namespace FlowGraphBuilder

/-- From `b`, the computation only adds scopes and variables. -/
def KeepsFrom {α : Type} (b : Builder) (x : Build α) : Prop :=
  ∀ a b', x.run b = some (a, b') → b.scopes.Extended b'.scopes

/-- The computation only adds scopes and variables. -/
def Keeps {α : Type} (x : Build α) : Prop := ∀ b, KeepsFrom b x

section Combinators

variable {α β : Type} {b : Builder}

theorem keeps_pure (a : α) : Keeps (pure a : Build α) := by
  intro b c b' h
  cases h
  exact .refl _

theorem keeps_failure : Keeps (failure : Build α) := fun _ _ _ h => nomatch h

theorem KeepsFrom.bind {x : Build α} {f : α → Build β} (hx : KeepsFrom b x)
    (hf : ∀ a, Keeps (f a)) : KeepsFrom b (x >>= f) := by
  intro c b'' h
  rw [StateT.run_bind] at h
  obtain ⟨⟨a, b'⟩, ha, hc⟩ := Option.bind_eq_some_iff.mp h
  exact (hx a b' ha).trans (hf a b' c b'' hc)

theorem Keeps.bind {x : Build α} {f : α → Build β} (hx : Keeps x) (hf : ∀ a, Keeps (f a)) :
    Keeps (x >>= f) := fun b => (hx b).bind hf

theorem Keeps.map {x : Build α} (hx : Keeps x) (f : α → β) : Keeps (f <$> x) := by
  intro b c b' h
  rw [StateT.run_map] at h
  obtain ⟨⟨a, b''⟩, ha, hc⟩ := Option.map_eq_some_iff.mp h
  cases hc
  exact hx _ _ _ ha

/-- What follows a `get` may use that it starts in the state it has got. -/
theorem keeps_get {f : Builder → Build β} (hf : ∀ b, KeepsFrom b (f b)) :
    Keeps (get >>= f) := by
  intro b c b' h
  exact hf b c b' h

theorem keepsFrom_set {b' : Builder} (h : b.scopes.Extended b'.scopes) :
    KeepsFrom b (set b' : Build Unit) := by
  intro a b'' hrun
  cases hrun
  exact h

theorem keeps_modifyGet {f : Builder → α × Builder}
    (h : ∀ b : Builder, b.scopes.Extended (f b).2.scopes) : Keeps (modifyGet f : Build α) := by
  intro b a b' hrun
  have heq : f b = (a, b') := Option.some.inj hrun
  have hext := h b
  rwa [heq] at hext

theorem keeps_modify {f : Builder → Builder} (h : ∀ b : Builder, b.scopes.Extended (f b).scopes) :
    Keeps (modify f : Build Unit) := keeps_modifyGet h

end Combinators

/-! ### The operations of the builder -/

theorem keeps_getNextBlockId : Keeps getNextBlockId := keeps_modifyGet fun _ => .refl _

theorem keeps_newInstr (i : Instr) : Keeps (newInstr i) := keeps_modifyGet fun _ => .refl _

theorem keeps_newTarget : Keeps newTarget := keeps_getNextBlockId.bind fun _ => keeps_newInstr _

theorem keeps_newJoin : Keeps newJoin := keeps_getNextBlockId.bind fun _ => keeps_newInstr _

theorem keeps_pushScope : Keeps pushScope := keeps_modify fun b => .newScope b.scopes _

theorem keeps_popScope : Keeps popScope := by
  refine keeps_get fun b => ?_
  split
  · exact keepsFrom_set (.refl _)
  · exact keeps_failure b

theorem keeps_add (v : Visitor) (i : InstrId) : Keeps (add v i) := by
  rw [add]
  split
  · exact keeps_pure _
  · split
    · exact keeps_failure
    · refine Keeps.bind (keeps_modify fun _ => ?_) fun _ => keeps_pure _
      exact .refl _

theorem keeps_addNew (v : Visitor) (i : Instr) : Keeps (addNew v i) :=
  (keeps_newInstr i).bind fun _ => keeps_add _ _

theorem keeps_append (v rhs : Visitor) : Keeps (append v rhs) := by
  rw [append]
  split
  · exact keeps_pure _
  · split
    · exact keeps_pure _
    · split
      · exact keeps_failure
      · refine Keeps.bind (keeps_modify fun _ => ?_) fun _ => keeps_pure _
        exact .refl _

theorem keeps_appendInstr (entry i : InstrId) : Keeps (appendInstr entry i) := by
  refine keeps_get fun b => ?_
  split
  · exact keepsFrom_set (.refl _)
  · exact keeps_failure b

theorem keeps_appendFragment (entry : InstrId) (v : Visitor) : Keeps (appendFragment entry v) := by
  rw [appendFragment]
  split
  · exact keeps_pure _
  · exact keeps_appendInstr _ _

theorem keeps_returnDefinition (m : Mode) (v : Visitor) (d : InstrId) :
    Keeps (returnDefinition m v d) := by
  cases m with
  | effect =>
      refine keeps_get fun b => ?_
      split
      · exact keeps_pure _ b
      · exact keeps_add v d b
  | value => exact (keeps_add v d).bind fun _ => keeps_pure _

theorem keeps_returnNew (m : Mode) (v : Visitor) (i : Instr) : Keeps (returnNew m v i) :=
  (keeps_newInstr i).bind fun _ => keeps_returnDefinition _ _ _

theorem keeps_addInstanceOf (cfg : Config) (v : Visitor) (c : ClassId) :
    Keeps (addInstanceOf cfg v c) := by
  rw [addInstanceOf]
  split
  · exact keeps_addNew _ _
  · exact keeps_pure _

theorem keeps_returnCallTo (cfg : Config) (m : Mode) (v : Visitor) (d : InstrId) (n : UInt64) :
    Keeps (returnCallTo cfg m v d n) := by
  refine keeps_get fun b => ?_
  split
  · exact keeps_returnNew _ _ _ b
  · exact keeps_returnNew _ _ _ b
  · refine (keeps_add v d b).bind fun _ => ?_
    refine (keeps_addInstanceOf _ _ _).bind fun _ => (keeps_addNew _ _).bind fun _ => ?_
    exact (keeps_newInstr _).bind fun _ => (keeps_addInstanceOf _ _ _).bind fun _ =>
      keeps_returnDefinition _ _ _

theorem keeps_addImplicitReturn (v : Visitor) : Keeps (addImplicitReturn v) := by
  rw [addImplicitReturn]
  split
  · exact keeps_pure _
  · refine keeps_get fun b => ?_
    split
    · exact keeps_pure _ b
    · exact keeps_addNew _ _ b

theorem keeps_storeLocal (l : LocalId) : Keeps (storeLocal l) := by
  refine keeps_get fun b => ?_
  split
  · exact keeps_pure _ b
  · exact keeps_failure b

theorem keeps_loadLocal (l : LocalId) : Keeps (loadLocal l) := by
  refine keeps_get fun b => ?_
  split
  · exact keeps_pure _ b
  · exact keeps_failure b

theorem keeps_visitLiteral (m : Mode) (v : Visitor) (x : Value) : Keeps (visitLiteral m v x) := by
  unfold visitLiteral
  split
  · refine keeps_get fun b => ?_
    split
    · exact keeps_returnNew _ _ _ b
    · split
      · exact keeps_returnNew _ _ _ b
      · exact (keeps_loadLocal _ b).bind fun _ => keeps_returnNew _ _ _
  · exact keeps_returnNew _ _ _

theorem keeps_isConstantExpr (cfg : Config) (e : Expr) : Keeps (isConstantExpr cfg e) :=
  keeps_get fun b => keeps_pure _ b

theorem keeps_evalToConstant (cfg : Config) (e : Expr) : Keeps (evalToConstant cfg e) := by
  refine keeps_get fun b => ?_
  split
  · exact keeps_pure _ b
  · exact keeps_failure b

theorem keeps_newSubject (c : ClassId) : Keeps (newSubject c) := keeps_modifyGet fun _ => .refl _

theorem keeps_addRxCall (v : Visitor) (s : Symbol) (n : UInt64) : Keeps (addRxCall v s n) := by
  refine keeps_get fun b => ?_
  split
  · exact keeps_failure b
  · split
    · exact keeps_failure b
    · refine (keeps_newInstr _ b).bind fun _ => ?_
      split
      · exact keeps_addNew _ _
      · exact keeps_addNew _ _
      · exact keeps_failure

/-! ### The visitors -/

mutual

/-- **Scopes under a visitor.**  Visiting an expression only adds scopes and variables. -/
theorem keeps_visit (cfg : Config) (m : Mode) : ∀ (e : Expr) (v : Visitor), Keeps (visit cfg m e v)
  | .literal value, v => keeps_visitLiteral m v value
  | .quoted value, v => keeps_returnNew _ _ _
  | .unary op e, v => by
      refine (keeps_visit cfg .value e {}).bind fun _ => (keeps_append _ _).bind fun _ => ?_
      dsimp only
      split
      · exact (keeps_addInstanceOf _ _ _).bind fun _ => keeps_returnNew _ _ _
      · exact (keeps_pure _).bind fun _ => keeps_returnNew _ _ _
  | .binaryOp op l r, v => by
      refine (keeps_visit cfg .value l {}).bind fun _ => (keeps_append _ _).bind fun _ => ?_
      refine (keeps_visit cfg .value r {}).bind fun _ => (keeps_append _ _).bind fun _ => ?_
      exact keeps_returnNew _ _ _
  | .begin body, v => keeps_visitSequence cfg body v
  | .while test body, v => by
      refine keeps_newTarget.bind fun _ => (keeps_add _ _).bind fun _ => ?_
      refine keeps_newTarget.bind fun _ => keeps_newJoin.bind fun _ => ?_
      refine (keeps_visit cfg .value test {}).bind fun _ => (keeps_appendFragment _ _).bind fun _ => ?_
      refine (keeps_newInstr _).bind fun _ => (keeps_appendInstr _ _).bind fun _ => ?_
      refine (keeps_visitBody cfg body {}).bind fun _ => (keeps_appendFragment _ _).bind fun _ => ?_
      refine (keeps_newInstr _).bind fun _ => (keeps_appendInstr _ _).bind fun _ => ?_
      exact keeps_pure _
  | .cond clauses alternate, v => by
      refine keeps_newTarget.bind fun _ => keeps_newJoin.bind fun _ => ?_
      refine (keeps_visitCondClauses cfg _ _ clauses v).bind fun _ => ?_
      exact (keeps_visitAlternate cfg _ _ alternate).bind fun _ => keeps_pure _
  | .when test actions, v => by
      refine keeps_newJoin.bind fun _ => keeps_newTarget.bind fun _ => ?_
      refine (keeps_visitConseq cfg _ actions).bind fun _ => ?_
      refine (keeps_newInstr _).bind fun _ => (keeps_appendInstr _ _).bind fun _ => ?_
      refine (keeps_visit cfg .value test {}).bind fun _ => (keeps_append _ _).bind fun _ => ?_
      exact (keeps_addNew _ _).bind fun _ => keeps_pure _
  | .case key clauses, v => by
      refine keeps_newJoin.bind fun _ => ?_
      refine (keeps_visitCaseClauses cfg (keeps_visit cfg .value key) _ clauses v).bind fun _ => ?_
      exact keeps_pure _
  | .localDef l e, v | .setLocal l e, v => by
      refine (keeps_visit cfg .value e {}).bind fun _ => (keeps_append _ _).bind fun _ => ?_
      exact (keeps_storeLocal _).bind fun _ => keeps_addNew _ _
  | .setField field inst e, v => by
      refine (keeps_visit cfg .value e {}).bind fun _ => (keeps_append _ _).bind fun _ => ?_
      refine (keeps_visit cfg .value inst {}).bind fun _ => (keeps_append _ _).bind fun _ => ?_
      exact keeps_addNew _ _
  | .loadField inst field, v => by
      refine (keeps_visit cfg .value inst {}).bind fun _ => (keeps_append _ _).bind fun _ => ?_
      exact keeps_returnNew _ _ _
  | .import, v => keeps_pure _
  | .callProc target args, v => by
      refine (keeps_visitArgs cfg args v).bind fun _ => (keeps_visit cfg .value target {}).bind fun _ => ?_
      split
      · exact keeps_failure
      · exact keeps_returnCallTo _ _ _ _ _
  | .binding l e, v => by
      refine keeps_get fun b => ?_
      dsimp only
      split
      · exact keeps_failure b
      · refine KeepsFrom.bind (keepsFrom_set (.addLocal _ _ _)) fun _ => ?_
        split
        · refine (keeps_newSubject _).bind fun _ => (keeps_addNew _ _).bind fun _ => ?_
          exact (keeps_storeLocal _).bind fun _ => keeps_addNew _ _
        · split
          · refine (keeps_newSubject _).bind fun _ => (keeps_addNew _ _).bind fun _ => ?_
            exact (keeps_storeLocal _).bind fun _ => keeps_addNew _ _
          · refine (keeps_visit cfg .value e {}).bind fun _ => (keeps_append _ _).bind fun _ => ?_
            exact (keeps_storeLocal _).bind fun _ => keeps_addNew _ _
  | .let bindings body, v => by
      refine keeps_newTarget.bind fun target => (keeps_addNew _ _).bind fun v => ?_
      refine keeps_newJoin.bind fun join => keeps_pushScope.bind fun _ => ?_
      refine (keeps_visitChildren cfg _ bindings _).bind fun _ => ?_
      refine (keeps_visitChildren cfg _ body _).bind fun returnValue => ?_
      have hleave : ∀ d, Keeps (do
          let v ← returnDefinition m v d
          appendInstr target (← newInstr (.goto join))
          popScope
          return { v with exit := some join }) := fun d => by
        refine (keeps_returnDefinition _ _ _).bind fun _ => (keeps_newInstr _).bind fun _ => ?_
        exact (keeps_appendInstr _ _).bind fun _ => keeps_popScope.bind fun _ => keeps_pure _
      cases returnValue with
      | some d => exact (keeps_pure _).bind hleave
      | none =>
          refine (keeps_newInstr _).bind fun _ => (keeps_appendInstr _ _).bind fun _ => ?_
          exact (keeps_pure _).bind hleave
  | .letRx source operators, v => by
      refine keeps_get fun b => ?_
      have hscope := Scopes.Extended.newScope b.scopes (some b.scope)
      have hshared := hscope.trans (.modifyScope _ (b.scopes.newScope (some b.scope)).1
        fun _ => (b.scopes.newScope (some b.scope)).2.localsOf cfg.rxScope)
      dsimp only
      split
      · exact keeps_failure b
      · refine KeepsFrom.bind (keepsFrom_set ?_) fun _ => ?_
        · exact hshared.trans ((Scopes.Extended.newLocal _ _ _ _).trans (.addLocal _ _ _))
        · refine (keeps_visit cfg .value source {}).bind fun _ => (keeps_append _ _).bind fun v => ?_
          have hleave : ∀ l v, Keeps (do
              let v ← visitOperators cfg m l operators v
              popScope
              return v) := fun l v =>
            (keeps_visitOperators cfg m l operators v).bind fun _ =>
              keeps_popScope.bind fun _ => keeps_pure _
          refine keeps_get fun b => ?_
          split
          · exact (keeps_storeLocal _ b).bind fun _ => (keeps_addNew _ _).bind (hleave _)
          · refine (keeps_addNew _ _ b).bind fun _ => (keeps_storeLocal _).bind fun _ => ?_
            exact (keeps_addNew _ _).bind (hleave _)
  | .list values, v => by
      refine (keeps_isConstantExpr _ _).bind fun _ => ?_
      split
      · refine (keeps_evalToConstant _ _).bind fun _ => ?_
        split
        · exact keeps_returnNew _ _ _
        · exact keeps_failure
      · refine (keeps_visitArgs cfg values v).bind fun _ => (keeps_newInstr _).bind fun _ => ?_
        exact keeps_returnCallTo _ _ _ _ _
  | .throw e, v => by
      refine (keeps_visit cfg .value e {}).bind fun _ => (keeps_append _ _).bind fun _ => ?_
      exact (keeps_addInstanceOf _ _ _).bind fun _ => keeps_addNew _ _
  | .instanceOf c e, v => by
      refine (keeps_isConstantExpr _ _).bind fun _ => ?_
      split
      · refine (keeps_evalToConstant _ _).bind fun _ => ?_
        split
        · exact keeps_returnNew _ _ _
        · exact keeps_failure
      · refine (keeps_visit cfg .value e {}).bind fun _ => (keeps_append _ _).bind fun _ => ?_
        exact (keeps_addNew _ _).bind fun _ => keeps_returnNew _ _ _
  | .cast c e, v => by
      refine (keeps_visit cfg .value e {}).bind fun _ => (keeps_append _ _).bind fun _ => ?_
      exact keeps_returnNew _ _ _
  | .new c args, v => by
      refine (keeps_isConstantExpr _ _).bind fun _ => ?_
      split
      · refine (keeps_evalToConstant _ _).bind fun _ => ?_
        split
        · exact keeps_returnNew _ _ _
        · exact keeps_returnNew _ _ _
      · exact (keeps_visitArgs cfg args v).bind fun _ => keeps_returnNew _ _ _
  | .newMap data, v => by
      refine (keeps_visitEntries cfg data v).bind fun _ => (keeps_newInstr _).bind fun _ => ?_
      exact (keeps_add _ _).bind fun _ => keeps_returnDefinition _ _ _
  | .loadInstanceMethod .., v => keeps_failure

theorem keeps_visitArgs (cfg : Config) : ∀ (es : List Expr) (v : Visitor), Keeps (visitArgs cfg es v)
  | [], _ => keeps_pure _
  | e :: es, v => by
      rw [visitArgs]
      split
      · refine (keeps_visit cfg .value e {}).bind fun _ => (keeps_append _ _).bind fun _ => ?_
        exact keeps_visitArgs cfg es _
      · exact keeps_pure _

theorem keeps_visitSequence (cfg : Config) :
    ∀ (es : List Expr) (v : Visitor), Keeps (visitSequence cfg es v)
  | [], _ => keeps_pure _
  | e :: es, v => by
      rw [visitSequence]
      split
      · refine (keeps_visit cfg .effect e {}).bind fun _ => (keeps_append _ _).bind fun _ => ?_
        exact keeps_visitSequence cfg es _
      · exact keeps_pure _

theorem keeps_visitBody (cfg : Config) : ∀ (es : List Expr) (v : Visitor), Keeps (visitBody cfg es v)
  | [], _ => keeps_pure _
  | e :: es, v => (keeps_visit cfg .effect e v).bind fun _ => keeps_visitBody cfg es _

theorem keeps_visitConseq (cfg : Config) (target : InstrId) :
    ∀ es : List Expr, Keeps (visitConseq cfg target es)
  | [] => keeps_pure _
  | e :: es => by
      refine (keeps_visit cfg .effect e {}).bind fun _ => (keeps_appendFragment _ _).bind fun _ => ?_
      exact keeps_visitConseq cfg target es

theorem keeps_visitActions (cfg : Config) (target : InstrId) :
    ∀ es : List Expr, Keeps (visitActions cfg target es)
  | [] => keeps_pure _
  | e :: es => by
      refine (keeps_visit cfg .value e {}).bind fun _ => (keeps_appendFragment _ _).bind fun _ => ?_
      exact keeps_visitActions cfg target es

theorem keeps_visitCondClauses (cfg : Config) (altTarget join : InstrId) :
    ∀ (cs : List Clause) (v : Visitor), Keeps (visitCondClauses cfg altTarget join cs v)
  | [], _ => keeps_pure _
  | .mk key actions :: cs, v => by
      rw [visitCondClauses]
      refine keeps_newTarget.bind fun target => (keeps_visitActions cfg _ actions).bind fun _ => ?_
      refine (keeps_newInstr _).bind fun _ => (keeps_appendInstr _ _).bind fun _ => ?_
      dsimp only
      have htrue : Keeps (do
          let v ← append v (← visit cfg .value key {})
          visitCondClauses cfg altTarget join cs
            (← addNew v (.branch .true target (some altTarget) join))) := by
        refine (keeps_visit cfg .value key {}).bind fun _ => (keeps_append _ _).bind fun _ => ?_
        exact (keeps_addNew _ _).bind fun _ => keeps_visitCondClauses cfg _ _ cs _
      cases key with
      | binaryOp op l r => cases op with
          | equals =>
              refine (keeps_visit cfg .value l {}).bind fun _ => (keeps_append _ _).bind fun _ => ?_
              refine (keeps_visit cfg .value r {}).bind fun _ => (keeps_append _ _).bind fun _ => ?_
              exact (keeps_addNew _ _).bind fun _ => keeps_visitCondClauses cfg _ _ cs _
          | _ => exact htrue
      | _ => exact htrue

theorem keeps_visitAlternate (cfg : Config) (altTarget join : InstrId) :
    ∀ e : Option Expr, Keeps (visitAlternate cfg altTarget join e)
  | none => keeps_pure _
  | some e => by
      refine (keeps_visit cfg .value e {}).bind fun _ => (keeps_appendFragment _ _).bind fun _ => ?_
      exact (keeps_newInstr _).bind fun _ => keeps_appendInstr _ _

theorem keeps_visitCaseClauses (cfg : Config) {visitKey : Visitor → Build Visitor}
    (hkey : ∀ v, Keeps (visitKey v)) (join : InstrId) :
    ∀ (cs : List Clause) (v : Visitor), Keeps (visitCaseClauses cfg visitKey join cs v)
  | [], _ => keeps_pure _
  | .mk clauseKey actions :: cs, v => by
      refine keeps_newTarget.bind fun _ => (keeps_add _ _).bind fun _ => ?_
      refine (keeps_visitClauseActions cfg _ actions _).bind fun _ => (keeps_addNew _ _).bind fun _ => ?_
      refine (hkey _).bind fun _ => (keeps_visit cfg .value clauseKey _).bind fun _ => ?_
      refine (keeps_addNew _ _).bind fun _ => (keeps_addNew _ _).bind fun _ => ?_
      exact (keeps_append _ _).bind fun _ => keeps_visitCaseClauses cfg hkey join cs _

theorem keeps_visitClauseActions (cfg : Config) (target : InstrId) :
    ∀ (es : List Expr) (v : Visitor), Keeps (visitClauseActions cfg target es v)
  | [], _ => keeps_pure _
  | e :: es, v => by
      refine (keeps_visit cfg .effect e {}).bind fun forAction => ?_
      have hnext : ∀ forAction : Visitor, Keeps (do
          appendFragment target forAction
          visitClauseActions cfg target es { v with exit := forAction.exit }) := fun _ =>
        (keeps_appendFragment _ _).bind fun _ => keeps_visitClauseActions cfg target es _
      dsimp only
      split
      · exact (keeps_addImplicitReturn _).bind hnext
      · exact (keeps_pure _).bind hnext

theorem keeps_visitChildren (cfg : Config) (target : InstrId) :
    ∀ (es : List Expr) (r : Option InstrId), Keeps (visitChildren cfg target es r)
  | [], _ => keeps_pure _
  | e :: es, _ => by
      refine (keeps_visit cfg .value e {}).bind fun _ => (keeps_appendFragment _ _).bind fun _ => ?_
      exact keeps_visitChildren cfg target es _

theorem keeps_visitEntries (cfg : Config) :
    ∀ (es : List Entry) (v : Visitor), Keeps (visitEntries cfg es v)
  | [], _ => keeps_pure _
  | .mk key e :: es, v => by
      refine (keeps_addNew _ _).bind fun _ => (keeps_visit cfg .value e {}).bind fun _ => ?_
      exact (keeps_append _ _).bind fun _ => keeps_visitEntries cfg es _

theorem keeps_visitOperators (cfg : Config) (m : Mode) (l : LocalId) :
    ∀ (ops : List RxOp) (v : Visitor), Keeps (visitOperators cfg m l ops v)
  | [], _ => keeps_pure _
  | .mk symbol args :: ops, v => by
      rw [visitOperators]
      split
      · refine (keeps_loadLocal _).bind fun _ => (keeps_addNew _ _).bind fun _ => ?_
        refine (keeps_visitArgs cfg args _).bind fun _ => (keeps_addRxCall _ _ _).bind fun _ => ?_
        refine (keeps_append _ _).bind fun _ => ?_
        split
        · split
          · exact keeps_returnNew _ _ _
          · exact (keeps_loadLocal _).bind fun _ => keeps_returnNew _ _ _
        · exact keeps_visitOperators cfg m l ops _
      · exact keeps_pure _

end

theorem keeps_visitLambdaBody (cfg : Config) :
    ∀ (es : List Expr) (v : Visitor), Keeps (visitLambdaBody cfg es v) := by
  intro es
  induction es with
  | nil => exact fun v => keeps_pure _
  | cons e es ih =>
      intro v
      rw [visitLambdaBody]
      split
      · refine (keeps_visit cfg .value e {}).bind fun forValue => (keeps_append _ _).bind fun v => ?_
        have hret : ∀ v : Visitor, Keeps (do visitLambdaBody cfg es (← addNew v .ret)) := fun v =>
          (keeps_addNew v .ret).bind fun _ => ih _
        dsimp only
        split
        · split
          · split
            · exact keeps_failure
            · refine keeps_get fun b => ?_
              split
              · exact (keeps_pure _ b).bind hret
              · exact (keeps_addNew _ _ b).bind hret
          · exact (keeps_pure _).bind hret
        · exact (keeps_pure _).bind fun _ => ih _
      · exact keeps_pure _

theorem keeps_visitLambda (cfg : Config) (scope : Option ScopeId) (body : List Expr) (v : Visitor) :
    Keeps (visitLambda cfg scope body v) := by
  have hbody : Keeps (do
      let v ← visitLambdaBody cfg body v
      popScope
      return v) :=
    (keeps_visitLambdaBody cfg body v).bind fun _ => keeps_popScope.bind fun _ => keeps_pure _
  refine keeps_pushScope.bind fun _ => ?_
  cases scope with
  | none => exact hbody
  | some s =>
      refine keeps_get fun b => ?_
      dsimp only
      split
      · exact keeps_failure b
      · exact (keepsFrom_set (.addScope _ _ _)).bind fun _ => hbody

theorem Keeps.build {visitor : Visitor → Build Visitor} (h : ∀ v, Keeps (visitor v)) :
    Keeps (build visitor) := by
  refine keeps_getNextBlockId.bind fun _ => (keeps_newInstr _).bind fun _ => ?_
  refine keeps_newTarget.bind fun _ => (h _).bind fun _ => (keeps_appendFragment _ _).bind fun _ => ?_
  exact (keeps_appendInstr _ _).bind fun _ => keeps_pure _

end FlowGraphBuilder

/-! ### Compiling and entering a call -/

open FlowGraphBuilder

theorem FlowGraphCompiler.builderFor_extended (m : Memory) (scope : ScopeId)
    (execScope : Option ScopeId) : m.scopes.Extended (builderFor m scope execScope).scopes := by
  have hnew := Scopes.Extended.newScope m.scopes (some scope)
  cases execScope with
  | none => exact hnew
  | some e => exact hnew.trans (.addScope _ _ _)

/-- Compiling in a scope only adds scopes and variables. -/
theorem FlowGraphCompiler.compileTarget_extended {fuel region : Nat}
    {visitor : Visitor → Build Visitor} (hv : ∀ v, Keeps (visitor v)) {scope : ScopeId}
    {execScope : Option ScopeId} {m m' : Memory}
    (h : compileTarget fuel visitor scope execScope m = some (region, m')) :
    m.scopes.Extended m'.scopes := by
  obtain ⟨⟨entry, b⟩, hbuild, h⟩ := Option.bind_eq_some_iff.mp h
  obtain ⟨c, -, h⟩ := Option.bind_eq_some_iff.mp h
  cases h
  exact (builderFor_extended m scope execScope).trans (Keeps.build hv _ _ _ hbuild)

namespace Runtime

theorem bindArgs_extended {locals : ScopeId} {ps : List Argument} {vs : List Value}
    {m m' : Scopes} (h : bindArgs locals ps vs m = .ok m') : m.Extended m' := by
  induction ps generalizing vs m with
  | nil =>
      cases h
      exact .refl _
  | cons p ps ih =>
      cases vs with
      | nil => cases h
      | cons v vs =>
          rw [bindArgs] at h
          dsimp only at h
          split at h
          · exact ((Scopes.Extended.newLocal _ _ _ _).trans (.addLocal _ _ _)).trans (ih h)
          · cases h

/-- The scope of a call of a lambda is a new one below the current scope. -/
theorem bindLambda_spec {id : Nat} {f : Lambda} {args : List Value} {rt rt' : Runtime}
    {locals : ScopeId} (h : bindLambda id f args rt = .ok (locals, rt')) :
    ∃ scopes, (rt.memory.scopes.newScope rt.scope).2.Extended scopes ∧
      locals = rt.memory.scopes.scopes.length ∧
      rt' = { rt with scope := some locals, memory := { rt.memory with scopes } } := by
  rw [bindLambda] at h
  dsimp only at h
  split at h
  · cases h
  · obtain ⟨scopes, hargs, h⟩ := Faulting.result_bind_eq_ok.mp h
    cases h
    refine ⟨scopes, ?_, rfl, rfl⟩
    exact ((Scopes.Extended.newLocal _ _ _ _).trans (.addLocal _ _ _)).trans (bindArgs_extended hargs)

/-- Compiling a lambda changes its code and the scopes. -/
theorem compileLambda_spec {cfg : Config} {fuel id region : Nat} {locals : ScopeId}
    {rt rt' : Runtime} (h : compileLambda cfg fuel id locals rt = .ok (region, rt')) :
    ∃ m, rt.memory.scopes.Extended m.scopes ∧ rt' = { rt with memory := m } := by
  rw [compileLambda] at h
  split at h
  · cases h
  · split at h
    · cases h
      exact ⟨_, .refl _, rfl⟩
    · split at h
      · cases h
      · dsimp only at h
        split at h
        · cases h
        · rename_i hm
          cases h
          have hext := FlowGraphCompiler.compileTarget_extended (keeps_visitLambda _ _ _) hm
          refine ⟨_, ?_, rfl⟩
          exact hext

end Runtime

end Gel
