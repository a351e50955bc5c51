import Gel.Expression
import Gel.Support.Faulting

/-!
# Children — two ways through the children of a node

A pass reads the children of an expression by `GetNumberOfChildren` and `GetChildAt`, or has
`VisitChildren` call a visitor on them.  Each class overrides the two on its own.

* `children_eq`, `visitChildren_eq`: what a node answers by index, and what it has any visitor do.
* `childrenAgree_iff`: the nodes on which the two ways agree.  `CondExpr::GetChildAt` reads one
  clause too many, `SetFieldExpr::VisitChildren` tests its value the wrong way round, and
  `SetFieldExpr`, `SetLocalExpr` and `CaseExpr` have children only when they are visited.
-/

namespace Gel

/-- The classes of `FOR_EACH_EXPRESSION_NODE` with their pointers to other nodes, which an
assertion alone keeps from being null. -/
inductive ExprNode (α : Type) where
  | literal
  | unary (value : Option α)
  | binaryOp (left right : Option α)
  | begin (body : List (Option α))
  | while (test : Option α) (body : List (Option α))
  | cond (clauses : List (Option α)) (alternate : Option α)
  | clause (key : Option α) (actions : List (Option α))
  | when (test : Option α) (actions : List (Option α))
  | case (key : Option α) (clauses : List (Option α))
  | localDef (value : Option α)
  | import
  | callProc (target : Option α) (args : List (Option α))
  | loadInstanceMethod
  | setField (instance_ value : Option α)
  | setLocal (value : Option α)
  | binding (value : Option α)
  | let (bindings body : List (Option α))
  | rxOp (body : List (Option α))
  | letRx (source : Option α) (operators : List (Option α))
  | list (values : List (Option α))
  | throw (value : Option α)
  | quoted
  | instanceOf (value : Option α)
  | cast (value : Option α)
  | new (args : List (Option α))
  | newMap (data : List (Symbol × Option α))
  | loadField (instance_ : Option α)

namespace ExprNode

variable {α σ : Type}

/-! ### By index -/

/-- `operator[]` of a vector, which does not check its index. -/
def elementAt (children : List (Option α)) (idx : Nat) : Except Fault (Option α) :=
  match children[idx]? with
  | some child => .ok child
  | none => .error .undefined

/-- `TemplateExpression::GetChildAt`, by `std::array::at`. -/
def inputAt (children : List (Option α)) (idx : Nat) : Except Fault (Option α) :=
  match children[idx]? with
  | some child => .ok child
  | none => .error (.thrown "array::at")

def getNumberOfChildren : ExprNode α → Nat
  | binaryOp _ _ => 2
  | unary _ | throw _ | instanceOf _ | cast _ | loadField _ | localDef _ => 1
  | begin body | .while _ body | rxOp body | letRx _ body | list body => body.length
  | cond clauses alternate => (if alternate.isSome then 1 else 0) + clauses.length
  | clause _ actions | .when _ actions => 1 + actions.length
  | callProc _ args => args.length + 1
  | .let bindings body => body.length + bindings.length
  | new args => args.length
  | newMap data => data.length
  | literal | quoted | .import | loadInstanceMethod | binding _ | case _ _ | setField _ _ |
    setLocal _ => 0

def getChildAt (idx : Nat) : ExprNode α → Except Fault (Option α)
  | unary v | throw v | instanceOf v | cast v | loadField v => inputAt [v] idx
  | binaryOp l r => inputAt [l, r] idx
  | localDef v => elementAt [v] idx
  | begin body | .while _ body | rxOp body | letRx _ body | list body => elementAt body idx
  | cond clauses alternate =>
      if idx ≤ clauses.length then elementAt clauses idx else .ok alternate
  | clause key actions | .when key actions =>
      if idx = 0 then .ok key else elementAt actions (idx - 1)
  | callProc target args => if idx = 0 then .ok target else elementAt args (idx - 1)
  | .let bindings body =>
      if bindings.length ≤ idx then elementAt body (idx - bindings.length)
      else elementAt bindings idx
  | new args => elementAt args idx
  | newMap data => elementAt (data.map Prod.snd) idx
  | literal | quoted | .import | loadInstanceMethod | binding _ | case _ _ | setField _ _ |
    setLocal _ => .ok none

/-- `GetChildAt` of every index below `GetNumberOfChildren`. -/
def children (n : ExprNode α) : Except Fault (List (Option α)) :=
  (List.range n.getNumberOfChildren).mapM n.getChildAt

/-! ### By a visitor -/

/-- `Accept`, of a node that may be null. -/
def accept (vis : α → StateT σ (Except Fault) Bool) : Option α → StateT σ (Except Fault) Bool
  | some e => vis e
  | none => MonadExcept.throw .undefined

/-- A loop over children, up to the first that the visitor refuses. -/
def acceptAll (vis : α → StateT σ (Except Fault) Bool) :
    List (Option α) → StateT σ (Except Fault) Bool
  | [] => pure true
  | e :: es => do
      if !(← accept vis e) then return false
      acceptAll vis es

def visitChildren (vis : α → StateT σ (Except Fault) Bool) :
    ExprNode α → StateT σ (Except Fault) Bool
  | literal | quoted | .import | loadInstanceMethod | binding _ => pure false
  | unary v | throw v | instanceOf v | cast v | loadField v => acceptAll vis [v]
  | binaryOp l r => do
      if !(← accept vis l) then return false
      if !(← accept vis r) then return false
      return true
  -- The loop of `TemplateDefinition` leaves a null child out.
  | localDef none => pure true
  | localDef (some v) => acceptAll vis [some v]
  | begin body | .while _ body | rxOp body | letRx _ body | list body => acceptAll vis body
  | cond clauses alternate => do
      if !(← acceptAll vis clauses) then return false
      if alternate.isSome then
        if !(← accept vis alternate) then return false
      return true
  | clause key es | .when key es | case key es | callProc key es => do
      if !(← accept vis key) then return false
      acceptAll vis es
  | setLocal none => pure false
  | setLocal (some v) => vis v
  | setField instance_ value => do
      if instance_.isSome then
        if !(← accept vis instance_) then return false
      if value.isNone then
        if !(← accept vis value) then return false
      return true
  | .let bindings body => do
      if !(← acceptAll vis bindings) then return false
      acceptAll vis body
  | new args => acceptAll vis args
  | newMap data => acceptAll vis (data.map Prod.snd)

/-- A visitor that notes what it is called on and always returns true. -/
def note (e : α) : StateT (List α) (Except Fault) Bool := do
  modify (· ++ [e])
  return true

/-- The expressions `VisitChildren` calls the visitor on. -/
def visited (n : ExprNode α) : Except Fault (List α) :=
  Prod.snd <$> n.visitChildren note []

/-- Both ways give the same expressions, in the same order, and neither meets a null pointer. -/
def ChildrenAgree (n : ExprNode α) : Prop :=
  ∃ es : List α, n.children = .ok (es.map some) ∧ n.visited = .ok es

/-! ### The nodes that agree -/

/-- The pointers that a node's class counts as its children. -/
def fields : ExprNode α → List (Option α)
  | unary v | throw v | instanceOf v | cast v | loadField v | localDef v => [v]
  | binaryOp l r => [l, r]
  | begin body | .while _ body | rxOp body | letRx _ body | list body => body
  | cond clauses _ => clauses
  | clause key es | .when key es | callProc key es => key :: es
  | .let bindings body => bindings ++ body
  | new args => args
  | newMap data => data.map Prod.snd
  | literal | quoted | .import | loadInstanceMethod | binding _ | case _ _ | setField _ _ |
    setLocal _ => []

/-- A `cond` without an alternate, a `set!` without a value, a `set!` of a field with a value and
no instance, or any other node but a `case`. -/
def Regular : ExprNode α → Prop
  | cond _ alternate => alternate = none
  | setLocal value => value = none
  | setField instance_ value => instance_ = none ∧ value.isSome
  | case _ _ => False
  | _ => True

/-- A regular node with no null pointer to a child. -/
structure Enumerates (n : ExprNode α) : Prop where
  nonnull : none ∉ n.fields
  regular : n.Regular

variable {vis : α → StateT σ (Except Fault) Bool} {ps qs : List (Option α)} {p : Option α}
  {a : α} {idx : Nat} {seen s : List α} {es : List α} {b : Bool} {n : ExprNode α}

/-! ### Reading by index -/

theorem elementAt_eq_ok : elementAt ps idx = .ok p ↔ ps[idx]? = some p := by
  unfold elementAt
  cases ps[idx]? <;> simp

theorem inputAt_eq_ok : inputAt ps idx = .ok p ↔ ps[idx]? = some p := by
  unfold inputAt
  cases ps[idx]? <;> simp

/-- A class whose two overrides read one list of pointers. -/
theorem children_of_getElem (hlen : n.getNumberOfChildren = ps.length)
    (hat : ∀ idx p, ps[idx]? = some p → n.getChildAt idx = .ok p) : n.children = .ok ps := by
  have hget : ∀ i ∈ List.range ps.length, n.getChildAt i = .ok (ps[i]?.getD none) := by
    intro i hi
    have hi := List.getElem?_eq_getElem (List.mem_range.mp hi)
    rw [hat i _ hi, hi, Option.getD_some]
  rw [children, hlen, Faulting.result_mapM_eq_ok hget]
  refine congrArg _ (List.ext_getElem? fun i => ?_)
  rw [List.getElem?_map]
  by_cases hi : i < ps.length
  · simp [hi]
  · simp [hi]

theorem children_eq (h : ∀ cs p, n ≠ cond cs (some p)) : n.children = .ok n.fields := by
  cases n with
  | unary | throw | instanceOf | cast | loadField | binaryOp =>
      exact children_of_getElem rfl fun _ _ => inputAt_eq_ok.mpr
  | localDef | begin | «while» | rxOp | letRx | list | new =>
      exact children_of_getElem rfl fun _ _ => elementAt_eq_ok.mpr
  | newMap data =>
      refine children_of_getElem ?_ fun _ _ => elementAt_eq_ok.mpr
      simp [getNumberOfChildren, fields]
  | literal | quoted | «import» | loadInstanceMethod | binding | case | setField | setLocal =>
      rfl
  | clause key es | when key es =>
      refine children_of_getElem (Nat.add_comm _ _) fun idx p hp => ?_
      cases idx with
      | zero => exact congrArg _ (Option.some.inj hp)
      | succ i => exact elementAt_eq_ok.mpr hp
  | callProc key es =>
      refine children_of_getElem rfl fun idx p hp => ?_
      cases idx with
      | zero => exact congrArg _ (Option.some.inj hp)
      | succ i => exact elementAt_eq_ok.mpr hp
  | «let» bindings body =>
      refine children_of_getElem ?_ fun idx p hp => ?_
      · simp [getNumberOfChildren, fields, Nat.add_comm]
      · rw [fields] at hp
        rw [getChildAt]
        split
        · next hle => exact elementAt_eq_ok.mpr (by rwa [← List.getElem?_append_right hle])
        · next hlt =>
            rw [List.getElem?_append_left (Nat.lt_of_not_le hlt)] at hp
            exact elementAt_eq_ok.mpr hp
  | cond clauses alternate =>
      cases alternate with
      | some p => exact absurd rfl (h clauses p)
      | none =>
          refine children_of_getElem (Nat.zero_add _) fun idx p hp => ?_
          have hlt : idx < clauses.length := (List.getElem?_eq_some_iff.mp hp).1
          rw [getChildAt, if_pos hlt.le]
          exact elementAt_eq_ok.mpr hp

/-- The index of the alternate passes the test for a clause. -/
theorem children_cond_some : (cond ps (some a)).children ≠ .ok qs := by
  intro h
  have hlast : ps.length ∈ List.range (cond ps (some a)).getNumberOfChildren := by
    simp [getNumberOfChildren]
  obtain ⟨p, hp⟩ := Faulting.result_mapM_ok_iff.mp ⟨_, h⟩ _ hlast
  simp [getChildAt, elementAt] at hp

/-! ### Visiting -/

theorem acceptAll_cons : acceptAll vis (p :: ps) =
    accept vis p >>= fun b => if !b then pure false else acceptAll vis ps := rfl

theorem acceptAll_append : acceptAll vis (ps ++ qs) =
    acceptAll vis ps >>= fun b => if !b then pure false else acceptAll vis qs := by
  induction ps with
  | nil => exact (pure_bind true fun b => if !b then pure false else acceptAll vis qs).symm
  | cons p ps ih =>
      rw [List.cons_append, acceptAll_cons, acceptAll_cons, ih, bind_assoc]
      refine bind_congr fun b => ?_
      cases b with
      | false => exact (pure_bind false fun b => if !b then pure false else acceptAll vis qs).symm
      | true => rfl

/-- An enumerable node has any visitor do what a loop over its fields does, a class without
children of its own apart. -/
theorem visitChildren_eq (h : n.Enumerates) :
    n.visitChildren vis = acceptAll vis n.fields ∨
      n.fields = [] ∧ n.visitChildren vis = pure false := by
  obtain ⟨hnull, h⟩ := h
  cases n with
  | literal | quoted | «import» | loadInstanceMethod | binding => exact .inr ⟨rfl, rfl⟩
  | unary | throw | instanceOf | cast | loadField | begin | «while» | rxOp | letRx | list | new |
    newMap | clause | when | callProc => exact .inl rfl
  | binaryOp l r => exact .inl rfl
  | localDef v =>
      cases v with
      | none => exact absurd (List.mem_singleton_self none) hnull
      | some e => exact .inl rfl
  | «let» bindings body => exact .inl acceptAll_append.symm
  | case => exact h.elim
  | setLocal =>
      cases h
      exact .inr ⟨rfl, rfl⟩
  | setField i v =>
      obtain ⟨hi, hv⟩ := h
      cases hi
      cases v with
      | none => cases hv
      | some e => exact .inl rfl
  | cond clauses =>
      cases h
      left
      have h := (@acceptAll_append _ _ vis clauses []).symm
      rwa [List.append_nil] at h

theorem acceptAll_note_some : acceptAll note (es.map some) seen = .ok (true, seen ++ es) := by
  induction es generalizing seen with
  | nil =>
      rw [List.append_nil]
      rfl
  | cons e es ih =>
      have hstep : acceptAll note ((e :: es).map some) seen =
          acceptAll note (es.map some) (seen ++ [e]) := rfl
      rw [hstep, ih, List.append_assoc, List.singleton_append]

theorem acceptAll_note_eq_ok (h : acceptAll note ps seen = .ok (b, s)) :
    ∃ es, ps = es.map some ∧ s = seen ++ es := by
  induction ps generalizing seen with
  | nil =>
      cases h
      exact ⟨[], rfl, (List.append_nil _).symm⟩
  | cons p ps ih =>
      cases p with
      | none => cases h
      | some e =>
          have hstep : acceptAll note ps (seen ++ [e]) = .ok (b, s) := h
          obtain ⟨es, rfl, hs⟩ := ih hstep
          refine ⟨e :: es, rfl, ?_⟩
          rw [hs, List.append_assoc, List.singleton_append]

/-- A list without a null pointer. -/
theorem exists_map_some (h : none ∉ ps) : ∃ es : List α, ps = es.map some := by
  induction ps with
  | nil => exact ⟨[], rfl⟩
  | cons p ps ih =>
      rw [List.mem_cons, not_or] at h
      obtain ⟨e, rfl⟩ := Option.ne_none_iff_exists'.mp (Ne.symm h.1)
      obtain ⟨es, rfl⟩ := ih h.2
      exact ⟨e :: es, rfl⟩

theorem childrenAgree_of_enumerates (h : n.Enumerates) : n.ChildrenAgree := by
  obtain ⟨es, hes⟩ := exists_map_some h.nonnull
  refine ⟨es, ?_, ?_⟩
  · rw [← hes]
    refine children_eq fun cs p hn => ?_
    subst hn
    cases h.regular
  · rcases @visitChildren_eq _ _ note _ h with hv | ⟨hnil, hv⟩
    · rw [visited, hv, hes, acceptAll_note_some]
      rfl
    · rw [hnil] at hes
      rw [visited, hv, List.map_eq_nil_iff.mp hes.symm]
      rfl

theorem enumerates_of_childrenAgree (h : n.ChildrenAgree) : n.Enumerates := by
  obtain ⟨es, hes, hv⟩ := h
  by_cases hcond : ∃ cs p, n = cond cs (some p)
  · obtain ⟨cs, p, rfl⟩ := hcond
    exact absurd hes children_cond_some
  · rw [children_eq fun cs p hn => hcond ⟨cs, p, hn⟩] at hes
    have hfields : n.fields = es.map some := Except.ok.inj hes
    have hnull : none ∉ n.fields := by simp [hfields]
    refine ⟨hnull, ?_⟩
    cases n with
    | cond cs p =>
        cases p with
        | none => rfl
        | some p => exact absurd ⟨cs, p, rfl⟩ hcond
    | setLocal v =>
        have hnil : es = [] := List.map_eq_nil_iff.mp hfields.symm
        cases v with
        | none => rfl
        | some e =>
            rw [hnil] at hv
            cases hv
    | setField i v =>
        have hnil : es = [] := List.map_eq_nil_iff.mp hfields.symm
        rw [hnil] at hv
        cases i with
        | none =>
            cases v with
            | none => cases hv
            | some e => exact ⟨rfl, rfl⟩
        | some i => cases v <;> cases hv
    | case k cs =>
        have hnil : es = [] := List.map_eq_nil_iff.mp hfields.symm
        rw [hnil] at hv
        -- The key is the first that the visitor is called on.
        obtain ⟨⟨b, s⟩, hvis, hs⟩ := Faulting.result_map_eq_ok.mp hv
        obtain ⟨calls, hkey, hcalls⟩ := @acceptAll_note_eq_ok _ (k :: cs) _ _ _ hvis
        have hnone : calls = [] := hcalls.symm.trans hs
        rw [hnone] at hkey
        cases hkey
    | _ => trivial

/-- The nodes on which the two ways agree. -/
theorem childrenAgree_iff (n : ExprNode α) : n.ChildrenAgree ↔ n.Enumerates :=
  ⟨enumerates_of_childrenAgree, childrenAgree_of_enumerates⟩

/-- `(cond #t 1 2)`: the second of its two children is read behind its one clause. -/
theorem not_childrenAgree_cond : ¬ (cond [some 0] (some 1)).ChildrenAgree := by
  rintro ⟨es, hes, -⟩
  exact children_cond_some hes

end ExprNode

/-! ### The trees of the parser -/

/-- What a node of a parsed tree points to. -/
inductive ExprChild where
  | expr (e : Expr)
  | clause (c : Clause)
  | rxOp (op : RxOp)

namespace ExprChild

/-- The pointers to expressions. -/
def exprs (es : List Expr) : List (Option ExprChild) := es.map fun e => some (expr e)

/-- The pointers to clauses. -/
def clauses (cs : List Clause) : List (Option ExprChild) := cs.map fun c => some (clause c)

/-- The value of an entry of a map, behind its key. -/
def entry : Entry → Symbol × Option ExprChild
  | .mk key value => (key, some (expr value))

/-- The node of a parsed tree, none of whose pointers is null. -/
def node : ExprChild → ExprNode ExprChild
  | expr (.literal _) => .literal
  | expr (.quoted _) => .quoted
  | expr (.unary _ v) => .unary (some (expr v))
  | expr (.binaryOp _ l r) => .binaryOp (some (expr l)) (some (expr r))
  | expr (.begin body) => .begin (exprs body)
  | expr (.while test body) => .while (some (expr test)) (exprs body)
  | expr (.cond cs alternate) => .cond (clauses cs) (alternate.map expr)
  | expr (.when test actions) => .when (some (expr test)) (exprs actions)
  | expr (.case key cs) => .case (some (expr key)) (clauses cs)
  | expr (.localDef _ v) => .localDef (some (expr v))
  | expr (.setLocal _ v) => .setLocal (some (expr v))
  | expr (.setField _ i v) => .setField (some (expr i)) (some (expr v))
  | expr (.loadField i _) => .loadField (some (expr i))
  | expr .import => .import
  | expr (.callProc target args) => .callProc (some (expr target)) (exprs args)
  | expr (.binding _ v) => .binding (some (expr v))
  | expr (.let bindings body) => .let (exprs bindings) (exprs body)
  | expr (.letRx source operators) =>
      .letRx (some (expr source)) (operators.map fun op => some (rxOp op))
  | expr (.list values) => .list (exprs values)
  | expr (.throw v) => .throw (some (expr v))
  | expr (.instanceOf _ v) => .instanceOf (some (expr v))
  | expr (.cast _ v) => .cast (some (expr v))
  | expr (.new _ args) => .new (exprs args)
  | expr (.newMap data) => .newMap (data.map entry)
  | expr (.loadInstanceMethod _ _) => .loadInstanceMethod
  | clause (.mk key actions) => .clause (some (expr key)) (exprs actions)
  | rxOp (.mk _ args) => .rxOp (exprs args)

/-- Neither a `case`, nor a `set!`, nor a `cond` with an alternate. -/
def Enumerable : ExprChild → Prop
  | expr (.case _ _) => False
  | expr (.setLocal _ _) => False
  | expr (.setField _ _ _) => False
  | expr (.cond _ alternate) => alternate = none
  | _ => True

theorem none_not_mem_exprs (es : List Expr) : none ∉ exprs es := by simp [exprs]

theorem none_not_mem_clauses (cs : List Clause) : none ∉ clauses cs := by simp [clauses]

theorem none_not_mem_fields (c : ExprChild) : none ∉ c.node.fields := by
  cases c with
  | expr e =>
      cases e with
      | newMap data =>
          have hentry : ∀ d : Entry, (entry d).2 ≠ none := fun d => by
            cases d
            simp [entry]
          simpa [node, ExprNode.fields] using fun d _ => hentry d
      | _ => simp [node, ExprNode.fields, none_not_mem_exprs, none_not_mem_clauses]
  | clause c =>
      cases c
      simp [node, ExprNode.fields, none_not_mem_exprs]
  | rxOp op =>
      cases op
      simp [node, ExprNode.fields, none_not_mem_exprs]

theorem regular_node_iff (c : ExprChild) : c.node.Regular ↔ c.Enumerable := by
  cases c with
  | expr e =>
      cases e with
      | setLocal | setField | cond => simp [node, ExprNode.Regular, Enumerable]
      | _ => rfl
  | clause c =>
      cases c
      rfl
  | rxOp op =>
      cases op
      rfl

/-- The parsed trees whose children are the same both ways. -/
theorem childrenAgree_node_iff (c : ExprChild) : c.node.ChildrenAgree ↔ c.Enumerable := by
  rw [← c.regular_node_iff]
  refine ⟨fun h => (ExprNode.enumerates_of_childrenAgree h).regular, fun h => ?_⟩
  exact ExprNode.childrenAgree_of_enumerates ⟨c.none_not_mem_fields, h⟩

end ExprChild

end Gel
