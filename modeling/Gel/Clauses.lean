import Gel.Correctness

/-!
# Clauses — the code of `cond`

The clauses of a `cond` share their alternate target and their join, and the branch of each one
emits both.  `clausesFor` says what the builder makes of clauses over the core: the tests are chained
one behind the other's branch, whatever the shared blocks emit.
-/

namespace Gel

open FlowGraphCompiler FlowGraphBuilder Layout

namespace FlowGraphBuilder

/-- The test of a `cond` clause: an equality leaves its operands to the branch. -/
def visitTest (cfg : Config) (key : Expr) (v : Visitor) : Build (Visitor × Condition) :=
  match key with
  | .binaryOp .equals l r => do
      let v ← append v (← visit cfg .value l {})
      let v ← append v (← visit cfg .value r {})
      return (v, .equal)
  | key => do
      let v ← append v (← visit cfg .value key {})
      return (v, .true)

theorem visitCondClauses_cons (cfg : Config) (altTarget join : InstrId) (key : Expr)
    (actions : List Expr) (cs : List Clause) (v : Visitor) :
    visitCondClauses cfg altTarget join (.mk key actions :: cs) v = (do
      let target ← newTarget
      visitActions cfg target actions
      appendInstr target (← newInstr (.goto join))
      let (v, condition) ← visitTest cfg key v
      let v ← addNew v (.branch condition target (some altTarget) join)
      visitCondClauses cfg altTarget join cs v) := by
  cases key with
  | binaryOp op l r => cases op <;> simp only [visitCondClauses, visitTest, bind_assoc, pure_bind]
  | _ => simp only [visitCondClauses, visitTest, bind_assoc, pure_bind]

end FlowGraphBuilder

/-- The code of a test, behind what a visitor has built already: what it leaves on the stack makes
the branch go on or jump. -/
structure TestFor (cfg : Config) (t : CoreExpr) (b₀ : Builder) (v : Visitor) (b : Builder)
    (condition : Condition) (v' : Visitor) (b' : Builder) (c : List Item) : Prop where
  run : visitTest cfg t.toExpr v b = some ((v', condition), b')
  built : ∀ ctx, Extends ctx b₀ v b v' b' c
  blocks : b.numBlocks ≤ b'.numBlocks
  labels : LabelsIn b.numBlocks b'.numBlocks c
  size_pos : 0 < size c
  value : v'.value = v.value
  computes : ∀ (host : Host) {callN a env apply}, ReadsAs callN a apply → ∀ {m},
    env.Holds b.scopes b.scope a m → ∀ s {r m'}, t.eval env apply m = some (r, m') →
      ∃ s', Computes host callN a c b.numBlocks b'.numBlocks s m s' m' ∧ ∀ p target,
        Interpreter.jump a.region (branchOp condition) target (a.state p s' m') =
          if r.truth then .ok (a.state p s m') else (a.state p s m').jumpTo a.region target

section Tests

variable {cfg : Config} {b₀ b : Builder} {v : Visitor} {ctx : Graph → Prop} {c : List Item}

/-- A test that is compiled like a value. -/
theorem testFor_value {t : CoreExpr} (h : Built ctx b₀ v b c)
    (ht : ∀ v : Visitor, visitTest cfg t.toExpr v = (do
      let v ← append v (← visit cfg .value t.toExpr {})
      return (v, .true)))
    (ih : ∃ v b' c, CodeFor cfg t b v b' c) :
    ∃ condition v' b' c', TestFor cfg t b₀ v b condition v' b' c' := by
  obtain ⟨v₁, b₁, c₁, h₁⟩ := ih
  obtain ⟨v₂, b₂, hrun₂, hval₂, -, hblocks₂, -⟩ := h.append h₁.built.ofAnywhere
  refine ⟨.true, v₂, b₂, c₁, ?_, fun ctx => .append h₁.built.ofAnywhere hrun₂,
    hblocks₂ ▸ h₁.built.grown.blocks, hblocks₂ ▸ h₁.labels, h₁.size_pos, hval₂, ?_⟩
  · rw [ht, Partial.bind_run h₁.run, Partial.bind_run hrun₂]
    rfl
  · intro host callN a env apply hr m hm s r m' he
    exact ⟨r :: s, hblocks₂ ▸ h₁.computes host hr hm s he, fun p target => a.jump_jnz⟩

/-- An equality that the branch computes. -/
theorem testFor_equals {l r : CoreExpr} (h : Built ctx b₀ v b c)
    (ihl : ∀ b : Builder, b.Fresh → ∃ v b' c, CodeFor cfg l b v b' c)
    (ihr : ∀ b : Builder, b.Fresh → ∃ v b' c, CodeFor cfg r b v b' c) :
    ∃ condition v' b' c', TestFor cfg (.binary .equals l r) b₀ v b condition v' b' c' := by
  obtain ⟨v₁, b₁, v₂, b₂, v₃, b₃, v₄, b₄, c', hrun₁, hrun₂, hrun₃, hrun₄, hval, hbuilt, hle, hlabels,
    hpos, hcomp⟩ := codeFor_operands h ihl ihr
  refine ⟨.equal, v₄, b₄, c', ?_, hbuilt, hle, hlabels, hpos, hval, ?_⟩
  · rw [CoreExpr.toExpr, visitTest, Partial.bind_run hrun₁, Partial.bind_run hrun₂,
      Partial.bind_run hrun₃, Partial.bind_run hrun₄]
    rfl
  · intro host callN a env apply hr m hm s z m' he
    simp only [CoreExpr.eval, Option.bind_eq_bind, Option.bind_eq_some_iff, Option.pure_def,
      Option.some.injEq, Prod.mk.injEq] at he
    obtain ⟨⟨x, m₁⟩, hx, ⟨y, m₂⟩, hy, z', hz, rfl, rfl⟩ := he
    have hop : Value.bool <$> x.equals y = .ok z' := toOption_eq_some hz
    cases hq : x.equals y with
    | error => rw [hq] at hop; cases hop
    | ok q =>
        rw [hq] at hop
        obtain rfl : Value.bool q = z' := Except.ok.inj hop
        exact ⟨y :: x :: s, hcomp host hr hm s hx hy, fun p target => a.jump_jne hq⟩

/-- The code of a test. -/
theorem testFor {t : CoreExpr} (ht : Compiles cfg t) (h : Built ctx b₀ v b c) :
    ∃ condition v' b' c', TestFor cfg t b₀ v b condition v' b' c' := by
  cases t with
  | binary op l r =>
      cases op with
      | equals => exact testFor_equals h (ht.operands l r rfl).1 (ht.operands l r rfl).2
      | _ => exact testFor_value h (fun _ => rfl) (ht.code b h.fresh)
  | _ => exact testFor_value h (fun _ => rfl) (ht.code b h.fresh)

end Tests

/-! ### Blocks of actions -/

/-- The names and the scope that expressions are compiled with. -/
abbrev Names := Scopes × ScopeId

/-- The items compute the values of expressions, with labels of their own between `lo` and `hi`. -/
def ComputesAll (names : Names) (es : List CoreExpr) (c : List Item) (lo hi : BlockId) : Prop :=
  ∀ (host : Host) {callN a env apply}, ReadsAs callN a apply → ∀ {m},
    env.Holds names.1 names.2 a m → ∀ s {rs m'}, CoreExpr.evalAll env apply es m = some (rs, m') →
      Computes host callN a c lo hi s m (rs.reverse ++ s) m'

section Actions

variable {cfg : Config} {b₀ b : Builder} {own : Set InstrId} {e : InstrId} {c : List Item}

/-- **The actions of a block**, appended to its chain one after the other. -/
theorem actionsFor {es : List CoreExpr}
    (ih : ∀ e ∈ es, Compiles cfg e)
    (h : Chaining Anywhere b₀ own e b c) :
    ∃ b' own' c', visitActions cfg e (CoreExpr.toExprs es) b = some ((), b') ∧ Grown own b b' ∧
      (∀ i ∈ own', i ∈ own ∨ b.graph.size ≤ i) ∧ Chaining Anywhere b₀ own' e b' (c ++ c') ∧
      LabelsIn b.numBlocks b'.numBlocks c' ∧ es.length ≤ size c' ∧
      ComputesAll (b.scopes, b.scope) es c' b.numBlocks b'.numBlocks := by
  induction es generalizing b own c with
  | nil =>
      refine ⟨b, own, [], rfl, .refl _ _, fun _ hi => .inl hi, by rwa [List.append_nil], .nil _ _,
        le_rfl, ?_⟩
      intro host callN a env apply hr m hm s rs m' he
      cases he
      exact .nil _ _ _ _
  | cons x es ihs =>
      obtain ⟨v₁, b₁, c₁, h₁⟩ := (ih x List.mem_cons_self).code b h.fresh
      obtain ⟨b₂, own₂, hrun₂, hg₂, -, hblocks₂, hown₂, hchain₂⟩ := h.appendFragment h₁.built
      obtain ⟨b₃, own₃, c₃, hrun₃, hg₃, hown₃, hchain₃, hlabels₃, hsize₃, hcomp₃⟩ :=
        ihs (fun y hy => ih y (List.mem_cons_of_mem _ hy)) hchain₂
      have hle : b.numBlocks ≤ b₂.numBlocks := hblocks₂ ▸ h₁.built.grown.blocks
      have hlabels₁ : LabelsIn b.numBlocks b₂.numBlocks c₁ := hblocks₂ ▸ h₁.labels
      have hsz : b.graph.size ≤ b₂.graph.size := hg₂.size_le
      refine ⟨b₃, own₃, c₁ ++ c₃, ?_, ?_, ?_, by rwa [← List.append_assoc], ?_, ?_, ?_⟩
      · rw [CoreExpr.toExprs, visitActions, Partial.bind_run h₁.run, Partial.bind_run hrun₂]
        exact hrun₃
      · refine hg₂.trans hg₃ fun i hi hlt => ?_
        exact (hown₂ i hi).resolve_right (Nat.not_le.mpr hlt)
      · intro i hi
        rcases hown₃ i hi with hi | hi
        · exact hown₂ i hi
        · exact .inr (hsz.trans hi)
      · exact (hlabels₁.mono le_rfl hg₃.blocks).append (hlabels₃.mono hle le_rfl)
      · have := h₁.size_pos
        rw [size_append, List.length_cons]
        omega
      · intro host callN a env apply hr m hm s rs m' he
        simp only [CoreExpr.evalAll, Option.bind_eq_bind, Option.bind_eq_some_iff, Option.pure_def,
          Option.some.injEq, Prod.mk.injEq] at he
        obtain ⟨⟨x, m₁⟩, hx, ⟨xs, m₂⟩, hxs, rfl, rfl⟩ := he
        have hk := CoreExpr.eval_keeps hr hx
        have hm₂ : env.Holds b₂.scopes b₂.scope a m₁ := by
          rw [hg₂.scopes, hg₂.scope]
          exact hm.keeps hk
        have hfirst : Computes host callN a c₁ b.numBlocks b₂.numBlocks s m (x :: s) m₁ :=
          hblocks₂ ▸ h₁.computes host hr hm s hx
        have hall := hfirst.append (hcomp₃ host hr hm₂ (x :: s) hxs) hk hle hg₃.blocks
          fun l h₁ _ => hlabels₁.not_bind (.inr h₁)
        simpa using hall

end Actions

/-! ### Clauses -/

/-- What a clause is compiled to. -/
structure ClauseCode where
  test : List Item
  condition : Condition
  branch : InstrId
  target : InstrId
  label : BlockId
  actions : List Item
  goto : InstrId

namespace ClauseCode

/-- The block of the actions: it ends in a jump to the join. -/
def block (join : BlockId) (k : ClauseCode) : List Item :=
  .visit k.target :: (k.actions ++ [.visit k.goto, .jump .jump join])

/-- What a clause emits when the shared alternate emits `fs` and the shared join `js`. -/
def items (alt join : BlockId) (fs js : List Item) (k : ClauseCode) : List Item :=
  k.test ++ .visit k.branch :: .jump (branchOp k.condition) alt :: .bind k.label ::
    (k.block join ++ .bind alt :: (fs ++ .bind join :: js))

end ClauseCode

/-- The code of one clause: the label of its block comes first, then those of its actions and those
of its test. -/
structure ClauseFor (names : Names) (t : CoreExpr) (es : List CoreExpr) (k : ClauseCode)
    (lo hi : BlockId) : Prop where
  label : k.label = lo
  labels : ∃ mid, lo < mid ∧ mid ≤ hi ∧ LabelsIn (lo + 1) mid k.actions ∧
    ComputesAll names es k.actions (lo + 1) mid ∧ LabelsIn mid hi k.test ∧
    ∀ (host : Host) {callN a env apply}, ReadsAs callN a apply → ∀ {m},
      env.Holds names.1 names.2 a m → ∀ s {r m'}, t.eval env apply m = some (r, m') →
        ∃ s', Computes host callN a k.test mid hi s m s' m' ∧ ∀ p target,
          Interpreter.jump a.region (branchOp k.condition) target (a.state p s' m') =
            if r.truth then .ok (a.state p s m') else (a.state p s m').jumpTo a.region target
  test_pos : 0 < size k.test
  actions_le : es.length ≤ size k.actions

/-- The code of clauses, with labels one clause after the other. -/
inductive ClausesFor (names : Names) : List (CoreExpr × List CoreExpr) → List ClauseCode →
    BlockId → BlockId → Prop where
  | nil (lo : BlockId) : ClausesFor names [] [] lo lo
  | cons {t es k cs ks lo mid hi} (h : ClauseFor names t es k lo mid)
      (hs : ClausesFor names cs ks mid hi) : ClausesFor names ((t, es) :: cs) (k :: ks) lo hi

/-- Clauses over the core. -/
def toClauses (cs : List (CoreExpr × List CoreExpr)) : List Clause :=
  cs.map fun c => .mk c.1.toExpr (CoreExpr.toExprs c.2)

section Clauses

variable {cfg : Config} {altTarget join : InstrId} {alt bj : BlockId}

/-- A jump to a block that is there. -/
theorem straight_goto {b : Builder} (hj : blockId b.graph join = some bj) :
    Straight (b.alloc (.goto join)).graph (.goto join) [.jump .jump bj] := by
  intro g hgr
  have hag : b.graph.Agrees g ∅ ∅ :=
    ⟨(grown_alloc ∅ b (.goto join)).graph.instrs.trans hgr, fun _ hk => absurd hk (Set.notMem_empty _)⟩
  rw [itemsOf, hag.blockId hj]
  rfl

/-- **One clause**: its block is built first, then its test, and the branch joins the two. -/
theorem clauseFor {t : CoreExpr} {es : List CoreExpr} {ctx : Graph → Prop} {b₀ b : Builder}
    {v : Visitor} {c : List Item} (h : Built ctx b₀ v b c)
    (ha : blockId b.graph altTarget = some alt) (hj : blockId b.graph join = some bj)
    (iht : Compiles cfg t) (ih : ∀ e ∈ es, Compiles cfg e) (cs : List Clause) :
    ∃ v' b' k, visitCondClauses cfg altTarget join (.mk t.toExpr (CoreExpr.toExprs es) :: cs) v b
        = visitCondClauses cfg altTarget join cs v' b' ∧ v'.value = v.value ∧
      ClauseFor (b.scopes, b.scope) t es k b.numBlocks b'.numBlocks ∧
      ∀ ctx fs js, (∀ g, ctx g → Emits g (some altTarget) fs ∧ Emits g (some join) js) →
        Extends ctx b₀ v b v' b' (k.items alt bj fs js) := by
  obtain ⟨own₀, h₀⟩ := h
  -- the block of the actions
  have hg₁ : Grown ∅ b (b.allocBlock .targetEntry) := grown_allocBlock _ _ _
  obtain ⟨b₂, own₂, as, hrun₂, hg₂, hown₂, hchain₂, hlabels₂, hsize₂, hcomp₂⟩ :=
    actionsFor ih (Chaining.start h₀.fresh fun _ => rfl :
      Chaining Anywhere b {b.graph.size} b.graph.size (b.allocBlock .targetEntry)
        [.visit b.graph.size])
  have hb₂ : Grown ∅ b b₂ := hg₁.trans hg₂ fun i hi hlt => by
    obtain rfl := hi
    exact absurd hlt (Nat.lt_irrefl _)
  obtain ⟨b₃, hrun₃, hg₃, -, hblocks₃, hchain₃⟩ :=
    hchain₂.appendNew (straight_goto (hb₂.graph.blockId hj))
  have hb₃ : Grown ∅ b b₃ := hb₂.trans hg₃ fun i hi hlt =>
    absurd (hchain₂.owned i hi) (Nat.not_le.mpr hlt)
  -- the test
  have h₃ := h₀.later hb₃
  obtain ⟨condition, v₄, b₄, c₄, h₄⟩ := testFor iht ⟨own₀, h₃⟩
  -- the branch, whatever the shared blocks emit
  obtain ⟨k, hk⟩ : ∃ k : ClauseCode, k = {
      test := c₄, condition, branch := b₄.graph.size, target := b.graph.size,
      label := b.numBlocks, actions := as, goto := b₂.graph.size } := ⟨_, rfl⟩
  have hbranch : ∀ {ctx own c} fs js,
      (∀ g, ctx g → Emits g (some altTarget) fs ∧ Emits g (some join) js) →
      Owning ctx b₀ own v b c → ∃ v₅ b₅ own₅,
        addNew v₄ (.branch condition b.graph.size (some altTarget) join) b₄ = some (v₅, b₅) ∧
        v₅.value = v₄.value ∧ b₅.numBlocks = b₄.numBlocks ∧ Grown own b b₅ ∧
        (∀ i ∈ own₅, i ∈ own ∨ b.graph.size ≤ i) ∧
        Owning ctx b₀ own₅ v₅ b₅ (c ++ k.items alt bj fs js) := by
    intro ctx own c fs js hctx h
    obtain ⟨own₄, hg₄, hown₄, howning₄⟩ := (h₄.built ctx).owning (h.later hb₃)
    have hb₄ : Grown own b b₄ := (hb₃.mono (Set.empty_subset own)).trans hg₄ fun _ hi _ => hi
    have hblock : Disjoint (own₂ ∪ {b₂.graph.size}) own :=
      (disjoint_of_le h.inside hchain₃.owned).symm
    have hchain₄ := hchain₃.mono hg₄ hblock
    have htarget : blockId b₄.graph b.graph.size = some b.numBlocks := by
      refine hg₄.graph.blockId (hg₃.graph.blockId (hg₂.graph.blockId ?_))
      rw [blockId, Builder.instr?_allocBlock]
      rfl
    have hd : Disjoint own₄ (own₂ ∪ {b₂.graph.size}) := by
      refine Set.disjoint_left.mpr fun i hi hm => ?_
      rcases hown₄ i hi with hi | hi
      · exact Set.disjoint_left.mp hblock hm hi
      · exact absurd (hchain₃.inside i hm) (Nat.not_lt.mpr hi)
    obtain ⟨v₅, b₅, hrun₅, hval₅, -, -, -, hblocks₅, hg₅, howning₅⟩ :=
      howning₄.addNewFragment (fragment_branchElse howning₄.fresh htarget
        (hb₄.graph.blockId ha) (hb₄.graph.blockId hj) (hchain₄.block.imp fun _ _ => trivial) hctx)
        hd fun i hi => h.grown.size_le.trans (hchain₃.owned i hi)
    refine ⟨v₅, b₅, own₄ ∪ ({b₄.graph.size} ∪ (own₂ ∪ {b₂.graph.size})), hrun₅, hval₅, hblocks₅,
      ?_, ?_, ?_⟩
    · exact hb₄.trans hg₅ fun i hi hlt => (hown₄ i hi).resolve_right
        (Nat.not_le.mpr (hlt.trans_le hb₃.size_le))
    · rintro i (hi | rfl | hi)
      · exact (hown₄ i hi).imp_right hb₃.size_le.trans
      · exact .inr hb₄.size_le
      · exact .inr (hchain₃.owned i hi)
    · simpa [hk, ClauseCode.items, ClauseCode.block] using howning₅
  obtain ⟨v₅, b₅, -, hrun₅, hval₅, hblocks₅, -⟩ :=
    hbranch [] [] (fun _ hc => hc.elim) (h₀.imp fun _ (hc : False) => hc.elim)
  refine ⟨v₅, b₅, k, ?_, hval₅.trans h₄.value, ?_, fun ctx fs js hctx => ⟨fun {own c₀} howning => ?_⟩⟩
  · rw [visitCondClauses_cons, Partial.bind_run (newTarget_run b), Partial.bind_run hrun₂]
    rw [← bind_assoc, Partial.bind_run hrun₃, Partial.bind_run h₄.run]
    exact Partial.bind_run hrun₅
  · have hle₁ : b.numBlocks + 1 ≤ b₂.numBlocks := hg₂.blocks
    refine ⟨by rw [hk], ⟨b₂.numBlocks, hle₁, ?_, ?_, ?_, ?_, ?_⟩, ?_, ?_⟩
    · exact hblocks₅ ▸ hblocks₃ ▸ h₄.blocks
    · rw [hk]
      exact hlabels₂
    · rw [hk]
      exact hcomp₂
    · rw [hk, hblocks₅, ← hblocks₃]
      exact h₄.labels
    · intro host callN a env apply hr m hm s r m' he
      rw [hk, hblocks₅, ← hblocks₃]
      refine h₄.computes host hr ?_ s he
      rw [hb₃.scopes, hb₃.scope]
      exact hm
    · rw [hk]
      exact h₄.size_pos
    · rw [hk]
      exact hsize₂
  · obtain ⟨v₅', b₅', own₅, hrun₅', -, -, hg₅, hown₅, howning₅⟩ := hbranch fs js hctx howning
    cases hrun₅.symm.trans hrun₅'
    exact ⟨own₅, hg₅, hown₅, howning₅⟩

/-- **The clauses**, one behind the other. -/
theorem clausesFor {cs : List (CoreExpr × List CoreExpr)} {ctx : Graph → Prop} {b₀ b : Builder}
    {v : Visitor} {c : List Item} (h : Built ctx b₀ v b c)
    (ha : blockId b.graph altTarget = some alt) (hj : blockId b.graph join = some bj)
    (ih : ∀ cl ∈ cs, Compiles cfg cl.1 ∧ ∀ e ∈ cl.2, Compiles cfg e) :
    ∃ v' b' ks, visitCondClauses cfg altTarget join (toClauses cs) v b = some (v', b') ∧
      v'.value = v.value ∧ ClausesFor (b.scopes, b.scope) cs ks b.numBlocks b'.numBlocks ∧
      ∀ ctx fs js, (∀ g, ctx g → Emits g (some altTarget) fs ∧ Emits g (some join) js) →
        Extends ctx b₀ v b v' b' (ks.flatMap (ClauseCode.items alt bj fs js)) := by
  induction cs generalizing ctx v b c with
  | nil => exact ⟨v, b, [], rfl, rfl, .nil _, fun _ _ _ _ => .refl _ _ _ _⟩
  | cons cl cs ihs =>
      obtain ⟨t, es⟩ := cl
      obtain ⟨hcl, hcs⟩ := List.forall_mem_cons.mp ih
      obtain ⟨v₁, b₁, k, hrun₁, hval₁, hclause, hext₁⟩ :=
        clauseFor h ha hj hcl.1 hcl.2 (toClauses cs)
      -- the shared blocks do not matter to what the builder does
      obtain ⟨own, h⟩ := h
      obtain ⟨own₁, hg₁, -, h₁⟩ := (hext₁ (fun _ => False) [] [] fun _ hc => hc.elim).owning
        (h.imp fun _ hc => hc.elim)
      obtain ⟨v₂, b₂, ks, hrun₂, hval₂, hclauses, hext₂⟩ :=
        ihs ⟨own₁, h₁⟩ (hg₁.graph.blockId ha) (hg₁.graph.blockId hj) hcs
      refine ⟨v₂, b₂, k :: ks, hrun₁.trans hrun₂, hval₂.trans hval₁, .cons hclause ?_, ?_⟩
      · rw [← hg₁.scopes, ← hg₁.scope]
        exact hclauses
      · intro ctx fs js hctx
        exact (hext₁ ctx fs js hctx).trans (hext₂ ctx fs js hctx)

/-- What the shared alternate is compiled to: the value of its expression and a jump to the join, or
nothing when there is none. -/
def AlternateFor (names : Names) (altTarget : InstrId) (bj : BlockId) (e : Option CoreExpr)
    (fs : List Item) (lo hi : BlockId) : Prop :=
  match e with
  | none => fs = [.visit altTarget]
  | some e => ∃ c g, fs = .visit altTarget :: (c ++ [.visit g, .jump .jump bj]) ∧
      LabelsIn lo hi c ∧ 0 < size c ∧ ∀ (host : Host) {callN a env apply}, ReadsAs callN a apply →
        ∀ {m}, env.Holds names.1 names.2 a m → ∀ s {r m'}, e.eval env apply m = some (r, m') →
          Computes host callN a c lo hi s m (r :: s) m'

/-- **The alternate**, in the block that the branches name. -/
theorem alternateFor {e : Option CoreExpr} (ih : ∀ x ∈ e, Compiles cfg x) {b₀ b : Builder}
    {own : Set InstrId} (h : Chaining Anywhere b₀ own altTarget b [.visit altTarget])
    (hj : blockId b.graph join = some bj) :
    ∃ b' own' fs, visitAlternate cfg altTarget join (e.map CoreExpr.toExpr) b = some ((), b') ∧
      Grown own b b' ∧ (∀ i ∈ own', i ∈ own ∨ b.graph.size ≤ i) ∧
      Chaining Anywhere b₀ own' altTarget b' fs ∧
      AlternateFor (b.scopes, b.scope) altTarget bj e fs b.numBlocks b'.numBlocks := by
  cases e with
  | none => exact ⟨b, own, _, rfl, .refl _ _, fun _ hi => .inl hi, h, rfl⟩
  | some e =>
      obtain ⟨v₁, b₁, c₁, h₁⟩ := (ih e rfl).code b h.fresh
      obtain ⟨b₂, own₂, hrun₂, hg₂, -, hblocks₂, hown₂, hchain₂⟩ := h.appendFragment h₁.built
      obtain ⟨b₃, hrun₃, hg₃, -, hblocks₃, hchain₃⟩ :=
        hchain₂.appendNew (straight_goto (hg₂.graph.blockId hj))
      have hblocks : b₃.numBlocks = b₁.numBlocks := hblocks₃.trans hblocks₂
      refine ⟨b₃, _, _, ?_, ?_, ?_, hchain₃, c₁, b₂.graph.size, by simp, ?_, h₁.size_pos, ?_⟩
      · rw [Option.map_some, visitAlternate, Partial.bind_run h₁.run, Partial.bind_run hrun₂]
        exact hrun₃
      · exact hg₂.trans hg₃ fun i hi hlt => (hown₂ i hi).resolve_right (Nat.not_le.mpr hlt)
      · rintro i (hi | rfl)
        · exact hown₂ i hi
        · exact .inr hg₂.size_le
      · rw [hblocks]
        exact h₁.labels
      · rw [hblocks]
        exact h₁.computes

end Clauses

/-! ### The whole `cond` -/

/-- What a `cond` is compiled to. -/
structure CondCode where
  clauses : List ClauseCode
  altTarget : InstrId
  alt : BlockId
  otherwise : List Item
  join : InstrId
  after : BlockId

namespace CondCode

/-- What a `cond` emits around `k₁`, which is emitted behind the join with every clause, and `k₂`,
which is emitted behind the last branch. -/
def items (k : CondCode) (k₁ k₂ : List Item) : List Item :=
  k.clauses.flatMap (ClauseCode.items k.alt k.after k.otherwise (.visit k.join :: k₁)) ++ k₂

end CondCode

/-- The code of a `cond` over the core, from the builder `b` to `b'`. -/
structure CondFor (cfg : Config) (md : Mode) (cs : List (CoreExpr × List CoreExpr))
    (e : Option CoreExpr) (b : Builder) (v : Visitor) (b' : Builder) (k : CondCode) : Prop where
  run : visit cfg md (.cond (toClauses cs) (e.map CoreExpr.toExpr)) {} b = some (v, b')
  value : v.value = none
  exit : v.exit = some k.join
  isJoin : b'.graph.isJoinEntry k.join = true
  fresh : b'.Fresh
  grown : Grown ∅ b b'
  fragment : ∃ own entry tail, (∀ i ∈ own, b.graph.size ≤ i) ∧ v.entry = some entry ∧
    k.join ≠ tail ∧ Fragment Anywhere b'.graph own entry ⟨k.join, tail, k.items⟩
  alt : k.alt = b.numBlocks
  after : k.after = b.numBlocks + 1
  parts : ∃ mid ≤ b'.numBlocks,
    ClausesFor (b.scopes, b.scope) cs k.clauses (b.numBlocks + 2) mid ∧
    AlternateFor (b.scopes, b.scope) k.altTarget k.after e k.otherwise mid b'.numBlocks

theorem flatMap_items_ne_nil {names : Names} {cs : List (CoreExpr × List CoreExpr)}
    {ks : List ClauseCode} {lo hi : BlockId} (h : ClausesFor names cs ks lo hi) (hne : cs ≠ [])
    (alt join : BlockId) (fs js : List Item) :
    ks.flatMap (ClauseCode.items alt join fs js) ≠ [] := by
  cases h with
  | nil => exact absurd rfl hne
  | cons => simp [ClauseCode.items]

/-- **The code of a `cond`.** -/
theorem condFor {cfg : Config} {md : Mode} {cs : List (CoreExpr × List CoreExpr)}
    {e : Option CoreExpr} {b : Builder} (hne : cs ≠ []) (hf : b.Fresh)
    (ih : ∀ cl ∈ cs, Compiles cfg cl.1 ∧ ∀ x ∈ cl.2, Compiles cfg x)
    (ihe : ∀ x ∈ e, Compiles cfg x) : ∃ v b' k, CondFor cfg md cs e b v b' k := by
  have hg₁ : Grown ∅ b (b.allocBlock .targetEntry) := grown_allocBlock _ _ _
  have hg₂ : Grown ∅ (b.allocBlock .targetEntry)
      ((b.allocBlock .targetEntry).allocBlock .joinEntry) := grown_allocBlock _ _ _
  have halt : blockId (b.allocBlock .targetEntry).graph b.graph.size = some b.numBlocks := by
    rw [blockId, Builder.instr?_allocBlock]
    rfl
  have hjoin := (b.allocBlock .targetEntry).instr?_allocBlock .joinEntry
  have hchain₁ : Chaining Anywhere b {b.graph.size} b.graph.size (b.allocBlock .targetEntry)
      [.visit b.graph.size] := .start hf fun _ => rfl
  have hchain₂ := hchain₁.mono hg₂ (Set.disjoint_empty _)
  generalize hb₂ : (b.allocBlock .targetEntry).allocBlock .joinEntry = b₂ at hg₂ hjoin hchain₂
  have hj : blockId b₂.graph (b.allocBlock .targetEntry).graph.size
      = some (b.allocBlock .targetEntry).numBlocks := by
    rw [blockId, hjoin]
    rfl
  -- the clauses
  have hstart : ∀ ctx, Built ctx b₂ {} b₂ [] := fun ctx => .start hchain₂.fresh
  obtain ⟨v₃, b₃, ks, hrun₃, hval₃, hclauses, hext⟩ :=
    clausesFor (hstart Anywhere) (hg₂.graph.blockId halt) hj ih
  have hem : ∀ {ctx fs js}, (∀ g, ctx g → Emits g (some b.graph.size) fs ∧
      Emits g (some (b.allocBlock .targetEntry).graph.size) js) → ∃ own₃,
        Owning ctx b₂ own₃ v₃ b₃ (ks.flatMap (ClauseCode.items b.numBlocks
          (b.allocBlock .targetEntry).numBlocks fs js)) := by
    intro ctx fs js hctx
    obtain ⟨own, hown⟩ := hstart ctx
    obtain ⟨own₃, -, -, h₃⟩ := (hext ctx fs js hctx).owning hown
    exact ⟨own₃, by simpa using h₃⟩
  obtain ⟨own₃, h₃⟩ := @hem (fun _ => False) [] [] fun _ hc => hc.elim
  -- the alternate
  have hg₃ : Grown ∅ b₂ b₃ := h₃.grown
  have hb₃ : Grown ∅ b b₃ := hg₁.trans (hg₂.trans hg₃ fun _ hi _ => hi) fun _ hi _ => hi
  obtain ⟨b₄, own₄, fs, hrun₄, hg₄, hown₄, hchain₄, halternate⟩ :=
    alternateFor ihe (hchain₂.mono hg₃ (Set.disjoint_empty _)) (hg₃.graph.blockId hj)
  have hb₄ : Grown ∅ b b₄ := hb₃.trans hg₄ fun i hi hlt => by
    obtain rfl := hi
    exact absurd hlt (Nat.lt_irrefl _)
  refine ⟨{ v₃ with exit := some (b.allocBlock .targetEntry).graph.size }, b₄,
    ⟨ks, b.graph.size, b.numBlocks, fs, (b.allocBlock .targetEntry).graph.size, b.numBlocks + 1⟩,
    ?_, hval₃, rfl, ?_, hchain₄.fresh, hb₄, ?_, rfl, rfl, b₃.numBlocks, hg₄.blocks, ?_, ?_⟩
  · rw [visit, Partial.bind_run (newTarget_run b), Partial.bind_run (newJoin_run _), hb₂,
      Partial.bind_run hrun₃, Partial.bind_run hrun₄]
    rfl
  · have hjoin₄ := hg₄.graph.instr? (hg₃.graph.instr? hjoin)
    rw [Graph.isJoinEntry, hjoin₄]
  · have hjs : (b.allocBlock .targetEntry).graph.size = b.graph.size + 1 := by simp
    have hsize₂ : b₂.graph.size = b.graph.size + 2 := by simp [← hb₂]
    have hsize₃ : b.graph.size + 2 ≤ b₃.graph.size := hsize₂ ▸ hg₃.size_le
    -- the clauses as a chain, whatever the shared blocks emit
    have hfrag : ∀ {ctx fs js}, (∀ g, ctx g → Emits g (some b.graph.size) fs ∧
        Emits g (some (b.allocBlock .targetEntry).graph.size) js) → ∃ own' entry l,
        v₃.entry = some entry ∧ (∀ i ∈ own', b.graph.size + 2 ≤ i ∧ i < b₃.graph.size) ∧
        Fragment ctx b₄.graph own' entry (.linear l l (ks.flatMap (ClauseCode.items b.numBlocks
          (b.allocBlock .targetEntry).numBlocks fs js))) := by
      intro ctx fs js hctx
      obtain ⟨own', h⟩ := hem hctx
      have hin : ∀ i ∈ own', b.graph.size + 2 ≤ i ∧ i < b₃.graph.size := fun i hi =>
        ⟨hsize₂ ▸ h.owned i hi, h.inside i hi⟩
      have hcode := h.code
      unfold Code at hcode
      split at hcode
      next he => exact absurd hcode.1 (flatMap_items_ne_nil hclauses hne _ _ _ _)
      next entry he =>
          obtain ⟨x, l, -, hs⟩ := hcode
          refine ⟨own', entry, l, he, hin, (hs.mono (hg₄.agrees h.inside ?_) subset_rfl ?_).close⟩
          · refine Set.disjoint_singleton_right.mpr fun hm => ?_
            exact absurd (hin _ hm).1 (by simp)
          · exact fun i hi => (hin i hi).2.trans_le hg₄.size_le
    obtain ⟨own', entry, l, he, hin, hs⟩ := @hfrag (fun _ => False) [] [] fun _ hc => hc.elim
    have hl := hin l hs.tail_mem
    refine ⟨{i | b.graph.size ≤ i ∧ i < b₄.graph.size}, entry, l, fun i hi => hi.1, he, ?_,
      fun i hi => hi.2, ?_, ?_, ?_, hs.tail_end, ?_, ?_⟩
    · rw [hjs]
      exact fun he => absurd hl.1 (by rw [← he]; simp)
    · exact ⟨hjs ▸ Nat.le_succ _, hjs ▸ lt_of_lt_of_le hsize₃ hg₄.size_le⟩
    · exact ⟨(Nat.le_add_right _ 2).trans hl.1, hl.2.trans_le hg₄.size_le⟩
    · have hn₂ : b₂.graph.next (b.allocBlock .targetEntry).graph.size = none := by
        rw [← hb₂]
        exact hf _ (hjs ▸ Nat.le_succ _)
      have hn₃ := hg₃.graph.next (b.allocBlock .targetEntry).graph.size
        ⟨by rw [hjs]; exact hsize₂.ge, Set.notMem_empty _⟩ (Set.notMem_empty _)
      refine (hg₄.graph.next _ ⟨by rw [hjs]; exact hsize₃, ?_⟩ (Set.notMem_empty _)).trans
        (hn₃.trans hn₂)
      rw [hjs]
      exact Nat.succ_ne_self _
    · obtain ⟨n, hn⟩ := hs.walk
      exact ⟨n, hn.mono (fun i hi => ⟨(Nat.le_add_right _ 2).trans (hin i hi).1,
        (hin i hi).2.trans_le hg₄.size_le⟩) fun _ _ _ hj => hj⟩
    · intro g _ hgr k₁ k₂ hk
      obtain ⟨h₁, h₂⟩ := hk
      obtain ⟨own'', entry', l', he', hin', hs'⟩ := @hfrag (fun g => Emits g (some b.graph.size) fs ∧
        Emits g (some (b.allocBlock .targetEntry).graph.size)
          (.visit (b.allocBlock .targetEntry).graph.size :: k₁)) _ _ fun _ hc => hc
      obtain rfl : entry = entry' := Option.some.inj (he.symm.trans he')
      obtain rfl : l = l' := Option.some.inj (hs.last.symm.trans hs'.last)
      have hne : (b.allocBlock .targetEntry).graph.size ≠ l := fun h => by
        rw [← h, hjs] at hl
        exact absurd hl.1 (Nat.not_le.mpr (Nat.lt_succ_self _))
      rw [if_neg hne] at h₂
      have hjoinEmits : Emits g (some (b.allocBlock .targetEntry).graph.size)
          (.visit (b.allocBlock .targetEntry).graph.size :: k₁) :=
        .instr (hgr.instr? (hg₄.graph.instr? (hg₃.graph.instr? hjoin))) rfl h₁
      have haltEmits : Emits g (some b.graph.size) fs := by
        refine hchain₄.block.emits g trivial (hgr.mono ?_ ?_)
        · exact fun i hi => ⟨(hchain₄.owned i hi), hchain₄.inside i hi⟩
        · rintro i hi (rfl | rfl)
          · rcases hown₄ _ hi with hi | hi
            · exact absurd (hjs.symm.trans hi) (Nat.succ_ne_self _)
            · rw [hjs] at hi
              exact absurd hi (Nat.not_le.mpr hsize₃)
          · rcases hown₄ _ hi with rfl | hi
            · exact absurd hl.1 (by simp)
            · exact absurd hl.2 (Nat.not_lt.mpr hi)
      have hall := hs'.emits g ⟨haltEmits, hjoinEmits⟩ (hgr.mono ?_ ?_) k₂ [] ⟨h₂, by simp [Shape.linear]⟩
      · simpa [Shape.linear, CondCode.items] using hall
      · exact fun i hi => ⟨(Nat.le_add_right _ 2).trans (hin' i hi).1,
          (hin' i hi).2.trans_le hg₄.size_le⟩
      · rintro i hi (rfl | rfl)
        · have := (hin' _ hi).1
          rw [hjs] at this
          exact absurd this (Nat.not_le.mpr (Nat.lt_succ_self _))
        · exact .inl rfl
  · rw [← hg₁.scopes, ← hg₁.scope, ← hg₂.scopes, ← hg₂.scope]
    have hblocks₂ : b₂.numBlocks = b.numBlocks + 2 := by simp [← hb₂]
    exact hblocks₂ ▸ hclauses
  · rw [← hb₃.scopes, ← hb₃.scope]
    exact halternate

end Gel
