import Gel.Clauses
import Gel.Legs

/-!
# Cond — running the code of `cond`

What the machine does at the code of one clause and of the alternate, as legs: `ClauseFor.leg_true`,
`ClauseFor.leg_false`, `ClauseFor.leg_actions`, `AlternateFor.leg`.  With one clause and an alternate
the legs make up the value of the `cond` (`codeFor_cond`), which closes the induction over the core:
`CoreExpr.compiles`.
-/

namespace Gel

open FlowGraphCompiler FlowGraphBuilder Layout Interpreter

theorem branchOp_mem (condition : Condition) : branchOp condition ∈ Bytecode.jumpOps := by
  cases condition <;> decide

/-! ### Where the parts of a clause lie -/

namespace ClauseCode

/-- The position of the branch of a clause that lies at `p`. -/
def branchAt (k : ClauseCode) (p : Nat) : Nat := p + size k.test

/-- The position of its actions. -/
def actionsAt (k : ClauseCode) (p : Nat) : Nat := k.branchAt p + 9

/-- The position of the jump behind its actions. -/
def gotoAt (k : ClauseCode) (p : Nat) : Nat := k.actionsAt p + size k.actions

/-- The position of what the shared alternate emits here. -/
def otherwiseAt (k : ClauseCode) (p : Nat) : Nat := k.gotoAt p + 9

/-- The position of what the shared join emits here. -/
def joinAt (k : ClauseCode) (fs : List Item) (p : Nat) : Nat := k.otherwiseAt p + size fs

/-- What a clause emits in front of the alternate. -/
def front (k : ClauseCode) (alt after : BlockId) : List Item :=
  k.test ++ .visit k.branch :: .jump (branchOp k.condition) alt :: .bind k.label ::
    (k.block after ++ [.bind alt])

theorem items_eq (k : ClauseCode) (alt after : BlockId) (fs js : List Item) :
    k.items alt after fs js = k.front alt after ++ (fs ++ .bind after :: js) := by
  simp [items, front]

theorem size_front (k : ClauseCode) (alt after : BlockId) (p : Nat) :
    p + size (k.front alt after) = k.otherwiseAt p := by
  simp only [front, block, otherwiseAt, gotoAt, actionsAt, branchAt, size_append, size_cons,
    Item.size, size_nil]
  omega

theorem size_items (k : ClauseCode) (alt after : BlockId) (fs js : List Item) (p : Nat) :
    p + size (k.items alt after fs js) = k.joinAt fs p + size js := by
  rw [items_eq, size_append, ← Nat.add_assoc, size_front, joinAt, size_append, size_cons, Item.size]
  omega

end ClauseCode

section Legs

variable {host : Host} {callN : CallWithNArgs} {a : Activation} {env : Env} {apply : Application}
  {names : Names} {t : CoreExpr} {es : List CoreExpr} {k : ClauseCode} {lo hi alt after : BlockId}
  {pre post fs js : List Item} {s : List Value} {m m' : Memory} {r : Value} {rs : List Value}

namespace ClauseFor

/-- A clause binds its own labels and the shared ones. -/
theorem not_bind_front (h : ClauseFor names t es k lo hi) {l : BlockId} (hl : l < lo ∨ hi ≤ l)
    (hne : l ≠ alt) : Item.bind l ∉ k.front alt after := by
  obtain ⟨mid, hlt, hle, hactions, -, htest, -⟩ := h.labels
  have hlabel : l ≠ k.label := by
    rw [h.label]
    exact hl.elim ne_of_lt fun hi => (hlt.trans_le (hle.trans hi)).ne'
  have h₁ := htest.not_bind (hl.imp_left hlt.trans')
  have h₂ := hactions.not_bind (hl.imp Nat.lt_succ_of_lt hle.trans)
  simp [ClauseCode.front, ClauseCode.block, hlabel, h₁, h₂, hne]

/-- The machine comes to the branch of a clause; the branch then goes on or jumps. -/
theorem passes_test (h : ClauseFor names t es k lo hi) (host : Host) (hr : ReadsAs callN a apply)
    (hm : env.Holds names.1 names.2 a m) (s : List Value)
    (he : t.eval env apply m = some (r, m'))
    (hfree : ∀ l, lo ≤ l → l < hi → Item.bind l ∉ pre)
    (hl : Loaded (pre ++ (k.items alt after fs js ++ post)) a.region m) :
    ∃ s', Passes host callN a (size pre) s m (k.branchAt (size pre)) s' m' ∧ ∀ p target,
      jump a.region (branchOp k.condition) target (a.state p s' m') =
        if r.truth then .ok (a.state p s m') else (a.state p s m').jumpTo a.region target := by
  obtain ⟨mid, hlt, -, -, -, -, htest⟩ := h.labels
  obtain ⟨s', hc, hjump⟩ := htest host hr hm s he
  refine ⟨s', ?_, hjump⟩
  rw [ClauseCode.branchAt, ← size_append]
  refine hc pre (.visit k.branch :: .jump (branchOp k.condition) alt :: .bind k.label ::
    (k.block after ++ .bind alt :: (fs ++ .bind after :: js)) ++ post)
    (fun l h₁ h₂ => hfree l (hlt.le.trans h₁) h₂) ?_
  simpa [ClauseCode.items] using hl

theorem size_branchAt (k : ClauseCode) (pre : List Item) :
    size (pre ++ (k.test ++ [.visit k.branch])) = k.branchAt (size pre) := by
  simp [ClauseCode.branchAt, Item.size]

/-- **A test that is true** leads to the actions. -/
theorem leg_true (h : ClauseFor names t es k lo hi) (host : Host) (hr : ReadsAs callN a apply)
    (hm : env.Holds names.1 names.2 a m) (s : List Value)
    (he : t.eval env apply m = some (r, m')) (htrue : r.truth = true)
    (hfree : ∀ l, lo ≤ l → l < hi → Item.bind l ∉ pre)
    (hl : Loaded (pre ++ (k.items alt after fs js ++ post)) a.region m) :
    Leg host callN a (size pre) (k.branchAt (size pre)) s m (k.actionsAt (size pre)) s m' := by
  obtain ⟨s', hp, hjump⟩ := h.passes_test host hr hm s he hfree hl
  have hl' : Loaded ((pre ++ (k.test ++ [.visit k.branch])) ++
      .jump (branchOp k.condition) alt :: (.bind k.label ::
        (k.block after ++ .bind alt :: (fs ++ .bind after :: js)) ++ post)) a.region m' := by
    refine (CoreExpr.eval_keeps hr he).loaded ?_
    simpa [ClauseCode.items] using hl
  rw [← size_branchAt] at hp
  have hleg := Leg.stay s m' hp hl' (branchOp_mem _)
    fun target => by rw [hjump, if_pos htrue]
  rwa [size_branchAt] at hleg

/-- **A test that is false** leads to the alternate behind the clause, when its label has not been
bound before. -/
theorem leg_false (h : ClauseFor names t es k lo hi) (host : Host) (hr : ReadsAs callN a apply)
    (hm : env.Holds names.1 names.2 a m) (s : List Value)
    (he : t.eval env apply m = some (r, m')) (hfalse : r.truth = false)
    (hfree : ∀ l, lo ≤ l → l < hi → Item.bind l ∉ pre) (halt : alt < lo)
    (hpre : Item.bind alt ∉ pre)
    (hl : Loaded (pre ++ (k.items alt after fs js ++ post)) a.region m) :
    Leg host callN a (size pre) (k.branchAt (size pre)) s m (k.otherwiseAt (size pre)) s m' := by
  obtain ⟨s', hp, hjump⟩ := h.passes_test host hr hm s he hfree hl
  obtain ⟨mid, hlt, hle, hactions, -, htest, -⟩ := h.labels
  have hl' : Loaded ((pre ++ (k.test ++ [.visit k.branch])) ++ .jump (branchOp k.condition) alt ::
      ((.bind k.label :: k.block after) ++ .bind alt :: (fs ++ .bind after :: js ++ post)))
      a.region m' := by
    refine (CoreExpr.eval_keeps hr he).loaded ?_
    simpa [ClauseCode.items] using hl
  have hxs : Item.bind alt ∉ pre ++ (k.test ++ [.visit k.branch]) := by
    simp [hpre, htest.not_bind (.inl (halt.trans hlt))]
  have hzs : Item.bind alt ∉ .bind k.label :: k.block after := by
    simp [ClauseCode.block, h.label, halt.ne, hactions.not_bind (.inl (halt.trans (Nat.lt_succ_self _)))]
  rw [← size_branchAt] at hp
  have hleg := Leg.forward s m' hp hl' (branchOp_mem _) hxs hzs
    fun target => by rw [hjump, if_neg (by simp [hfalse])]
  rw [size_branchAt] at hleg
  convert hleg using 1
  simp [ClauseCode.otherwiseAt, ClauseCode.gotoAt, ClauseCode.actionsAt, ClauseCode.branchAt,
    ClauseCode.block, Item.size]
  omega

theorem size_actionsAt (k : ClauseCode) (alt : BlockId) (pre : List Item) :
    size (pre ++ (k.test ++ [.visit k.branch, .jump (branchOp k.condition) alt, .bind k.label,
      .visit k.target])) = k.actionsAt (size pre) := by
  simp [ClauseCode.actionsAt, ClauseCode.branchAt, Item.size]
  omega

/-- **The actions** of a clause run from end to end. -/
theorem passes_actions (h : ClauseFor names t es k lo hi) (host : Host) (hr : ReadsAs callN a apply)
    (hm : env.Holds names.1 names.2 a m) (s : List Value)
    (he : CoreExpr.evalAll env apply es m = some (rs, m'))
    (hfree : ∀ l, lo ≤ l → l < hi → Item.bind l ∉ pre)
    (hl : Loaded (pre ++ (k.items alt after fs js ++ post)) a.region m) :
    Passes host callN a (k.actionsAt (size pre)) s m (k.gotoAt (size pre)) (rs.reverse ++ s) m' := by
  obtain ⟨mid, hlt, hle, -, hactions, htest, -⟩ := h.labels
  have hp := hactions host hr hm s he (pre ++ (k.test ++ [.visit k.branch,
    .jump (branchOp k.condition) alt, .bind k.label, .visit k.target])) (.visit k.goto ::
      .jump .jump after :: .bind alt :: (fs ++ .bind after :: js) ++ post) ?_ ?_
  · rw [size_append _ k.actions, size_actionsAt] at hp
    exact hp
  · intro l h₁ h₂ hm
    have hpre := hfree l ((Nat.le_succ _).trans h₁) (h₂.trans_le hle)
    have htest := htest.not_bind (.inl h₂)
    have hne : l ≠ k.label := by
      rw [h.label]
      exact (Nat.lt_of_succ_le h₁).ne'
    simp [hpre, htest, hne] at hm
  · simpa [ClauseCode.items, ClauseCode.block] using hl

theorem size_gotoAt (k : ClauseCode) (alt : BlockId) (pre : List Item) :
    size (pre ++ (k.test ++ .visit k.branch :: .jump (branchOp k.condition) alt :: .bind k.label ::
      .visit k.target :: (k.actions ++ [.visit k.goto]))) = k.gotoAt (size pre) := by
  simp [ClauseCode.gotoAt, ClauseCode.actionsAt, ClauseCode.branchAt, Item.size]
  omega

/-- **The actions** lead to the join behind the clause, when its label has not been bound before. -/
theorem leg_actions (h : ClauseFor names t es k lo hi) (host : Host) (hr : ReadsAs callN a apply)
    (hm : env.Holds names.1 names.2 a m) (s : List Value)
    (he : CoreExpr.evalAll env apply es m = some (rs, m'))
    (hfree : ∀ l, lo ≤ l → l < hi → Item.bind l ∉ pre) (hafter : after < lo)
    (hpre : Item.bind after ∉ pre) (hne : after ≠ alt) (hfs : Item.bind after ∉ fs)
    (hl : Loaded (pre ++ (k.items alt after fs js ++ post)) a.region m) :
    Leg host callN a (k.actionsAt (size pre)) (k.gotoAt (size pre)) s m (k.joinAt fs (size pre))
      (rs.reverse ++ s) m' := by
  have hp := h.passes_actions host hr hm s he hfree hl
  obtain ⟨mid, hlt, hle, hactions, -, htest, -⟩ := h.labels
  have hl' : Loaded ((pre ++ (k.test ++ .visit k.branch :: .jump (branchOp k.condition) alt ::
      .bind k.label :: .visit k.target :: (k.actions ++ [.visit k.goto]))) ++ .jump .jump after ::
      ((.bind alt :: fs) ++ .bind after :: (js ++ post))) a.region m' := by
    refine (CoreExpr.evalAll_keeps hr he).loaded ?_
    simpa [ClauseCode.items, ClauseCode.block] using hl
  have hxs : Item.bind after ∉ pre ++ (k.test ++ .visit k.branch ::
      .jump (branchOp k.condition) alt :: .bind k.label :: .visit k.target ::
        (k.actions ++ [.visit k.goto])) := by
    simp [hpre, htest.not_bind (.inl (hafter.trans hlt)), h.label, hafter.ne,
      hactions.not_bind (.inl (hafter.trans (Nat.lt_succ_self _)))]
  have hzs : Item.bind after ∉ .bind alt :: fs := by simp [hne, hfs]
  rw [← size_gotoAt k alt] at hp ⊢
  have hleg := Leg.forward (rs.reverse ++ s) m' hp hl' (by decide) hxs hzs fun target => rfl
  convert hleg using 1
  simp [ClauseCode.joinAt, ClauseCode.otherwiseAt, ClauseCode.gotoAt, ClauseCode.actionsAt,
    ClauseCode.branchAt, Item.size]
  omega

end ClauseFor

namespace AlternateFor

variable {altTarget : InstrId} {e : CoreExpr}

/-- The alternate binds labels of its own only. -/
theorem not_bind {e : Option CoreExpr} (h : AlternateFor names altTarget after e fs lo hi)
    {l : BlockId} (hl : l < lo) : Item.bind l ∉ fs := by
  cases e with
  | none =>
      obtain rfl := h
      simp
  | some e =>
      obtain ⟨c, g, rfl, hc, -, -⟩ := h
      simp [hc.not_bind (.inl hl)]

theorem nine_le (h : AlternateFor names altTarget after (some e) fs lo hi) : 9 ≤ size fs := by
  obtain ⟨c, g, rfl, -⟩ := h
  simp [Item.size]

/-- **The alternate** leads to the join behind it, when its label has not been bound before. -/
theorem leg (h : AlternateFor names altTarget after (some e) fs lo hi) (host : Host)
    (hr : ReadsAs callN a apply) (hm : env.Holds names.1 names.2 a m) (s : List Value)
    (he : e.eval env apply m = some (r, m')) (hfree : ∀ l, lo ≤ l → l < hi → Item.bind l ∉ pre)
    (hafter : after < lo) (hpre : Item.bind after ∉ pre)
    (hl : Loaded (pre ++ (fs ++ .bind after :: post)) a.region m) :
    Leg host callN a (size pre) (size pre + size fs - 9) s m (size pre + size fs) (r :: s) m' := by
  obtain ⟨c, g, rfl, hc, -, hcomp⟩ := h
  have hp := hcomp host hr hm s he (pre ++ [.visit altTarget])
    (.visit g :: .jump .jump after :: .bind after :: post)
    (fun l h₁ h₂ => by simp [hfree l h₁ h₂]) (by simpa using hl)
  have hl' : Loaded ((pre ++ .visit altTarget :: (c ++ [.visit g])) ++ .jump .jump after ::
      ([] ++ .bind after :: post)) a.region m' := by
    refine (CoreExpr.eval_keeps hr he).loaded ?_
    simpa using hl
  have hxs : Item.bind after ∉ pre ++ .visit altTarget :: (c ++ [.visit g]) := by
    simp [hpre, hc.not_bind (.inl hafter)]
  have hstart : size (pre ++ [.visit altTarget]) = size pre := by simp [Item.size]
  have hgoto : size (pre ++ [.visit altTarget] ++ c)
      = size (pre ++ .visit altTarget :: (c ++ [.visit g])) := by simp [Item.size]
  rw [hstart, hgoto] at hp
  have hleg := Leg.forward (r :: s) m' hp hl' (by decide) hxs (List.not_mem_nil) fun target => rfl
  convert hleg using 1
  · simp [Item.size]
    omega
  · simp [Item.size]

end AlternateFor

end Legs

/-! ### One clause and an alternate -/

section Single

variable {names : Names} {t : CoreExpr} {es : List CoreExpr} {e : Option CoreExpr}
  {k : ClauseCode} {n mid hi : BlockId} {altTarget join : InstrId} {fs : List Item}

/-- The labels of a clause with its alternate and its join. -/
theorem labelsIn_items (h : ClauseFor names t es k (n + 2) mid)
    (h' : AlternateFor names altTarget (n + 1) e fs mid hi) (hle : mid ≤ hi) :
    LabelsIn n hi (k.items n (n + 1) fs [.visit join]) := by
  obtain ⟨mid', hlt, hle', hactions, -, htest, -⟩ := h.labels
  have hn : n + 2 < hi := hlt.trans_le (hle'.trans hle)
  have hjump : ∀ op l, l = n ∨ l = n + 1 → ∀ l', (Item.jump op l).label? = some l' →
      n ≤ l' ∧ l' < hi := by
    rintro op l hl l' he
    cases he
    rcases hl with rfl | rfl
    · exact ⟨le_rfl, (Nat.le_add_right _ 2).trans_lt hn⟩
    · exact ⟨Nat.le_succ _, (Nat.le_succ _).trans_lt hn⟩
  have hbind : ∀ l, l = n ∨ l = n + 1 → ∀ l', (Item.bind l).label? = some l' →
      n ≤ l' ∧ l' < hi := fun l => hjump .jump l
  have hfs : LabelsIn n hi fs := by
    cases e with
    | none =>
        obtain rfl := h'
        exact .cons nofun (.nil _ _)
    | some e =>
        obtain ⟨c, g, rfl, hc, -, -⟩ := h'
        have hmid : n ≤ mid := (Nat.le_add_right _ 2).trans (hlt.le.trans hle')
        exact .cons nofun ((hc.mono hmid le_rfl).append
          (.cons nofun (.cons (hjump _ _ (.inr rfl)) (.nil _ _))))
  have htest' := htest.mono ((Nat.le_add_right n 2).trans hlt.le) hle
  have hactions' := hactions.mono (Nat.le_add_right n 3) (hle'.trans hle)
  refine htest'.append (.cons nofun (.cons (hjump _ _ (.inl rfl)) (.cons ?_ (.append ?_ ?_))))
  · rintro l he
    cases he
    rw [h.label]
    exact ⟨Nat.le_add_right _ 2, hn⟩
  · exact .cons nofun (hactions'.append (.cons nofun (.cons (hjump _ _ (.inr rfl)) (.nil _ _))))
  · exact .cons (hbind _ (.inl rfl)) (hfs.append (.cons (hbind _ (.inr rfl)) (.cons nofun (.nil _ _))))

end Single

theorem codeFor_cond {cfg : Config} {b : Builder} {t x y : CoreExpr} (hf : b.Fresh)
    (ht : Compiles cfg t) (hx : Compiles cfg x) (hy : Compiles cfg y) :
    ∃ v b' c, CodeFor cfg (.cond t x y) b v b' c := by
  obtain ⟨v, b', k, h⟩ : ∃ v b' k, CondFor cfg .value [(t, [x])] (some y) b v b' k :=
    condFor (List.cons_ne_nil _ _) hf (by simp [ht, hx]) (by simp [hy])
  obtain ⟨mid, hle, hclauses, halternate⟩ := h.parts
  obtain ⟨own, entry, tail, hown, hentry, -, hfrag⟩ := h.fragment
  rw [h.after] at halternate
  generalize hks : k.clauses = ks at hclauses
  cases hclauses with
  | cons hclause hnil =>
  rename_i kc ks mid'
  cases hnil
  refine ⟨v, b', kc.items b.numBlocks (b.numBlocks + 1) k.otherwise [.visit k.join], h.run,
    ⟨own, h.fresh, h.grown, hown, ?_⟩, labelsIn_items hclause halternate hle, ?_,
    .inl ⟨t, x, y, rfl, h.value, k.join, h.exit, h.isJoin⟩, ?_⟩
  · unfold Code
    rw [hentry]
    have hshape : Shape.linear k.join tail
        (kc.items b.numBlocks (b.numBlocks + 1) k.otherwise [.visit k.join])
          = ⟨k.join, tail, k.items⟩ := by
      rw [Shape.linear, Shape.mk.injEq]
      refine ⟨rfl, rfl, ?_⟩
      funext k₁ k₂
      simp [CondCode.items, ClauseCode.items, hks, h.alt, h.after]
    exact ⟨k.join, tail, h.exit, hshape ▸ hfrag⟩
  · have := hclause.test_pos
    simp [ClauseCode.items]
    omega
  · intro host callN a env apply hr m hm s r m' he pre post hfree hl
    simp only [CoreExpr.eval, Option.bind_eq_bind, Option.bind_eq_some_iff] at he
    obtain ⟨⟨z, m₁⟩, hz, hsel⟩ := he
    have hm₁ := hm.keeps (CoreExpr.eval_keeps hr hz)
    have hl₁ := (CoreExpr.eval_keeps hr hz).loaded hl
    have hclauseFree : ∀ l, b.numBlocks + 2 ≤ l → l < mid → Item.bind l ∉ pre :=
      fun l h₁ h₂ => hfree l ((Nat.le_add_right _ 2).trans h₁) (h₂.trans_le hle)
    have hwide : b.numBlocks + 2 < b'.numBlocks := by
      obtain ⟨mid', hlt, hle', -⟩ := hclause.labels
      exact hlt.trans_le (hle'.trans hle)
    have halt : Item.bind b.numBlocks ∉ pre :=
      hfree _ le_rfl ((Nat.le_add_right _ 2).trans_lt hwide)
    have hafter : Item.bind (b.numBlocks + 1) ∉ pre :=
      hfree _ (Nat.le_succ _) ((Nat.le_succ _).trans_lt hwide)
    have hotherwise : ∀ l < b.numBlocks + 2, Item.bind l ∉ k.otherwise := fun l hlt => by
      obtain ⟨mid', hlt', hle', -⟩ := hclause.labels
      exact halternate.not_bind (hlt.trans (hlt'.trans_le hle'))
    have hend := kc.size_items b.numBlocks (b.numBlocks + 1) k.otherwise [.visit k.join] (size pre)
    rw [size_append, hend]
    cases htruth : z.truth with
    | true =>
        rw [if_pos htruth] at hsel
        have hes : CoreExpr.evalAll env apply [x] m₁ = some ([r], m') := by
          simp [CoreExpr.evalAll, hsel]
        have htest := hclause.leg_true host hr hm s hz htruth hclauseFree hl
        have hactions := hclause.leg_actions host hr hm₁ s hes hclauseFree (Nat.lt_succ_self _)
          hafter (Nat.succ_ne_self _) (hotherwise _ (Nat.lt_succ_self _)) hl₁
        refine (htest.passes (Nat.lt_add_of_pos_right (by decide))).trans (hactions.passes ?_)
        rw [ClauseCode.joinAt, ClauseCode.otherwiseAt]
        omega
    | false =>
        rw [if_neg (by simp [htruth])] at hsel
        have htest := hclause.leg_false host hr hm s hz htruth hclauseFree (Nat.lt_add_of_pos_right (by decide)) halt hl
        refine (htest.passes ?_).trans ?_
        · rw [ClauseCode.otherwiseAt, ClauseCode.gotoAt, ClauseCode.actionsAt]
          omega
        · have hl' : Loaded ((pre ++ kc.front b.numBlocks (b.numBlocks + 1)) ++
              (k.otherwise ++ .bind (b.numBlocks + 1) :: ([.visit k.join] ++ post))) a.region m₁ := by
            simpa [ClauseCode.items_eq] using hl₁
          have hsize : size (pre ++ kc.front b.numBlocks (b.numBlocks + 1))
              = kc.otherwiseAt (size pre) := by rw [size_append, ClauseCode.size_front]
          have hmid : b.numBlocks + 2 < mid := by
            obtain ⟨mid', hlt', hle', -⟩ := hclause.labels
            exact hlt'.trans_le hle'
          have hleg := halternate.leg host hr hm₁ s hsel (fun l h₁ h₂ hmem => ?_)
            ((Nat.lt_succ_self _).trans hmid) (fun hmem => ?_) hl'
          · rw [hsize] at hleg
            exact hleg.passes (Nat.sub_lt_of_pos_le (by decide)
              (halternate.nine_le.trans (Nat.le_add_left _ _)))
          · have hn : b.numBlocks < l := (Nat.lt_add_of_pos_right (by decide)).trans (hmid.trans_le h₁)
            rcases List.mem_append.mp hmem with hmem | hmem
            · exact hfree l hn.le h₂ hmem
            · exact hclause.not_bind_front (.inr h₁) hn.ne' hmem
          · rcases List.mem_append.mp hmem with hmem | hmem
            · exact hafter hmem
            · exact hclause.not_bind_front (.inl (Nat.lt_succ_self _)) (Nat.succ_ne_self _) hmem

/-! ### The expression core -/

namespace CoreExpr

mutual

/-- **The builder compiles every core expression.** -/
theorem compiles (cfg : Config) : ∀ e : CoreExpr, Compiles cfg e
  | literal v h => {
      code b hf := codeFor_literal rfl hf fun {_ _ a _ _} _ {_} _ {_ _} he p q s => by
        cases he
        rw [b.scopes.literalInstr_of_not_symbol b.scope h]
        exact a.exec_push v
      operands _ _ he := nomatch he }
  | param x => {
      code b hf := codeFor_literal rfl hf fun {_ _ a _ _} _ {_} hm {_ _} he p q s => by
        obtain ⟨v, hv, he⟩ := Option.map_eq_some_iff.mp he
        cases he
        obtain ⟨l, idx, hi, hs⟩ := hm.param hv
        rw [hi]
        exact a.loadLocal_state q s _ hs
      operands _ _ he := nomatch he }
  | unary op e => {
      code b hf := codeFor_unary hf ((compiles cfg e).code b hf)
      operands _ _ he := nomatch he }
  | binary op l r => {
      code b hf := codeFor_binary hf (compiles cfg l).code (compiles cfg r).code
      operands l' r' he := by
        cases he
        exact ⟨(compiles cfg l).code, (compiles cfg r).code⟩ }
  | call target args => {
      code b hf := codeFor_call hf fun e he => (compilesAll cfg args e he).code
      operands _ _ he := nomatch he }
  | cond t x y => {
      code b hf := codeFor_cond hf (compiles cfg t) (compiles cfg x) (compiles cfg y)
      operands _ _ he := nomatch he }

theorem compilesAll (cfg : Config) : ∀ es : List CoreExpr, ∀ e ∈ es, Compiles cfg e
  | [], _, he => nomatch he
  | x :: xs, e, he => (List.mem_cons.mp he).elim (fun h => h ▸ compiles cfg x)
      (compilesAll cfg xs e)

end

end CoreExpr

/-- In every graph that grows out of `b'` around what has been built since `b`, the chain of `v`
emits `c` in front of what is emitted behind its exit and behind the end of its chain. -/
def EmitsInFront (b : Builder) (v : Visitor) (b' : Builder) (c : List Item) : Prop :=
  ∃ x l, v.exit = some x ∧
    ∀ g, b'.graph.Agrees g {i | b.graph.size ≤ i ∧ i < b'.graph.size} {x, l} → ∀ k₁ k₂,
      (Shape.linear x l c).Filled g k₁ k₂ → Emits g v.entry (c ++ (k₁ ++ k₂))

theorem Built.inFront {b b' : Builder} {v : Visitor} {c : List Item}
    (h : Built Anywhere b v b' c) (hc : c ≠ []) : EmitsInFront b v b' c := by
  obtain ⟨own, ho⟩ := h
  have hcode := ho.code
  unfold Code at hcode
  split at hcode
  next => exact absurd hcode.1 hc
  next e he =>
      obtain ⟨x, l, hx, hf⟩ := hcode
      refine ⟨x, l, hx, fun g hg k₁ k₂ hk => ?_⟩
      rw [he]
      exact hf.emits g trivial (hg.mono (fun i hi => ⟨ho.owned i hi, ho.inside i hi⟩)
        fun _ _ hm => hm) k₁ k₂ hk

theorem CodeFor.inFront {cfg : Config} {e : CoreExpr} {b b' : Builder} {v : Visitor}
    {c : List Item} (h : CodeFor cfg e b v b' c) :
    EmitsInFront b v b' c ∧ Emits b'.graph v.entry c := by
  refine ⟨h.built.inFront fun hc => ?_, h.built.emits⟩
  have := h.size_pos
  rw [hc] at this
  exact absurd this (Nat.lt_irrefl _)

/-- **The compiler is correct on the expression core.**  The builder compiles every core expression
in value position.  What is emitted for it stands in front of everything that is linked behind it,
and wherever it lies, with its labels not bound before, the machine runs from its beginning to its
end and pushes the value of the expression. -/
theorem CoreExpr.code_runs (cfg : Config) (e : CoreExpr) {b : Builder} (hf : b.Fresh) :
    (∃ v b' c, visit cfg .value e.toExpr {} b = some (v, b') ∧ Emits b'.graph v.entry c) ∧
    ∀ v b' c, visit cfg .value e.toExpr {} b = some (v, b') → Emits b'.graph v.entry c →
      EmitsInFront b v b' c ∧
      ∀ (host : Host) (callN : CallWithNArgs) (a : Activation) (env : Env) (apply : Application),
        ReadsAs callN a apply → ∀ m, env.Holds b.scopes b.scope a m →
        ∀ s r m', e.eval env apply m = some (r, m') →
        ∀ pre post, (∀ l, b.numBlocks ≤ l → l < b'.numBlocks → Item.bind l ∉ pre) →
          Loaded (pre ++ (c ++ post)) a.region m →
          Passes host callN a (size pre) s m (size (pre ++ c)) (r :: s) m' := by
  obtain ⟨v, b', c, h⟩ := (compiles cfg e).code b hf
  refine ⟨⟨v, b', c, h.run, h.inFront.2⟩, fun v₁ b₁ c₁ hrun hemits => ?_⟩
  cases h.run.symm.trans hrun
  obtain rfl := h.inFront.2.functional hemits
  exact ⟨h.inFront.1, fun host callN a env apply hr m hm s r m' he => h.computes host hr hm s he⟩

namespace CoreExpr.Sample

/-- `(cond (x (count 1 x)) 0)`. -/
def expr : CoreExpr :=
  .cond (.param { name := "x" })
    (.call (.native { name := "count" }) [.long 1, .param { name := "x" }])
    (.long 0)

/-- One parameter, in the first slot. -/
def names : Scopes where
  locals := [{ name := "x", index := 0 }]
  scopes := [{ parent := none, locals := [0] }]

/-- The native counts its arguments. -/
def count : Application := fun _ args m => some (.long (.ofNat args.length), m)

def callCount : CallWithNArgs := fun _ n rt => match rt.stack? with
  | some s => .ok (rt.setStack (.long (.ofNat n) :: s.drop n))
  | none => .error .undefined

def code : List Item :=
  [.visit 8, .code (.loadLocal 0), .visit 9, .jump .jnz 0, .bind 2,
    .visit 2, .visit 3, .code (.push (.long 1)), .visit 4, .code (.loadLocal 0),
    .visit 6, .code (.invokeNative (.native { name := "count" }) 2), .visit 7, .jump .jump 1,
    .bind 0, .visit 0, .visit 10, .code (.push (.long 0)), .visit 11, .jump .jump 1,
    .bind 1, .visit 1]

/-- The code in the first region, and a frame whose slot holds a true value. -/
def memory : Memory :=
  Memory.load { scopes := { names with
    locals := [{ name := "x", index := 0, value := some (.long 5) }] } } code

def activation : Activation := { region := 0, scope := 0, locals := 0 }

def env : Env where
  param x := if x = { name := "x" } then some (.long 5) else none
  procedure f := if f = .native { name := "count" } then some f else none

theorem readsAs : ReadsAs callCount activation count := by
  refine ⟨fun {f args m v m'} p s h => ?_, fun {f args m v m'} h => ?_⟩
  · cases h
    have hdrop : (args.reverse ++ s).drop args.length = s := by
      rw [← List.length_reverse, List.drop_left]
    simp [callCount, hdrop]
  · cases h
    exact .refl _ _

end CoreExpr.Sample

open CoreExpr.Sample in
/-- A true test: the call is made with both arguments, and its result is pushed. -/
theorem CoreExpr.code_runs_sample : Passes .bare callCount activation 0 [.null] memory
    (size code) [.long 2, .null] memory := by
  have hall := CoreExpr.code_runs {} expr (b := { scope := 0, scopes := names }) fun _ _ => rfl
  obtain ⟨v, b', c, hrun, hem⟩ := hall.1
  have hcode : ((visit {} .value expr.toExpr {} { scope := 0, scopes := names }).bind fun r =>
      emission r.2.graph 20 r.1.entry) = some code := by decide +kernel
  rw [hrun] at hcode
  obtain rfl : c = code := hem.functional (emits_of_emission hcode)
  have hholds : env.Holds names 0 activation memory := by
    refine ⟨fun {x v} h => ?_, fun {t f} h => ?_⟩
    · obtain ⟨rfl, rfl⟩ : x = { name := "x" } ∧ v = .long 5 := by
        simpa [env, eq_comm] using h
      exact ⟨0, 0, by decide, by decide⟩
    · obtain ⟨rfl, rfl⟩ : t = .native { name := "count" } ∧ t = f := by simpa [env] using h
      exact ⟨by decide, rfl⟩
  have hloaded : Loaded ([] ++ (code ++ [])) 0 memory :=
    .load { scopes := _ } (by decide) (by decide)
  have heval : expr.eval env count memory = some (.long 2, memory) := by
    simp [expr, eval, evalAll, env, count, Value.truth, Value.isNull]
  exact (hall.2 v b' code hrun hem).2 .bare callCount activation env count readsAs memory hholds [.null] (.long 2) memory heval [] [] (fun _ _ _ h => nomatch h) hloaded

end Gel
