import Gel.Operands

/-!
# Branches — the code of the forms with blocks

A `when`, and a `cond` with one clause.  Their blocks are built in front of the branch, or behind
it, and the fragment of the branch is put together when they are finished (`Owning.addBranch`).
`Expr.visit_counts` is the induction over all expressions.
-/

namespace Gel

open FlowGraphCompiler FlowGraphBuilder

section Blocks

variable {cfg : Config} {names : Names} {m : Mode} {b₀ b : Builder} {own : Set InstrId}
  {target : InstrId} {c : List Item} {k : Int} {es : List Expr}

/-- **The expressions of a block**, appended to its chain one after the other. -/
theorem visits_block {f : List Expr → Build Unit} (hnil : f [] = pure ())
    (hcons : ∀ e es, f (e :: es) = do
      FlowGraphBuilder.appendFragment target (← visit cfg m e {})
      f es)
    (ih : ∀ e ∈ es, Visits cfg names m e) (h : Chaining Anywhere b₀ own target b c)
    (hn : (b.scopes, b.scope) = names) (hk : Expr.leavesAll cfg names m es = some k) :
    ∃ b' own' c', f es b = some ((), b') ∧ Grown own b b' ∧
      (∀ i ∈ own', i ∈ own ∨ b.graph.size ≤ i) ∧ Chaining Anywhere b₀ own' target b' (c ++ c') ∧
      LabelsIn b.numBlocks b'.numBlocks c' ∧ Leaves c' k := by
  induction es generalizing b own c k with
  | nil =>
      rw [Expr.leavesAll, Option.some.injEq] at hk
      rw [hnil, ← hk]
      exact ⟨b, own, [], rfl, .refl _ _, fun _ hi => .inl hi, by rwa [List.append_nil], .nil _ _,
        .nil⟩
  | cons e es ihs =>
      simp only [Expr.leavesAll, Option.bind_eq_bind, Option.bind_eq_some_iff, Option.pure_def,
        Option.some.injEq] at hk
      obtain ⟨k₁, hk₁, k₂, hk₂, rfl⟩ := hk
      obtain ⟨v₁, b₁, hrun₁, c₁, hbuilt₁, hlabels₁, hleaves₁⟩ :=
        ih e List.mem_cons_self k₁ b h.fresh hn hk₁
      obtain ⟨b₂, own₂, hrun₂, hg₂, -, hblocks₂, hown₂, hchain₂⟩ := h.appendFragment hbuilt₁
      rw [← hblocks₂] at hlabels₁
      have hn₂ : (b₂.scopes, b₂.scope) = names := by
        rw [hg₂.scopes, hg₂.scope]
        exact hn
      obtain ⟨b₃, own₃, c₃, hrun₃, hg₃, hown₃, hchain₃, hlabels₃, hleaves₃⟩ :=
        ihs (fun x hx => ih x (List.mem_cons_of_mem _ hx)) hchain₂ hn₂ hk₂
      have hle : b.numBlocks ≤ b₂.numBlocks := hg₂.blocks
      refine ⟨b₃, own₃, c₁ ++ c₃, ?_, ?_, ?_, by rwa [← List.append_assoc], ?_, ?_⟩
      · rw [hcons, Partial.bind_run hrun₁, Partial.bind_run hrun₂]
        exact hrun₃
      · refine hg₂.trans hg₃ fun i hi hlt => ?_
        exact (hown₂ i hi).resolve_right (Nat.not_le.mpr hlt)
      · intro i hi
        rcases hown₃ i hi with hi | hi
        · exact hown₂ i hi
        · exact .inr (hg₂.size_le.trans hi)
      · exact (hlabels₁.mono le_rfl hg₃.blocks).append (hlabels₃.mono hle le_rfl)
      · exact hleaves₁.append hleaves₃ (.of_labelsIn hlabels₁ hlabels₃ (.inl le_rfl))
          (.of_labelsIn hlabels₃ hlabels₁ (.inr le_rfl))

/-- **A branch behind a visitor's code**, whatever is built before its blocks are finished. -/
theorem Owning.addBranch {v : Visitor} {x : Instr} (h : Owning Anywhere b₀ own v b c) :
    ∃ v' b', FlowGraphBuilder.addNew v x b = some (v', b') ∧ v'.value = v.value ∧
      b'.graph.instr? b.graph.size = some x ∧ b'.graph.next b.graph.size = none ∧
      b'.graph.size = b.graph.size + 1 ∧ b'.numBlocks = b.numBlocks ∧ Grown own b b' ∧
      ∀ {own₂ own₃ b₂ j c'}, Grown own₂ b' b₂ → Disjoint own own₂ →
        (∀ i ∈ own₂, b₀.graph.size ≤ i) →
        Fragment Anywhere b₂.graph own₃ b.graph.size (.linear j b.graph.size c') →
        Disjoint own own₃ → (∀ i ∈ own₃, b₀.graph.size ≤ i) →
        Built Anywhere b₀ { v' with exit := some j } b₂ (c ++ c') := by
  have hg₁ : Grown ∅ b (b.alloc x) := grown_alloc _ _ x
  have h₁ := h.later hg₁
  obtain ⟨v', b', hrun, hg, hsize, hblocks, hinstrs, hexit, hval, hl⟩ := h₁.code.add_run b.graph.size
  have hgb : Grown own b b' := (hg₁.mono (Set.empty_subset own)).trans hg fun _ hi _ => hi
  refine ⟨v', b', ?_, hval, hg.graph.instr? (b.instr?_alloc x), ?_, ?_, hblocks, hgb, ?_⟩
  · rw [FlowGraphBuilder.addNew, Partial.bind_run (newInstr_alloc x b)]
    exact hrun
  · have hnot : b.graph.size ∉ own := fun hm => absurd (h.inside _ hm) (Nat.lt_irrefl _)
    have hlt : b.graph.size < (b.alloc x).graph.size := by
      rw [Builder.size_alloc]
      exact Nat.lt_succ_self _
    exact (hg.graph.next _ ⟨hlt, hnot⟩ (Set.notMem_empty _)).trans (h.fresh _ le_rfl)
  · rw [hsize, Builder.size_alloc]
  · intro own₂ own₃ b₂ j c' hg₂ hd₂ hown₂ hf hd₃ hown₃
    have hg₀ : Grown ∅ b₀ b₂ := by
      have hold : ∀ i ∈ own, i < b₀.graph.size → i ∈ (∅ : Set InstrId) := fun i hi hlt =>
        absurd (h.owned i hi) (Nat.not_le.mpr hlt)
      exact (h.grown.trans hgb hold).trans hg₂ fun i hi hlt =>
        absurd (hown₂ i hi) (Nat.not_le.mpr hlt)
    refine ⟨own ∪ own₃, hg₂.fresh (hg.fresh h₁.fresh), hg₀, ?_, ?_⟩
    · rintro i (hi | hi)
      · exact h.owned i hi
      · exact hown₃ i hi
    · have hl₂ : LinkedTo v { v' with exit := some j } (b.alloc x).graph b₂.graph own
          b.graph.size := by
        cases he : v.entry with
        | none =>
            unfold LinkedTo at hl ⊢
            rw [he] at hl ⊢
            exact hl
        | some e =>
            exact hl.mono (fun y hy => h₁.code.exit_mem he hy)
              (hg₂.agrees (fun i hi => (h.inside i hi).trans_le hgb.size_le) hd₂)
      exact h₁.code.linked hl₂ hf hd₃ rfl (hsize ▸ hg₂.size_le)

/-- The labels of a branch with its block are the next two and those of the block. -/
theorem labelsIn_branch {n mid : BlockId} {i j t g : InstrId} {op : Op} {ts : List Item}
    (hts : LabelsIn (n + 2) mid ts) (hmid : n + 2 ≤ mid) :
    LabelsIn n mid (.visit i :: .jump op n :: .bind (n + 1) ::
      (.visit t :: (ts ++ [.visit g, .jump .jump n]) ++ [.bind n, .visit j])) := by
  have hn : n < mid := (Nat.lt_add_of_pos_right (by decide)).trans_le hmid
  have hn₁ : n + 1 < mid := (Nat.lt_succ_self _).trans_le hmid
  have hlabel : ∀ x : Item, x.label? = some n ∨ x.label? = some (n + 1) →
      ∀ l, x.label? = some l → n ≤ l ∧ l < mid := by
    intro x hx l hl
    rcases hx with hx | hx
    · cases hx.symm.trans hl
      exact ⟨le_rfl, hn⟩
    · cases hx.symm.trans hl
      exact ⟨Nat.le_succ n, hn₁⟩
  refine .cons nofun (.cons (hlabel _ (.inl rfl)) (.cons (hlabel _ (.inr rfl)) (.append ?_ ?_)))
  · exact .cons nofun ((hts.mono (Nat.le_add_right n 2) le_rfl).append
      (.cons nofun (.cons (hlabel _ (.inl rfl)) (.nil _ _))))
  · exact .cons (hlabel _ (.inl rfl)) (.cons nofun (.nil _ _))

/-- What a branch with its block leaves. -/
theorem leaves_branch {n mid : BlockId} {i j t g : InstrId} {op : Op} {ts : List Item}
    (hop : (Item.jump op n).Continues) (h : Leaves ts 0) (hts : LabelsIn (n + 2) mid ts) :
    Leaves (.visit i :: .jump op n :: .bind (n + 1) ::
      (.visit t :: (ts ++ [.visit g, .jump .jump n]) ++ [.bind n, .visit j]))
      (-(Item.jump op n).pops) := by
  refine .branch hop h ?_ (Nat.succ_ne_self n) ?_
  · intro x hx b hb hm
    have hlo := (hts x hx b hb).1
    rcases List.mem_pair.mp hm with he | he
    · cases he
      exact absurd hlo (Nat.not_le.mpr (Nat.lt_succ_self _))
    · cases he
      exact absurd hlo (Nat.not_le.mpr (Nat.lt_add_of_pos_right (by decide)))
  · exact hts.not_bind (.inl (Nat.lt_add_of_pos_right (by decide)))

/-- What a `when` is compiled to. -/
structure WhenCode where
  test : List Item
  branch : InstrId
  target : InstrId
  actions : List Item
  goto : InstrId
  join : InstrId

/-- What a `when` emits; its labels are `n` for the join and the next one for the block. -/
def WhenCode.items (k : WhenCode) (n : BlockId) : List Item :=
  k.test ++ .visit k.branch :: .jump (branchOp .true) n :: .bind (n + 1) ::
    (.visit k.target :: (k.actions ++ [.visit k.goto, .jump .jump n]) ++ [.bind n, .visit k.join])

/-- The code of a `when`, from the builder `b` to `b'`: what is known of its actions and of its
test. -/
structure WhenFor (cfg : Config) (m : Mode) (test : Expr) (es : List Expr)
    (actions tests : List Item → BlockId → BlockId → Prop) (b : Builder) (v : Visitor) (b' : Builder)
    (k : WhenCode) : Prop where
  run : visit cfg m (.when test es) {} b = some (v, b')
  value : v.value = none
  exit : v.exit = some k.join
  isJoin : b'.graph.isJoinEntry k.join = true
  built : Built Anywhere b v b' (k.items b.numBlocks)
  parts : ∃ mid, b.numBlocks + 2 ≤ mid ∧ mid ≤ b'.numBlocks ∧
    LabelsIn (b.numBlocks + 2) mid k.actions ∧ actions k.actions (b.numBlocks + 2) mid ∧
    LabelsIn mid b'.numBlocks k.test ∧ tests k.test mid b'.numBlocks

/-- The labels of a `when`. -/
theorem WhenFor.labels {test : Expr} {actions tests : List Item → BlockId → BlockId → Prop}
    {v : Visitor} {b' : Builder} {k : WhenCode} (h : WhenFor cfg m test es actions tests b v b' k) :
    LabelsIn b.numBlocks b'.numBlocks (k.items b.numBlocks) := by
  obtain ⟨mid, hmid, hle, hactions, -, htest, -⟩ := h.parts
  exact (htest.mono (hmid.trans' (Nat.le_add_right _ 2)) le_rfl).append
    ((labelsIn_branch hactions hmid).mono le_rfl hle)

/-- **The code of a `when`**: its block is built first, then its test, and the branch joins the
two. -/
theorem whenFor {test : Expr} {actions tests : List Item → BlockId → BlockId → Prop}
    (hf : b.Fresh)
    (hblock : ∀ b₁ : Builder, b₁.Fresh → (b₁.scopes, b₁.scope) = (b.scopes, b.scope) →
      ∃ b₃ own₃ c₃, visitConseq cfg b₁.graph.size es (b₁.allocBlock .targetEntry)
          = some ((), b₃) ∧ Grown {b₁.graph.size} (b₁.allocBlock .targetEntry) b₃ ∧
        Chaining Anywhere b₁ own₃ b₁.graph.size b₃ ([.visit b₁.graph.size] ++ c₃) ∧
        LabelsIn (b₁.numBlocks + 1) b₃.numBlocks c₃ ∧ actions c₃ (b₁.numBlocks + 1) b₃.numBlocks)
    (htest : ∀ b₄ : Builder, b₄.Fresh → (b₄.scopes, b₄.scope) = (b.scopes, b.scope) →
      ∃ v₅ b₅ c₅, visit cfg .value test {} b₄ = some (v₅, b₅) ∧ Built Anywhere b₄ v₅ b₅ c₅ ∧
        LabelsIn b₄.numBlocks b₅.numBlocks c₅ ∧ tests c₅ b₄.numBlocks b₅.numBlocks) :
    ∃ v b' k, WhenFor cfg m test es actions tests b v b' k := by
  -- the join and the block of the actions
  have hg₁ : Grown ∅ b (b.allocBlock .joinEntry) := grown_allocBlock _ _ _
  have hjoin := b.instr?_allocBlock .joinEntry
  have hjnext : (b.allocBlock .joinEntry).graph.next b.graph.size = none := hf _ le_rfl
  have hn₁ : ((b.allocBlock .joinEntry).scopes, (b.allocBlock .joinEntry).scope)
      = (b.scopes, b.scope) := rfl
  have hsize₁ : (b.allocBlock .joinEntry).graph.size = b.graph.size + 1 := by simp
  have hblocks₁ : (b.allocBlock .joinEntry).numBlocks = b.numBlocks + 1 := rfl
  have hrun₁ := newJoin_run b
  generalize b.allocBlock .joinEntry = b₁ at hg₁ hjoin hjnext hn₁ hsize₁ hblocks₁ hrun₁
  have hlt₁ : b.graph.size < b₁.graph.size := hsize₁ ▸ Nat.lt_succ_self _
  have htarget := b₁.instr?_allocBlock .targetEntry
  have hg₂ : Grown ∅ b₁ (b₁.allocBlock .targetEntry) := grown_allocBlock _ _ _
  obtain ⟨b₃, own₃, c₃, hrun₃, hg₃, hchain₃, hlabels₃, hactions⟩ := hblock b₁ (hg₁.fresh hf) hn₁
  have hb₃ : Grown ∅ b₁ b₃ := hg₂.trans hg₃ fun i hi hlt => by
    obtain rfl := hi
    exact absurd hlt (Nat.lt_irrefl _)
  have hbj : blockId b₃.graph b.graph.size = some b.numBlocks := by
    rw [blockId, hb₃.graph.instr? hjoin]
    rfl
  obtain ⟨b₄, hrun₄, hg₄, hsize₄, hblocks₄, hchain₄⟩ := hchain₃.appendNew (straight_goto hbj)
  have hb₄ : Grown ∅ b₁ b₄ := hb₃.trans hg₄ fun i hi hlt =>
    absurd (hchain₃.owned i hi) (Nat.not_le.mpr hlt)
  -- the test
  have hall₄ : Grown ∅ b b₄ := hg₁.trans hb₄ fun _ hi _ => hi
  have hn₄ : (b₄.scopes, b₄.scope) = (b.scopes, b.scope) := by
    rw [hall₄.scopes, hall₄.scope]
  obtain ⟨v₅, b₅, c₅, hrun₅, hbuilt₅, hlabels₅, htests⟩ := htest b₄ (hall₄.fresh hf) hn₄
  have hstart : Owning Anywhere b ∅ {} b₄ [] :=
    ⟨hall₄.fresh hf, hall₄, fun _ hi => absurd hi (Set.notMem_empty _), .empty _ _⟩
  obtain ⟨v₆, b₆, own₆, hrun₆, hval₆, hsize₆, hblocks₆, hg₆, hown₆, h₆⟩ := hstart.append hbuilt₅
  -- the branch
  obtain ⟨v₇, b₇, hrun₇, hval₇, hinstr₇, hnext₇, hsize₇, hblocks₇, hg₇, hbranch⟩ :=
    h₆.addBranch (x := .branch .true b₁.graph.size none b.graph.size)
  have hle₆ : b₄.graph.size ≤ b₆.graph.size := hg₆.size_le
  have hin₆ : ∀ i ∈ own₆, b₄.graph.size ≤ i := fun i hi =>
    (hown₆ i hi).resolve_left (Set.notMem_empty i)
  have hg₄₇ : Grown own₆ b₄ b₇ :=
    (hg₆.mono (Set.empty_subset _)).trans hg₇ fun _ hi _ => hi
  have hd₄ : Disjoint (own₃ ∪ {b₃.graph.size}) own₆ := disjoint_of_le hchain₄.inside hin₆
  have hchain₇ := hchain₄.mono hg₄₇ hd₄
  have hb₇ : Grown ∅ b₁ b₇ := hb₄.trans hg₄₇ fun i hi hlt =>
    absurd (hb₄.size_le.trans (hin₆ i hi)) (Nat.not_le.mpr hlt)
  have hlt₄ : b.graph.size < b₄.graph.size := hlt₁.trans_le hb₄.size_le
  have hfrag := Fragment.branch hinstr₇ (hb₇.graph.instr? hjoin)
    (show blockId b₇.graph b₁.graph.size = some (b.numBlocks + 1) by
      rw [blockId, hg₄₇.graph.instr? (hg₄.graph.instr? (hg₃.graph.instr? htarget)), hblocks₁]
      rfl) hchain₇.block hnext₇
    ((hb₇.graph.next _ ⟨hlt₁, Set.notMem_empty _⟩ (Set.notMem_empty _)).trans hjnext)
    (hlt₄.trans_le hle₆).ne'
    (fun hm => absurd (hchain₄.inside _ hm) (Nat.not_lt.mpr hle₆))
    (fun hm => absurd (hchain₄.owned _ hm) (Nat.not_le.mpr hlt₁))
  have hbuilt := hbranch (.refl ∅ b₇) (Set.disjoint_empty _)
    (fun _ hi => absurd hi (Set.notMem_empty _)) hfrag ?_ ?_
  · refine ⟨{ v₇ with exit := some b.graph.size }, b₇,
      ⟨c₅, b₆.graph.size, b₁.graph.size, c₃, b₃.graph.size, b.graph.size⟩, ?_,
      hval₇.trans hval₆, rfl, ?_, ?_, b₄.numBlocks, ?_, ?_, ?_, ?_, ?_, ?_⟩
    · rw [visit, Partial.bind_run hrun₁, Partial.bind_run (newTarget_run b₁),
        Partial.bind_run hrun₃]
      rw [← bind_assoc, Partial.bind_run hrun₄, Partial.bind_run hrun₅,
        Partial.bind_run hrun₆, Partial.bind_run hrun₇]
      rfl
    · rw [Graph.isJoinEntry, hb₇.graph.instr? hjoin]
    · simpa [WhenCode.items] using hbuilt
    · have hle : b₁.numBlocks + 1 ≤ b₃.numBlocks := hg₃.blocks
      rw [hblocks₁] at hle
      exact hle.trans hg₄.blocks
    · rw [hblocks₇, hblocks₆]
      exact hbuilt₅.grown.blocks
    · rw [hblocks₄, ← Nat.add_assoc b.numBlocks 1 1, ← hblocks₁]
      exact hlabels₃
    · rw [hblocks₄, ← Nat.add_assoc b.numBlocks 1 1, ← hblocks₁]
      exact hactions
    · rw [hblocks₇, hblocks₆]
      exact hlabels₅
    · rw [hblocks₇, hblocks₆]
      exact htests
  · refine Set.disjoint_left.mpr fun i hi hm => ?_
    rcases hm with (rfl | rfl) | hm
    · exact absurd (h₆.inside _ hi) (Nat.lt_irrefl _)
    · exact absurd (hin₆ _ hi) (Nat.not_le.mpr hlt₄)
    · exact absurd (hin₆ _ hi) (Nat.not_le.mpr (hchain₄.inside _ hm))
  · rintro i ((rfl | rfl) | hm)
    · exact (hlt₄.trans_le hle₆).le
    · exact le_rfl
    · exact hlt₁.le.trans (hchain₄.owned _ hm)

theorem visits_when {test : Expr} (iht : Visits cfg names .value test)
    (ih : ∀ e ∈ es, Visits cfg names .effect e) : Visits cfg names m (.when test es) := by
  intro k b hf hn hk
  simp only [Expr.leaves, Option.bind_eq_bind, Option.bind_eq_some_iff] at hk
  obtain ⟨kt, hkt, ka, hka, hk⟩ := hk
  split at hk
  next hzero =>
      cases hk
      subst hzero
      obtain ⟨v, b', w, h⟩ : ∃ v b' w, WhenFor cfg m test es (fun c _ _ => Leaves c 0)
          (fun c _ _ => Leaves c kt) b v b' w := whenFor hf
        (fun b₁ hf₁ hn₁ => by
          obtain ⟨b₃, own₃, c₃, hrun₃, hg₃, -, hchain₃, hlabels₃, hleaves₃⟩ :=
            visits_block (f := visitConseq cfg b₁.graph.size) (by rw [visitConseq])
              (fun _ _ => by rw [visitConseq]) ih
              (Chaining.start hf₁ fun _ => rfl : Chaining Anywhere b₁ {b₁.graph.size}
                b₁.graph.size (b₁.allocBlock .targetEntry) [.visit b₁.graph.size])
              (hn₁.trans hn) hka
          exact ⟨b₃, own₃, c₃, hrun₃, hg₃, hchain₃, hlabels₃, hleaves₃⟩)
        (fun b₄ hf₄ hn₄ => by
          obtain ⟨v₅, b₅, hrun₅, c₅, hbuilt₅, hlabels₅, hleaves₅⟩ :=
            iht kt b₄ hf₄ (hn₄.trans hn) hkt
          exact ⟨v₅, b₅, c₅, hrun₅, hbuilt₅, hlabels₅, hleaves₅⟩)
      obtain ⟨mid, hmid, hle, hlabelsA, hleavesA, hlabelsT, hleavesT⟩ := h.parts
      have hop : (Item.jump (branchOp .true) b.numBlocks).Continues := trivial
      refine ⟨v, b', h.run, _, h.built, h.labels, ?_⟩
      exact hleavesT.append (leaves_branch hop hleavesA hlabelsA)
        (.of_labelsIn hlabelsT (labelsIn_branch hlabelsA hmid) (.inr le_rfl))
        (.of_labelsIn (labelsIn_branch hlabelsA hmid) hlabelsT (.inl le_rfl))
  next => cases hk

/-- The code of an expression, behind what a visitor has built. -/
theorem Owning.visits {v : Visitor} {e : Expr} (h : Owning Anywhere b₀ own v b c)
    (ih : Visits cfg names .value e) (hn : (b.scopes, b.scope) = names)
    (hk : e.leaves cfg names .value = some k) :
    ∃ v₁ b₁ v₂ b₂ own₂ c₂, visit cfg .value e {} b = some (v₁, b₁) ∧
      FlowGraphBuilder.append v v₁ b₁ = some (v₂, b₂) ∧ Grown own b b₂ ∧
      (∀ i ∈ own₂, i ∈ own ∨ b.graph.size ≤ i) ∧ Owning Anywhere b₀ own₂ v₂ b₂ (c ++ c₂) ∧
      LabelsIn b.numBlocks b₂.numBlocks c₂ ∧ Leaves c₂ k := by
  obtain ⟨v₁, b₁, hrun₁, c₁, hbuilt₁, hlabels₁, hleaves₁⟩ := ih k b h.fresh hn hk
  obtain ⟨v₂, b₂, own₂, hrun₂, -, -, hblocks₂, hg₂, hown₂, h₂⟩ := h.append hbuilt₁
  exact ⟨v₁, b₁, v₂, b₂, own₂, c₁, hrun₁, hrun₂, hg₂, hown₂, h₂, hblocks₂ ▸ hlabels₁, hleaves₁⟩

/-- What the test of a clause leaves behind its branch. -/
def testLeaves (cfg : Config) (names : Names) (key : Expr) : Option Int :=
  match key with
  | .binaryOp .equals l r => do
      pure ((← l.leaves cfg names .value) + (← r.leaves cfg names .value) - 2)
  | key => do pure ((← key.leaves cfg names .value) - 1)

theorem testLeaves_of_ne {key : Expr} (hne : ∀ l r, key ≠ .binaryOp .equals l r) :
    testLeaves cfg names key = (key.leaves cfg names .value).map (· - 1) := by
  unfold testLeaves
  split
  next l r => exact absurd rfl (hne l r)
  next => cases key.leaves cfg names .value <;> rfl

/-- The code of the test of a clause. -/
theorem visits_test {key : Expr} (ih : Visits cfg names .value key)
    (iho : ∀ l r, key = .binaryOp .equals l r →
      Visits cfg names .value l ∧ Visits cfg names .value r)
    (h : Owning Anywhere b₀ ∅ {} b []) (hn : (b.scopes, b.scope) = names)
    (hk : testLeaves cfg names key = some k) :
    ∃ condition v₁ b₁ own₁ c₁, visitTest cfg key {} b = some ((v₁, condition), b₁) ∧
      Grown ∅ b b₁ ∧ (∀ i ∈ own₁, b.graph.size ≤ i) ∧ Owning Anywhere b₀ own₁ v₁ b₁ c₁ ∧
      LabelsIn b.numBlocks b₁.numBlocks c₁ ∧
      ∀ l, Leaves c₁ (k + (Item.jump (branchOp condition) l).pops) := by
  have hvalue : ∀ {kt}, key.leaves cfg names .value = some kt → k = kt - 1 →
      (∀ v, visitTest cfg key v = do
        let v ← FlowGraphBuilder.append v (← visit cfg .value key {})
        return (v, .true)) →
      ∃ condition v₁ b₁ own₁ c₁, visitTest cfg key {} b = some ((v₁, condition), b₁) ∧
        Grown ∅ b b₁ ∧ (∀ i ∈ own₁, b.graph.size ≤ i) ∧ Owning Anywhere b₀ own₁ v₁ b₁ c₁ ∧
        LabelsIn b.numBlocks b₁.numBlocks c₁ ∧
        ∀ l, Leaves c₁ (k + (Item.jump (branchOp condition) l).pops) := by
    intro kt hkt hk hvisit
    obtain ⟨v₁, b₁, v₂, b₂, own₂, c₂, hrun₁, hrun₂, hg₂, hown₂, h₂, hlabels₂, hleaves₂⟩ :=
      h.visits ih hn hkt
    refine ⟨.true, v₂, b₂, own₂, c₂, ?_, hg₂, fun i hi =>
      (hown₂ i hi).resolve_left (Set.notMem_empty i), h₂, hlabels₂, fun l => ?_⟩
    · rw [hvisit, Partial.bind_run hrun₁, Partial.bind_run hrun₂]
      rfl
    · rw [hk]
      simpa [Item.pops, branchOp, Bytecode.pops] using hleaves₂
  by_cases heq : ∃ l r, key = .binaryOp .equals l r
  · obtain ⟨l, r, rfl⟩ := heq
    simp only [testLeaves, Option.bind_eq_bind, Option.bind_eq_some_iff, Option.pure_def,
      Option.some.injEq] at hk
    obtain ⟨kl, hkl, kr, hkr, rfl⟩ := hk
    obtain ⟨ihl, ihr⟩ := iho l r rfl
    obtain ⟨v₁, b₁, v₂, b₂, own₂, c₂, hrun₁, hrun₂, hg₂, hown₂, h₂, hlabels₂, hleaves₂⟩ :=
      h.visits ihl hn hkl
    have hn₂ : (b₂.scopes, b₂.scope) = names := by
      rw [hg₂.scopes, hg₂.scope]
      exact hn
    obtain ⟨v₃, b₃, v₄, b₄, own₄, c₄, hrun₃, hrun₄, hg₄, hown₄, h₄, hlabels₄, hleaves₄⟩ :=
      h₂.visits ihr hn₂ hkr
    have hnew₂ : ∀ i ∈ own₂, b.graph.size ≤ i := fun i hi =>
      (hown₂ i hi).resolve_left (Set.notMem_empty i)
    refine ⟨.equal, v₄, b₄, own₄, c₂ ++ c₄, ?_, ?_, fun i hi => ?_, h₄, ?_, fun l => ?_⟩
    · rw [visitTest, Partial.bind_run hrun₁, Partial.bind_run hrun₂, Partial.bind_run hrun₃,
        Partial.bind_run hrun₄]
      rfl
    · exact hg₂.trans hg₄ fun i hi hlt => absurd (hnew₂ i hi) (Nat.not_le.mpr hlt)
    · rcases hown₄ i hi with hi | hi
      · exact hnew₂ i hi
      · exact hg₂.size_le.trans hi
    · exact (hlabels₂.mono le_rfl hg₄.blocks).append (hlabels₄.mono hg₂.blocks le_rfl)
    · have hboth := hleaves₂.append hleaves₄ (.of_labelsIn hlabels₂ hlabels₄ (.inl le_rfl))
        (.of_labelsIn hlabels₄ hlabels₂ (.inr le_rfl))
      simpa [Item.pops, branchOp, Bytecode.pops] using hboth
  · have hne : ∀ l r, key ≠ .binaryOp .equals l r := fun l r he => heq ⟨l, r, he⟩
    rw [testLeaves_of_ne hne, Option.map_eq_some_iff] at hk
    obtain ⟨kt, hkt, rfl⟩ := hk
    refine hvalue hkt rfl fun v => ?_
    unfold visitTest
    split
    next l r => exact absurd rfl (hne l r)
    next => rfl

/-- What an alternate leaves; without one the branch leaves nothing. -/
def alternateLeaves (cfg : Config) (names : Names) : Option Expr → Option Int
  | none => some 0
  | some e => e.leaves cfg names .value

/-- The code of the alternate, in the block that the branch names. -/
theorem visits_alternate {alternate : Option Expr} {join : InstrId} {bj : BlockId}
    (ih : ∀ e ∈ alternate, Visits cfg names .value e) (h : Chaining Anywhere b₀ own target b c)
    (hj : blockId b.graph join = some bj) (hn : (b.scopes, b.scope) = names)
    (hk : alternateLeaves cfg names alternate = some k) :
    ∃ b' own' c' tail, visitAlternate cfg target join alternate b = some ((), b') ∧
      Grown own b b' ∧ (∀ i ∈ own', i ∈ own ∨ b.graph.size ≤ i) ∧
      Chaining Anywhere b₀ own' target b' (c ++ (c' ++ tail)) ∧
      LabelsIn b.numBlocks b'.numBlocks c' ∧ Leaves c' k ∧
      (tail = [] ∨ ∃ g, tail = [.visit g, .jump .jump bj]) := by
  cases alternate with
  | none =>
      cases hk
      exact ⟨b, own, [], [], by rw [visitAlternate]; rfl, .refl _ _, fun _ hi => .inl hi,
        by rwa [List.append_nil, List.append_nil], .nil _ _, .nil, .inl rfl⟩
  | some e =>
      obtain ⟨v₁, b₁, hrun₁, c₁, hbuilt₁, hlabels₁, hleaves₁⟩ := ih e rfl k b h.fresh hn hk
      obtain ⟨b₂, own₂, hrun₂, hg₂, -, hblocks₂, hown₂, hchain₂⟩ := h.appendFragment hbuilt₁
      obtain ⟨b₃, hrun₃, hg₃, -, hblocks₃, hchain₃⟩ :=
        hchain₂.appendNew (straight_goto (hg₂.graph.blockId hj))
      refine ⟨b₃, _, c₁, _, ?_, ?_, ?_, by rwa [List.append_assoc] at hchain₃, ?_, hleaves₁,
        .inr ⟨b₂.graph.size, rfl⟩⟩
      · rw [visitAlternate, Partial.bind_run hrun₁, Partial.bind_run hrun₂]
        exact hrun₃
      · exact hg₂.trans hg₃ fun i hi hlt => (hown₂ i hi).resolve_right (Nat.not_le.mpr hlt)
      · rintro i (hi | rfl)
        · exact hown₂ i hi
        · exact .inr hg₂.size_le
      · rw [hblocks₃, hblocks₂]
        exact hlabels₁

/-- A branch with its blocks, whose labels are the next three. -/
theorem branchElse_block {n m₁ m₂ m₃ : BlockId} {i j t f g : InstrId} {op : Op}
    {ts fs tail : List Item} (hop : (Item.jump op n).Continues) (h : Leaves ts k)
    (h' : Leaves fs k) (hts : LabelsIn (n + 3) m₁ ts) (hfs : LabelsIn m₂ m₃ fs)
    (hle₁ : n + 3 ≤ m₁) (hle₂ : m₁ ≤ m₂)
    (htail : tail = [] ∨ ∃ g', tail = [.visit g', .jump .jump (n + 1)]) :
    (∀ x ∈ (.visit i :: .jump op n :: .bind (n + 2) ::
      (.visit t :: (ts ++ [.visit g, .jump .jump (n + 1)]) ++ .bind n ::
        (.visit f :: (fs ++ tail) ++ [.bind (n + 1), .visit j])) : List Item),
      ∀ l, x.label? = some l → n ≤ l ∧ (l < m₁ ∨ m₂ ≤ l ∧ l < m₃)) ∧
    Leaves (.visit i :: .jump op n :: .bind (n + 2) ::
      (.visit t :: (ts ++ [.visit g, .jump .jump (n + 1)]) ++ .bind n ::
        (.visit f :: (fs ++ tail) ++ [.bind (n + 1), .visit j])))
      (k - (Item.jump op n).pops) := by
  have hlow : ∀ l, l < n + 3 → (∀ x ∈ ts, x ≠ .bind l) ∧ ∀ x ∈ fs, x ≠ .bind l := by
    intro l hl
    refine ⟨fun x hx he => ?_, fun x hx he => ?_⟩
    · subst he
      exact hts.not_bind (.inl hl) hx
    · subst he
      exact hfs.not_bind (.inl (hl.trans_le (hle₁.trans hle₂))) hx
  constructor
  · have hbase : ∀ l, l = n ∨ l = n + 1 ∨ l = n + 2 → n ≤ l ∧ (l < m₁ ∨ m₂ ≤ l ∧ l < m₃) := by
      rintro l (rfl | rfl | rfl)
      · exact ⟨le_rfl, .inl ((Nat.lt_add_of_pos_right (by decide)).trans_le hle₁)⟩
      · exact ⟨Nat.le_succ n, .inl ((Nat.add_lt_add_left (by decide) n).trans_le hle₁)⟩
      · exact ⟨Nat.le_add_right n 2, .inl ((Nat.lt_succ_self _).trans_le hle₁)⟩
    have htailIn : ∀ x ∈ tail, ∀ l, x.label? = some l → l = n + 1 := by
      rcases htail with rfl | ⟨g', rfl⟩
      · nofun
      · intro x hx l hl
        rcases List.mem_pair.mp hx with rfl | rfl
        · cases hl
        · cases hl
          rfl
    intro x hx l hl
    simp only [List.mem_cons, List.mem_append, List.not_mem_nil, or_false] at hx
    rcases hx with rfl | rfl | rfl | (rfl | hx | rfl | rfl) | rfl | (rfl | hx | hx) | rfl | rfl
    all_goals first
      | cases hl
        exact hbase _ (by simp)
      | cases hl
      | skip
    · obtain ⟨hlo, hlt⟩ := hts x hx l hl
      exact ⟨(Nat.le_add_right n 3).trans hlo, .inl hlt⟩
    · obtain ⟨hlo, hlt⟩ := hfs x hx l hl
      exact ⟨((Nat.le_add_right n 3).trans (hle₁.trans hle₂)).trans hlo, .inr ⟨hlo, hlt⟩⟩
    · exact hbase l (.inr (.inl (htailIn x hx l hl)))
  · refine .branchElse hop h h' ?_ ?_ ?_ ?_ ?_ htail
    · -- the labels of the first block are bound neither here nor in the second one
      refine .cons ?_ (.cons ?_ (.cons ?_ (.of_labelsIn hts hfs (.inl hle₂))))
      all_goals
        intro y hy b hb he
        cases he
        have hlo := (hts y hy _ hb).1
        simp at hlo
    · refine .cons ?_ (.cons ?_ (.cons ?_ (.of_labelsIn hfs hts (.inr hle₂))))
      all_goals
        intro y hy b hb he
        cases he
        have hlo := (hle₁.trans hle₂).trans (hfs y hy _ hb).1
        simp at hlo
    · simp
    · intro hm
      obtain ⟨hnt, hnf⟩ := hlow n (Nat.lt_add_of_pos_right (by decide))
      rcases List.mem_append.mp hm with hm | hm
      · exact hnt _ hm rfl
      · exact hnf _ hm rfl
    · intro hm
      obtain ⟨hnt, hnf⟩ := hlow (n + 1) (Nat.add_lt_add_left (by decide) n)
      rcases List.mem_append.mp hm with hm | hm
      · exact hnt _ hm rfl
      · exact hnf _ hm rfl

theorem leaves_cond (key : Expr) (actions : List Expr) (alternate : Option Expr) :
    (Expr.cond [.mk key actions] alternate).leaves cfg names m
      = (testLeaves cfg names key).bind fun test =>
        (Expr.leavesAll cfg names .value actions).bind fun ka =>
          (alternateLeaves cfg names alternate).bind fun kf =>
            if ka = kf then some (test + ka) else none := by
  by_cases heq : ∃ l r, key = .binaryOp .equals l r
  · obtain ⟨l, r, rfl⟩ := heq
    cases alternate <;> simp [Expr.leaves, testLeaves, alternateLeaves, Option.bind_assoc]
  · have hne : ∀ l r, key ≠ .binaryOp .equals l r := fun l r he => heq ⟨l, r, he⟩
    rw [testLeaves_of_ne hne, Expr.leaves]
    · cases alternate <;> simp [alternateLeaves, Option.bind_assoc, Option.map_eq_bind]
    · exact fun l r he => hne l r he

/-- **A `cond` with one clause.** -/
theorem visits_cond {key : Expr} {alternate : Option Expr} (iht : Visits cfg names .value key)
    (iho : ∀ l r, key = .binaryOp .equals l r →
      Visits cfg names .value l ∧ Visits cfg names .value r)
    (ih : ∀ e ∈ es, Visits cfg names .value e)
    (iha : ∀ e ∈ alternate, Visits cfg names .value e) :
    Visits cfg names m (.cond [.mk key es] alternate) := by
  intro k b hf hn hk
  rw [leaves_cond] at hk
  simp only [Option.bind_eq_some_iff] at hk
  obtain ⟨kt, hkt, ka, hka, kf, hkf, hk⟩ := hk
  split at hk
  next heq =>
      cases hk
      subst heq
      -- the alternate's entry, the join and the block of the actions
      have hrun₀ := newTarget_run b
      have hg₀ : Grown ∅ b (b.allocBlock .targetEntry) := grown_allocBlock _ _ _
      have halt : blockId (b.allocBlock .targetEntry).graph b.graph.size = some b.numBlocks := by
        rw [blockId, Builder.instr?_allocBlock]
        rfl
      have hchain₀ : Chaining Anywhere b {b.graph.size} b.graph.size (b.allocBlock .targetEntry)
          [.visit b.graph.size] := .start hf fun _ => rfl
      have hsize₀ : (b.allocBlock .targetEntry).graph.size = b.graph.size + 1 := by simp
      have hblocks₀ : (b.allocBlock .targetEntry).numBlocks = b.numBlocks + 1 := rfl
      generalize b.allocBlock .targetEntry = b₀ at hrun₀ hg₀ halt hchain₀ hsize₀ hblocks₀
      have hrun₁ := newJoin_run b₀
      have hg₁ : Grown ∅ b₀ (b₀.allocBlock .joinEntry) := grown_allocBlock _ _ _
      have hjoin := b₀.instr?_allocBlock .joinEntry
      have hjnext : (b₀.allocBlock .joinEntry).graph.next b₀.graph.size = none :=
        hchain₀.fresh _ le_rfl
      rw [hblocks₀] at hjoin
      have hsize₁ : (b₀.allocBlock .joinEntry).graph.size = b₀.graph.size + 1 := by simp
      have hblocks₁ : (b₀.allocBlock .joinEntry).numBlocks = b.numBlocks + 2 := by
        rw [Builder.numBlocks_allocBlock, hblocks₀]
      generalize b₀.allocBlock .joinEntry = b₁ at hrun₁ hg₁ hjoin hjnext hsize₁ hblocks₁
      have hn₁ : (b₁.scopes, b₁.scope) = names := by
        rw [hg₁.scopes, hg₁.scope, hg₀.scopes, hg₀.scope]
        exact hn
      have hrun₂ := newTarget_run b₁
      have htarget := b₁.instr?_allocBlock .targetEntry
      have hg₂ : Grown ∅ b₁ (b₁.allocBlock .targetEntry) := grown_allocBlock _ _ _
      obtain ⟨b₃, own₃, c₃, hrun₃, hg₃, hown₃, hchain₃, hlabels₃, hleaves₃⟩ :=
        visits_block (f := visitActions cfg b₁.graph.size) (by rw [visitActions])
          (fun _ _ => by rw [visitActions]) ih
          (Chaining.start (hg₁.fresh hchain₀.fresh) fun _ => rfl :
            Chaining Anywhere b₁ {b₁.graph.size} b₁.graph.size (b₁.allocBlock .targetEntry)
              [.visit b₁.graph.size]) hn₁ hka
      have hb₃ : Grown ∅ b₁ b₃ := hg₂.trans hg₃ fun i hi hlt => by
        obtain rfl := hi
        exact absurd hlt (Nat.lt_irrefl _)
      have hbj : ∀ {g own hole}, b₁.graph.Agrees g own hole →
          blockId g b₀.graph.size = some (b.numBlocks + 1) := by
        intro g own hole ha
        rw [blockId, ha.instr? hjoin]
        rfl
      obtain ⟨b₄, hrun₄, hg₄, hsize₄, hblocks₄, hchain₄⟩ :=
        hchain₃.appendNew (straight_goto (hbj hb₃.graph))
      have hb₄ : Grown ∅ b₁ b₄ := hb₃.trans hg₄ fun i hi hlt =>
        absurd (hchain₃.owned i hi) (Nat.not_le.mpr hlt)
      -- the test
      have hg₀₁ : Grown ∅ b b₁ := hg₀.trans hg₁ fun _ hi _ => hi
      have hall₄ : Grown ∅ b b₄ := hg₀₁.trans hb₄ fun _ hi _ => hi
      have hn₄ : (b₄.scopes, b₄.scope) = names := by
        rw [hall₄.scopes, hall₄.scope]
        exact hn
      have hstart : Owning Anywhere b ∅ {} b₄ [] :=
        ⟨hall₄.fresh hf, hall₄, fun _ hi => absurd hi (Set.notMem_empty _), .empty _ _⟩
      obtain ⟨condition, v₆, b₆, own₆, c₆, hrun₆, hg₆, hin₆, h₆, hlabels₆, hleaves₆⟩ :=
        visits_test iht iho hstart hn₄ hkt
      -- the branch
      obtain ⟨v₇, b₇, hrun₇, -, hinstr₇, hnext₇, hsize₇, hblocks₇, hg₇, hbranch⟩ :=
        h₆.addBranch (x := .branch condition b₁.graph.size (some b.graph.size) b₀.graph.size)
      have hg₄₇ : Grown own₆ b₄ b₇ :=
        (hg₆.mono (Set.empty_subset _)).trans hg₇ fun _ hi _ => hi
      have hb₇ : Grown ∅ b₁ b₇ := hb₄.trans hg₄₇ fun i hi hlt =>
        absurd (hb₄.size_le.trans (hin₆ i hi)) (Nat.not_le.mpr hlt)
      have hall₇ : Grown ∅ b b₇ := hg₀₁.trans hb₇ fun _ hi _ => hi
      have hn₇ : (b₇.scopes, b₇.scope) = names := by
        rw [hall₇.scopes, hall₇.scope]
        exact hn
      -- the alternate
      have hg₀₇ : Grown ∅ b₀ b₇ := hg₁.trans hb₇ fun _ hi _ => hi
      obtain ⟨b₈, own₈, c₈, tail, hrun₈, hg₈, hown₈, hchain₈, hlabels₈, hleaves₈, htail⟩ :=
        visits_alternate iha (hchain₀.mono hg₀₇ (Set.disjoint_empty _)) (hbj hb₇.graph) hn₇ hkf
      -- where things stand
      have hlt₀ : b.graph.size < b₀.graph.size := hsize₀ ▸ Nat.lt_succ_self _
      have hlt₁ : b₀.graph.size < b₁.graph.size := hsize₁ ▸ Nat.lt_succ_self _
      have hle₄ : b₁.graph.size ≤ b₄.graph.size := hb₄.size_le
      have hle₆ : b₄.graph.size ≤ b₆.graph.size := hg₆.size_le
      have hlt₇ : b₆.graph.size < b₇.graph.size := hsize₇ ▸ Nat.lt_succ_self _
      have hlate₈ : ∀ i ∈ own₈, i = b.graph.size ∨ b₇.graph.size ≤ i := hown₈
      have hsix : ∀ i ∈ own₆, b₁.graph.size ≤ i ∧ i < b₆.graph.size := fun i hi =>
        ⟨hle₄.trans (hin₆ i hi), h₆.inside i hi⟩
      have hd₄ : Disjoint (own₃ ∪ {b₃.graph.size}) own₆ := disjoint_of_le hchain₄.inside hin₆
      have halone : ∀ {own : Set InstrId}, (∀ i ∈ own, b.graph.size < i) →
          Disjoint own {b.graph.size} := fun h =>
        Set.disjoint_singleton_right.mpr fun hm => Nat.lt_irrefl _ (h _ hm)
      have hchain₄₈ := (hchain₄.mono hg₄₇ hd₄).mono hg₈
        (halone fun i hi => hlt₀.trans (hlt₁.trans_le (hchain₄.owned i hi)))
      have hkeep₈ : ∀ i, b.graph.size < i → i < b₇.graph.size →
          b₈.graph.next i = b₇.graph.next i := fun i hlo hhi =>
        hg₈.graph.next i ⟨hhi, fun he => Nat.lt_irrefl _ (he ▸ hlo)⟩ (Set.notMem_empty i)
      have hlt₆ : b.graph.size < b₆.graph.size :=
        (hlt₀.trans hlt₁).trans_le (hle₄.trans hle₆)
      have hlt₀₇ : b₀.graph.size < b₇.graph.size :=
        hlt₁.trans_le (hle₄.trans (hle₆.trans hlt₇.le))
      have hjnext₈ : b₈.graph.next b₀.graph.size = none := by
        rw [hkeep₈ _ hlt₀ hlt₀₇, hb₇.graph.next _ ⟨hlt₁, Set.notMem_empty _⟩ (Set.notMem_empty _)]
        exact hjnext
      have htarget₈ : blockId b₈.graph b₁.graph.size = some (b.numBlocks + 2) := by
        rw [blockId, hg₈.graph.instr? (hg₄₇.graph.instr? (hg₄.graph.instr?
          (hg₃.graph.instr? htarget))), hblocks₁]
        rfl
      have hfrag := Fragment.branchElse (hg₈.graph.instr? hinstr₇)
        (hg₈.graph.instr? (hb₇.graph.instr? hjoin)) htarget₈
        (hg₈.graph.blockId (hg₀₇.graph.blockId halt)) hchain₄₈.block hchain₈.block
        ((hkeep₈ _ hlt₆ hlt₇).trans hnext₇) hjnext₈ (hlt₁.trans_le (hle₄.trans hle₆)).ne' ?_ ?_
      · have hbuilt := hbranch hg₈ (halone fun i hi => hlt₀.trans (hlt₁.trans_le (hsix i hi).1))
          (fun i hi => (show i = b.graph.size from hi).ge) hfrag ?_ ?_
        · have hlabels₃' : LabelsIn (b.numBlocks + 3) b₄.numBlocks c₃ := by
            have hblocks₂ : (b₁.allocBlock .targetEntry).numBlocks = b.numBlocks + 3 := by
              rw [Builder.numBlocks_allocBlock, hblocks₁]
            rw [hblocks₂] at hlabels₃
            exact hlabels₃.mono le_rfl hg₄.blocks
          have hmid : b.numBlocks + 3 ≤ b₄.numBlocks := by
            have hle : b₁.numBlocks + 1 ≤ b₃.numBlocks := hg₃.blocks
            rw [hblocks₁] at hle
            exact hle.trans hg₄.blocks
          have hle₇ : b₄.numBlocks ≤ b₇.numBlocks := hg₄₇.blocks
          have hblock := branchElse_block (i := b₆.graph.size) (j := b₀.graph.size)
            (t := b₁.graph.size) (f := b.graph.size) (g := b₃.graph.size)
            (show (Item.jump (branchOp condition) b.numBlocks).Continues by
              cases condition <;> trivial) hleaves₃ hleaves₈ hlabels₃' hlabels₈ hmid hle₇ htail
          simp only [List.append_assoc, List.cons_append, List.nil_append] at hblock hbuilt
          have hclauses : visitCondClauses cfg b.graph.size b₀.graph.size [.mk key es] {} b₁
              = some (v₇, b₇) := by
            rw [visitCondClauses_cons, Partial.bind_run hrun₂, Partial.bind_run hrun₃]
            rw [← bind_assoc, Partial.bind_run hrun₄, Partial.bind_run hrun₆]
            refine (Partial.bind_run hrun₇).trans ?_
            rw [visitCondClauses]
            rfl
          refine ⟨_, b₈, ?_, _, hbuilt, ?_, ?_⟩
          · rw [visit, Partial.bind_run hrun₀, Partial.bind_run hrun₁, Partial.bind_run hclauses,
              Partial.bind_run hrun₈]
            rfl
          · refine (hlabels₆.mono ((Nat.le_add_right _ 3).trans hmid) ?_).append ?_
            · exact hblocks₇.ge.trans hg₈.blocks
            · intro x hx l hl
              obtain ⟨hlo, hhi | ⟨-, hhi⟩⟩ := hblock.1 x hx l hl
              · exact ⟨hlo, hhi.trans_le (hle₇.trans hg₈.blocks)⟩
              · exact ⟨hlo, hhi⟩
          · have hsum : kt + ka = kt + (Item.jump (branchOp condition) b.numBlocks).pops
                + (ka - (Item.jump (branchOp condition) b.numBlocks).pops) := by ring
            rw [hsum]
            refine (hleaves₆ _).append hblock.2 ?_ ?_
            · intro x hx l hl hm
              obtain ⟨hlo, hhi⟩ := hlabels₆ x hx l hl
              obtain ⟨-, h | ⟨h, -⟩⟩ := hblock.1 _ hm l rfl
              · exact absurd hlo (Nat.not_le.mpr h)
              · rw [hblocks₇] at h
                exact absurd hhi (Nat.not_lt.mpr h)
            · intro x hx l hl
              refine hlabels₆.not_bind ?_
              obtain ⟨-, h | ⟨h, -⟩⟩ := hblock.1 x hx l hl
              · exact .inl h
              · exact .inr (hblocks₇ ▸ h)
        · refine Set.disjoint_left.mpr fun i hi hm => ?_
          rcases hm with (rfl | rfl) | hm | hm
          · exact absurd (hsix _ hi).2 (Nat.lt_irrefl _)
          · exact absurd (hsix _ hi).1 (Nat.not_le.mpr hlt₁)
          · exact absurd (hin₆ _ hi) (Nat.not_le.mpr (hchain₄.inside _ hm))
          · rcases hlate₈ _ hm with he | hle
            · exact absurd (he ▸ (hsix _ hi).1) (Nat.not_le.mpr (hlt₀.trans hlt₁))
            · exact absurd ((hsix _ hi).2.trans hlt₇) (Nat.not_lt.mpr hle)
        · rintro i ((rfl | rfl) | hm | hm)
          · exact hlt₆.le
          · exact hlt₀.le
          · exact (hlt₀.trans hlt₁).le.trans (hchain₄.owned _ hm)
          · exact hchain₈.owned _ hm
      · rintro (hm | hm)
        · exact absurd (hchain₄.inside _ hm) (Nat.not_lt.mpr hle₆)
        · rcases hlate₈ _ hm with he | hle
          · exact hlt₆.ne' he
          · exact absurd hlt₇ (Nat.not_lt.mpr hle)
      · rintro (hm | hm)
        · exact absurd (hchain₄.owned _ hm) (Nat.not_le.mpr hlt₁)
        · rcases hlate₈ _ hm with he | hle
          · exact hlt₀.ne' he
          · exact absurd hlt₀₇ (Nat.not_lt.mpr hle)
  next => cases hk

end Blocks

/-! ### Every expression -/

/-- What is proved of an expression; a `cond` leaves the operands of an equality to its branch. -/
structure Counted (cfg : Config) (names : Names) (e : Expr) : Prop where
  visits : ∀ m, Visits cfg names m e
  operands : ∀ l r, e = .binaryOp .equals l r →
    Visits cfg names .value l ∧ Visits cfg names .value r

/-- An expression that is not counted. -/
theorem counted_none {cfg : Config} {names : Names} {e : Expr}
    (h : ∀ m, e.leaves cfg names m = none) (he : ∀ op l r, e ≠ .binaryOp op l r) :
    Counted cfg names e where
  visits m _ _ _ _ hk := nomatch (h m).symm.trans hk
  operands l r hlr := absurd hlr (he _ l r)

namespace Expr

mutual

/-- **The code of an expression leaves what is counted**, in either mode. -/
theorem visit_counts (cfg : Config) (names : Names) : ∀ e : Expr, Counted cfg names e
  | .literal value => ⟨fun _ => visits_literal value, nofun⟩
  | .quoted value => ⟨fun _ => visits_quoted value, nofun⟩
  | .unary _ e => ⟨fun _ => visits_unary ((visit_counts cfg names e).visits _), nofun⟩
  | .binaryOp _ l r => by
      have ihl := (visit_counts cfg names l).visits .value
      have ihr := (visit_counts cfg names r).visits .value
      refine ⟨fun _ => visits_binaryOp ihl ihr, ?_⟩
      rintro l' r' he
      cases he
      exact ⟨ihl, ihr⟩
  | .begin body => ⟨fun _ => visits_begin fun e he => (visitAll_counts cfg names body e he).visits _,
      nofun⟩
  | .cond [.mk key actions] alternate => by
      have ihk := visit_counts cfg names key
      have iha := visitAll_counts cfg names actions
      refine ⟨fun _ => visits_cond (ihk.visits _) ihk.operands (fun e he => (iha e he).visits _) ?_,
        nofun⟩
      cases alternate with
      | none => nofun
      | some e =>
          intro x hx
          cases hx
          exact (visit_counts cfg names e).visits _
  | .when test actions => ⟨fun _ => visits_when ((visit_counts cfg names test).visits _)
      fun e he => (visitAll_counts cfg names actions e he).visits _, nofun⟩
  | .localDef l e => ⟨fun _ => visits_store ((visit_counts cfg names e).visits _)
      (fun _ => by rw [visit]) (by rw [leaves]), nofun⟩
  | .setLocal l e => ⟨fun _ => visits_store ((visit_counts cfg names e).visits _)
      (fun _ => by rw [visit]) (by rw [leaves]), nofun⟩
  | .setField _ inst e => ⟨fun _ => visits_setField ((visit_counts cfg names e).visits _)
      ((visit_counts cfg names inst).visits _), nofun⟩
  | .loadField inst _ => ⟨fun _ => visits_loadField ((visit_counts cfg names inst).visits _), nofun⟩
  | .import => ⟨fun _ => visits_import, nofun⟩
  | .callProc target args => by
      have iha := visitAll_counts cfg names args
      refine ⟨fun m k b hf hn hk => ?_, nofun⟩
      simp only [leaves, Option.bind_eq_bind, Option.bind_eq_some_iff, Option.pure_def,
        Option.some.injEq] at hk
      obtain ⟨x, hx, ka, hka, rfl⟩ := hk
      obtain ⟨v, b', hrun, h⟩ := calls_callProc (fun e he => (iha e he).visits _) hf hn hx hka
      exact ⟨v, b', hrun, h.counts⟩
  | .list values => ⟨fun _ => visits_list fun e he => (visitAll_counts cfg names values e he).visits _,
      nofun⟩
  | .instanceOf _ e => ⟨fun _ => visits_instanceOf ((visit_counts cfg names e).visits _), nofun⟩
  | .cast _ e => ⟨fun _ => visits_cast ((visit_counts cfg names e).visits _), nofun⟩
  | .new _ args => ⟨fun _ => visits_new fun e he => (visitAll_counts cfg names args e he).visits _,
      nofun⟩
  | .cond [] _ | .cond (_ :: _ :: _) _ | .while .. | .case .. | .binding .. | .let .. | .letRx ..
  | .throw .. | .newMap .. | .loadInstanceMethod .. =>
      counted_none (fun _ => by rw [leaves]) nofun

theorem visitAll_counts (cfg : Config) (names : Names) :
    ∀ es : List Expr, ∀ e ∈ es, Counted cfg names e
  | [], _, he => nomatch he
  | e :: es, x, hx => by
      rcases List.mem_cons.mp hx with he | hx
      · rw [he]
        exact visit_counts cfg names e
      · exact visitAll_counts cfg names es x hx

end

end Expr

end Gel
