import Gel.FlowGraphBuilder
import Gel.Fragment
import Gel.Support.Partial
import Mathlib.Order.Interval.Set.Basic

/-!
# Building — what the steps of a visitor do to its fragment

`Code ctx h own v c`: the visitor `v` has a fragment that emits the items `c`.  `Built ctx b₀ v b c`
adds that all of it has been built since `b₀`, and that what was there is as it was.  Each step of a
visitor extends the items at their end:

* `Built.append`, `Built.addNew`, `Built.returnNew`, `Built.addBranch`.

`Chained` and its lemmas do the same for the chain of a block.
-/

namespace Gel

open FlowGraphCompiler FlowGraphBuilder

/-! ### Code -/

/-- A visitor's fragment emits the items in front of what is behind it; an empty visitor emits
nothing. -/
def Code (ctx : Graph → Prop) (h : Graph) (own : Set InstrId) (v : Visitor) (c : List Item) :
    Prop :=
  match v.entry with
  | none => c = [] ∧ ∀ i ∈ own, i < h.size
  | some e => ∃ x l, v.exit = some x ∧ Fragment ctx h own e (.linear x l c)

namespace Code

variable {ctx : Graph → Prop} {h h' : Graph} {own own' : Set InstrId} {v : Visitor}
  {c : List Item}

theorem empty (ctx : Graph → Prop) (h : Graph) : Code ctx h ∅ {} [] :=
  ⟨rfl, fun _ hi => absurd hi (Set.notMem_empty _)⟩

theorem mono (hv : Code ctx h own v c) (ha : h.Agrees h' own ∅) (hown : own ⊆ own')
    (hin : ∀ i ∈ own', i < h'.size) : Code ctx h' own' v c := by
  unfold Code at hv ⊢
  split at hv
  next => exact ⟨hv.1, hin⟩
  next e he =>
      obtain ⟨x, l, hx, hf⟩ := hv
      exact ⟨x, l, hx, hf.mono ha hown hin⟩

theorem inside (hv : Code ctx h own v c) : ∀ i ∈ own, i < h.size := by
  unfold Code at hv
  split at hv
  next => exact hv.2
  next => exact hv.choose_spec.choose_spec.2.inside

/-- A fragment as a visitor's code. -/
theorem ofFragment {e x l : InstrId} (hf : Fragment ctx h own e (.linear x l c))
    (value : Option InstrId) :
    Code ctx h own { entry := some e, exit := some x, value } c :=
  ⟨x, l, rfl, hf⟩

/-- The value a visitor returns is not part of its fragment. -/
theorem value (hv : Code ctx h own v c) (y : Option InstrId) :
    Code ctx h own { v with value := y } c := hv

end Code

/-- What a builder has done since `b`: it has allocated blocks and instructions, and set no link of
an older instruction outside `own`. -/
structure Grown (own : Set InstrId) (b b' : Builder) : Prop where
  scope : b'.scope = b.scope
  scopes : b'.scopes = b.scopes
  blocks : b.numBlocks ≤ b'.numBlocks
  graph : b.graph.Agrees b'.graph ({i | i < b.graph.size} \ own) ∅
  fresh : (∀ i, b.graph.size ≤ i → b.graph.next i = none) →
    ∀ i, b'.graph.size ≤ i → b'.graph.next i = none

namespace Grown

variable {own own' : Set InstrId} {b b' b'' : Builder}

theorem refl (own : Set InstrId) (b : Builder) : Grown own b b where
  scope := rfl
  scopes := rfl
  blocks := le_rfl
  graph := .refl _ _ _
  fresh hf := hf

theorem size_le (hg : Grown own b b') : b.graph.size ≤ b'.graph.size := hg.graph.instrs.length_le

theorem trans (hg : Grown own b b') (hg' : Grown own' b' b'')
    (hown : ∀ i ∈ own', i < b.graph.size → i ∈ own) : Grown own b b'' where
  scope := hg'.scope.trans hg.scope
  scopes := hg'.scopes.trans hg.scopes
  blocks := hg.blocks.trans hg'.blocks
  graph := by
    refine hg.graph.trans (hg'.graph.mono ?_ fun _ _ hm => hm)
    rintro i ⟨hi, hn⟩
    exact ⟨lt_of_lt_of_le hi hg.size_le, fun hm => hn (hown i hm hi)⟩
  fresh hf := hg'.fresh (hg.fresh hf)

theorem mono (hg : Grown own b b') (hown : own ⊆ own') : Grown own' b b' where
  scope := hg.scope
  scopes := hg.scopes
  blocks := hg.blocks
  graph := hg.graph.mono (Set.sdiff_subset_sdiff_right hown) fun _ _ hm => hm
  fresh := hg.fresh

/-- What another visitor builds leaves a fragment alone. -/
theorem agrees (hg : Grown own' b b') (hin : ∀ i ∈ own, i < b.graph.size)
    (hd : Disjoint own own') : b.graph.Agrees b'.graph own ∅ :=
  hg.graph.mono (fun i hi => ⟨hin i hi, Set.disjoint_left.mp hd hi⟩) fun _ _ hm => hm

end Grown

/-- Allocating an instruction. -/
theorem newInstr_run (x : Instr) (b : Builder) :
    newInstr x b = some (b.graph.size,
      { b with graph := { b.graph with instrs := b.graph.instrs ++ [x] } }) := rfl

/-- The builder after an instruction has been allocated. -/
def Builder.alloc (b : Builder) (x : Instr) : Builder :=
  { b with graph := { b.graph with instrs := b.graph.instrs ++ [x] } }

@[simp] theorem Builder.size_alloc (b : Builder) (x : Instr) :
    (b.alloc x).graph.size = b.graph.size + 1 := by
  simp [Builder.alloc, Graph.size]

@[simp] theorem Builder.next_alloc (b : Builder) (x : Instr) :
    (b.alloc x).graph.next = b.graph.next := rfl

theorem Builder.instr?_alloc (b : Builder) (x : Instr) :
    (b.alloc x).graph.instr? b.graph.size = some x := by
  simp [Builder.alloc, Graph.instr?, Graph.size]

theorem grown_alloc (own : Set InstrId) (b : Builder) (x : Instr) : Grown own b (b.alloc x) where
  scope := rfl
  scopes := rfl
  blocks := le_rfl
  graph := ⟨List.prefix_append _ _, fun _ _ _ => rfl⟩
  fresh hf i hi := hf i ((Nat.le_succ _).trans (by simpa using hi))

/-- Linking at an instruction in `own`. -/
theorem grown_link {own : Set InstrId} (b : Builder) {i : InstrId} (j : InstrId) (hi : i ∈ own)
    (hlt : i < b.graph.size) : Grown own b { b with graph := b.graph.link i j } where
  scope := rfl
  scopes := rfl
  blocks := le_rfl
  graph := Graph.agrees_link _ _ fun hm => absurd hi hm.2
  fresh hf k hk := by
    refine (Graph.next_link_of_ne _ _ fun he => ?_).trans (hf k hk)
    rw [he] at hk
    exact absurd hlt (Nat.not_lt.mpr hk)

/-! ### The steps of a visitor -/

/-- `v'` is `v` with the instruction `i` linked behind it, and nothing else of its fragment has
been touched since the graph was `h`. -/
def LinkedTo (v v' : Visitor) (h h' : Graph) (own : Set InstrId) (i : InstrId) : Prop :=
  match v.entry with
  | none => v'.entry = some i
  | some e => v'.entry = some e ∧
      ∃ x, v.exit = some x ∧ h.Agrees h' own {x} ∧ h'.next x = some i

section Steps

variable {ctx : Graph → Prop} {b : Builder} {h h' h'' : Graph} {own own' : Set InstrId}
  {v v' f : Visitor} {c c' : List Item}

/-- What is built later does not undo a link. -/
theorem LinkedTo.mono {i : InstrId} (hl : LinkedTo v v' h h' own i)
    (hx : ∀ x, v.exit = some x → x ∈ own) (ha : h'.Agrees h'' own ∅) :
    LinkedTo v v' h h'' own i := by
  unfold LinkedTo at hl ⊢
  split at hl
  next => exact hl
  next =>
      obtain ⟨he, x, hxe, hag, hn⟩ := hl
      refine ⟨he, x, hxe, ⟨hag.instrs.trans ha.instrs, fun k hk hne => ?_⟩, ?_⟩
      · exact (ha.next k hk (Set.notMem_empty k)).trans (hag.next k hk hne)
      · exact (ha.next x (hx x hxe) (Set.notMem_empty x)).trans hn

/-- **A fragment linked behind a visitor's** extends its code. -/
theorem Code.linked {i x l : InstrId} (hv : Code ctx h own v c) (hl : LinkedTo v v' h h' own i)
    (hf : Fragment ctx h' own' i (.linear x l c')) (hd : Disjoint own own')
    (hexit : v'.exit = some x) (hin : h.size ≤ h'.size) :
    Code ctx h' (own ∪ own') v' (c ++ c') := by
  have hins := hv.inside
  unfold Code at hv
  unfold LinkedTo at hl
  split at hv
  next he =>
      rw [he] at hl
      obtain ⟨rfl, -⟩ := hv
      unfold Code
      rw [show v'.entry = some i from hl]
      refine ⟨x, l, hexit, hf.mono (.refl _ _ _) Set.subset_union_right ?_⟩
      rintro k (hk | hk)
      · exact (hins k hk).trans_le hin
      · exact hf.inside k hk
  next e he =>
      rw [he] at hl
      obtain ⟨y, l', hy, hs⟩ := hv
      obtain ⟨he', z, hz, hag, hn⟩ := hl
      obtain rfl : y = z := Option.some.inj (hy.symm.trans hz)
      have happ := hs.linked hag hn hf hd
      rw [Shape.append_linear] at happ
      unfold Code
      rw [he']
      exact ⟨x, _, hexit, happ⟩

/-- The exit of a visitor belongs to its fragment. -/
theorem Code.exit_mem (hv : Code ctx h own v c) {e x : InstrId} (he : v.entry = some e)
    (hx : v.exit = some x) : x ∈ own := by
  unfold Code at hv
  rw [he] at hv
  obtain ⟨y, l, hy, hs⟩ := hv
  obtain rfl := Option.some.inj (hx.symm.trans hy)
  exact hs.exit_mem

/-- `Add` links an instruction behind the fragment and makes it the exit. -/
theorem Code.add_run (hv : Code ctx b.graph own v c) (i : InstrId) :
    ∃ v' b', add v i b = some (v', b') ∧ Grown own b b' ∧ b'.graph.size = b.graph.size ∧
      b'.numBlocks = b.numBlocks ∧ b'.graph.instrs = b.graph.instrs ∧ v'.exit = some i ∧
      v'.value = v.value ∧ LinkedTo v v' b.graph b'.graph own i := by
  unfold Code at hv
  split at hv
  next he =>
      refine ⟨{ v with entry := some i, exit := some i }, b, ?_, .refl _ _, rfl, rfl, rfl, rfl, rfl,
        ?_⟩
      · simp only [FlowGraphBuilder.add, Visitor.isEmpty, he, Option.isNone_none]
        rfl
      · unfold LinkedTo
        rw [he]
  next e he =>
      obtain ⟨x, l, hx, hs⟩ := hv
      refine ⟨{ v with exit := some i }, { b with graph := b.graph.link x i }, ?_,
        grown_link b i hs.exit_mem (hs.inside _ hs.exit_mem), rfl, rfl, rfl, rfl, rfl, ?_⟩
      · simp only [FlowGraphBuilder.add, Visitor.isEmpty, he, hx, Option.isNone_some]
        rfl
      · unfold LinkedTo
        rw [he]
        exact ⟨rfl, x, hx, Graph.agrees_link _ i fun _ => rfl, Graph.next_link_self _ _ _⟩

/-- `Add` of an instruction that starts a fragment already. -/
theorem Code.add {i l : InstrId} (hv : Code ctx b.graph own v c)
    (hf : Fragment ctx b.graph own' i (.linear i l c')) (hd : Disjoint own own') :
    ∃ v' b', add v i b = some (v', b') ∧ Grown own b b' ∧ b'.graph.size = b.graph.size ∧
      b'.numBlocks = b.numBlocks ∧ v'.exit = some i ∧ v'.value = v.value ∧
      Code ctx b'.graph (own ∪ own') v' (c ++ c') := by
  obtain ⟨v', b', hrun, hg, hsize, hblocks, -, hexit, hval, hl⟩ := hv.add_run i
  have hf' : Fragment ctx b'.graph own' i (.linear i l c') :=
    hf.mono (hg.agrees hf.inside hd.symm) subset_rfl fun k hk => hsize ▸ hf.inside k hk
  exact ⟨v', b', hrun, hg, hsize, hblocks, hexit, hval, hv.linked hl hf' hd hexit hsize.ge⟩

/-- `Append` of another visitor's fragment. -/
theorem Code.append (hv : Code ctx b.graph own v c) (hf : Code ctx b.graph own' f c')
    (hd : Disjoint own own') :
    ∃ v' b', append v f b = some (v', b') ∧ Grown own b b' ∧ b'.graph.size = b.graph.size ∧
      b'.numBlocks = b.numBlocks ∧ v'.value = v.value ∧
      Code ctx b'.graph (own ∪ own') v' (c ++ c') := by
  have hin : ∀ i ∈ own ∪ own', i < b.graph.size := by
    rintro i (hi | hi)
    · exact hv.inside i hi
    · exact hf.inside i hi
  cases hfe : f.entry with
  | none =>
      obtain rfl : c' = [] := by
        unfold Code at hf
        rw [hfe] at hf
        exact hf.1
      refine ⟨v, b, ?_, .refl _ _, rfl, rfl, rfl, ?_⟩
      · simp only [FlowGraphBuilder.append, hfe]
        rfl
      · rw [List.append_nil]
        exact hv.mono (.refl _ _ _) Set.subset_union_left hin
  | some e' =>
      unfold Code at hf
      rw [hfe] at hf
      obtain ⟨x, l, hx, hf⟩ := hf
      cases hve : v.entry with
      | none =>
          obtain rfl : c = [] := by
            unfold Code at hv
            rw [hve] at hv
            exact hv.1
          refine ⟨{ v with entry := some e', exit := f.exit }, b, ?_, .refl _ _, rfl, rfl, rfl, ?_⟩
          · simp only [FlowGraphBuilder.append, hfe, Visitor.isEmpty, hve, Option.isNone_none]
            rfl
          · exact ⟨x, l, hx, hf.mono (.refl _ _ _) Set.subset_union_right hin⟩
      | some e =>
          unfold Code at hv
          rw [hve] at hv
          obtain ⟨y, l', hy, hs⟩ := hv
          have happ := hs.append hf hd
          rw [Shape.append_linear] at happ
          refine ⟨{ v with exit := f.exit }, { b with graph := b.graph.link y e' }, ?_,
            grown_link b e' hs.exit_mem (hs.inside _ hs.exit_mem), rfl, rfl, rfl, ?_⟩
          · simp only [FlowGraphBuilder.append, hfe, Visitor.isEmpty, hve, hy, Option.isNone_some]
            rfl
          · unfold Code
            rw [show ({ v with exit := f.exit } : Visitor).entry = some e from hve]
            exact ⟨x, _, hx, happ⟩

/-- `entry->Append(instr)` at the end of a fragment's chain. -/
theorem appendInstr_run {e i x l : InstrId} (hs : Fragment ctx b.graph own e (.linear x l c)) :
    appendInstr e i b = some ((), { b with graph := b.graph.link l i }) := by
  have hlast : b.graph.last e = some l := hs.last
  rw [FlowGraphBuilder.appendInstr, Partial.get_bind, Graph.append, hlast]
  rfl

end Steps

/-! ### Fragments built since a state -/

/-- The block whose label an item names. -/
def Item.label? : Item → Option BlockId
  | .jump _ b | .bind b => some b
  | _ => none

/-- The labels that items name lie between two block ids. -/
def LabelsIn (lo hi : BlockId) (c : List Item) : Prop :=
  ∀ it ∈ c, ∀ l, it.label? = some l → lo ≤ l ∧ l < hi

namespace LabelsIn

variable {lo hi lo' hi' : BlockId} {c c' : List Item}

theorem nil (lo hi : BlockId) : LabelsIn lo hi [] := fun _ hm => nomatch hm

theorem append (h : LabelsIn lo hi c) (h' : LabelsIn lo hi c') : LabelsIn lo hi (c ++ c') := by
  intro it hm
  rcases List.mem_append.mp hm with hm | hm
  · exact h it hm
  · exact h' it hm

theorem cons {it : Item} (h : ∀ l, it.label? = some l → lo ≤ l ∧ l < hi) (h' : LabelsIn lo hi c) :
    LabelsIn lo hi (it :: c) := by
  intro x hm
  rcases List.mem_cons.mp hm with rfl | hm
  · exact h
  · exact h' x hm

theorem mono (h : LabelsIn lo hi c) (hlo : lo' ≤ lo) (hhi : hi ≤ hi') : LabelsIn lo' hi' c :=
  fun it hm l hl => ⟨hlo.trans (h it hm l hl).1, lt_of_lt_of_le (h it hm l hl).2 hhi⟩

/-- A label outside the range is not bound. -/
theorem not_bind (h : LabelsIn lo hi c) {l : BlockId} (hl : l < lo ∨ hi ≤ l) :
    Item.bind l ∉ c := by
  intro hm
  obtain ⟨hlo, hhi⟩ := h _ hm l rfl
  rcases hl with hl | hl
  · exact absurd hlo (Nat.not_le.mpr hl)
  · exact absurd hhi (Nat.not_lt.mpr hl)

end LabelsIn

/-- Instructions are linked after they are allocated. -/
def Builder.Fresh (b : Builder) : Prop := ∀ i, b.graph.size ≤ i → b.graph.next i = none

/-- Instructions that say what they emit, whatever is built later. -/
def Straight (h : Graph) (x : Instr) (is : List Item) : Prop :=
  ∀ g, h.instrs <+: g.instrs → itemsOf g x = some is

/-- Since `b₀` the visitor `v` has built a fragment in `own` that emits the items `c`. -/
structure Owning (ctx : Graph → Prop) (b₀ : Builder) (own : Set InstrId) (v : Visitor)
    (b : Builder) (c : List Item) : Prop where
  fresh : b.Fresh
  grown : Grown ∅ b₀ b
  owned : ∀ i ∈ own, b₀.graph.size ≤ i
  code : Code ctx b.graph own v c

/-- Since `b₀` the visitor `v` has built a fragment that emits the items `c`. -/
def Built (ctx : Graph → Prop) (b₀ : Builder) (v : Visitor) (b : Builder) (c : List Item) :
    Prop :=
  ∃ own, Owning ctx b₀ own v b c

/-- The fragment of an instruction that has just been allocated. -/
theorem fragment_alloc {ctx : Graph → Prop} {b : Builder} {x : Instr} {is : List Item}
    (hf : b.Fresh) (hx : Straight (b.alloc x).graph x is) :
    Fragment ctx (b.alloc x).graph {b.graph.size} b.graph.size
      (.linear b.graph.size b.graph.size (.visit b.graph.size :: is)) :=
  .instr (b.instr?_alloc x) (fun g hg => hx g hg.instrs) (hf _ le_rfl)

/-- What is owned later than something else is disjoint from it. -/
theorem disjoint_of_le {own own' : Set InstrId} {n : Nat} (h : ∀ i ∈ own, i < n)
    (h' : ∀ i ∈ own', n ≤ i) : Disjoint own own' :=
  Set.disjoint_left.mpr fun i hi hi' => absurd (h i hi) (Nat.not_lt.mpr (h' i hi'))

namespace Owning

variable {ctx : Graph → Prop} {b₀ b b₁ : Builder} {own own' : Set InstrId} {v v' f : Visitor}
  {c c' : List Item}

theorem inside (h : Owning ctx b₀ own v b c) : ∀ i ∈ own, i < b.graph.size := h.code.inside

/-- What is built elsewhere leaves a visitor's fragment alone. -/
theorem mono (h : Owning ctx b₀ own v b c) (hg : Grown own' b b₁) (hd : Disjoint own own')
    (hown : ∀ i ∈ own', b₀.graph.size ≤ i) : Owning ctx b₀ own v b₁ c where
  fresh := hg.fresh h.fresh
  grown := h.grown.trans hg fun i hi hlt => absurd (hown i hi) (Nat.not_le.mpr hlt)
  owned := h.owned
  code := h.code.mono (hg.agrees h.inside hd) subset_rfl fun i hi =>
    (h.inside i hi).trans_le hg.size_le

/-- What is built somewhere new leaves a visitor's fragment alone. -/
theorem later (h : Owning ctx b₀ own v b c) (hg : Grown ∅ b b₁) : Owning ctx b₀ own v b₁ c :=
  h.mono hg (Set.disjoint_empty own) fun _ hi => absurd hi (Set.notMem_empty _)

/-- A stronger condition on the graph. -/
theorem imp {ctx' : Graph → Prop} (h : Owning ctx b₀ own v b c) (hctx : ∀ g, ctx' g → ctx g) :
    Owning ctx' b₀ own v b c where
  fresh := h.fresh
  grown := h.grown
  owned := h.owned
  code := by
    have hcode := h.code
    unfold Code at hcode ⊢
    split at hcode
    next => exact hcode
    next =>
        obtain ⟨x, l, hx, hf⟩ := hcode
        exact ⟨x, l, hx, { hf with emits := fun g hc => hf.emits g (hctx g hc) }⟩

theorem isOpen (h : Owning ctx b₀ own v b c) : v.isOpen = true := by
  have hcode := h.code
  unfold Code at hcode
  split at hcode
  next he => simp [Visitor.isOpen, Visitor.isEmpty, he]
  next e he =>
      obtain ⟨x, l, hx, -⟩ := hcode
      simp [Visitor.isOpen, hx]

/-- **`Append`** of what another visitor has built. -/
theorem append (h : Owning ctx b₀ own v b c) (hf : Built ctx b f b₁ c') :
    ∃ v' b' own', FlowGraphBuilder.append v f b₁ = some (v', b') ∧ v'.value = v.value ∧
      b'.graph.size = b₁.graph.size ∧ b'.numBlocks = b₁.numBlocks ∧ Grown own b b' ∧
      (∀ i ∈ own', i ∈ own ∨ b.graph.size ≤ i) ∧ Owning ctx b₀ own' v' b' (c ++ c') := by
  obtain ⟨own', hf⟩ := hf
  obtain ⟨v', b', hrun, hg, hsize, hblocks, hval, hcode⟩ :=
    (h.later hf.grown).code.append hf.code (disjoint_of_le h.inside hf.owned)
  have hown : ∀ i ∈ own, i < b₀.graph.size → i ∈ (∅ : Set InstrId) := fun i hi hlt =>
    absurd (h.owned i hi) (Nat.not_le.mpr hlt)
  have hgrown : Grown own b b' := (hf.grown.mono (Set.empty_subset _)).trans hg fun _ hi _ => hi
  refine ⟨v', b', own ∪ own', hrun, hval, hsize, hblocks, hgrown, ?_,
    hg.fresh hf.fresh, h.grown.trans hgrown hown, ?_, hcode⟩
  · rintro i (hi | hi)
    · exact .inl hi
    · exact .inr (hf.owned i hi)
  · rintro i (hi | hi)
    · exact h.owned i hi
    · exact h.grown.size_le.trans (hf.owned i hi)

theorem append_of_run {b' : Builder} (h : Owning ctx b₀ own v b c) (hf : Built ctx b f b₁ c')
    (hrun : FlowGraphBuilder.append v f b₁ = some (v', b')) :
    ∃ own', Grown own b b' ∧ (∀ i ∈ own', i ∈ own ∨ b.graph.size ≤ i) ∧
      Owning ctx b₀ own' v' b' (c ++ c') := by
  obtain ⟨v₁, b₂, own', hrun', -, -, -, hg, hown, howning⟩ := h.append hf
  cases hrun.symm.trans hrun'
  exact ⟨own', hg, hown, howning⟩

/-- **`Add`** of an instruction that starts a fragment elsewhere. -/
theorem add {i l : InstrId} (h : Owning ctx b₀ own v b c)
    (hf : Fragment ctx b.graph own' i (.linear i l c')) (hd : Disjoint own own')
    (hown' : ∀ k ∈ own', b₀.graph.size ≤ k) :
    ∃ v' b', FlowGraphBuilder.add v i b = some (v', b') ∧ v'.value = v.value ∧
      v'.exit = some i ∧ b'.graph.size = b.graph.size ∧ b'.numBlocks = b.numBlocks ∧
      Grown own b b' ∧ Owning ctx b₀ (own ∪ own') v' b' (c ++ c') := by
  obtain ⟨v', b', hrun, hg, hsize, hblocks, hexit, hval, hcode⟩ := h.code.add hf hd
  refine ⟨v', b', hrun, hval, hexit, hsize, hblocks, hg, hg.fresh h.fresh,
    h.grown.trans hg fun k hk hlt => absurd (h.owned k hk) (Nat.not_le.mpr hlt), ?_, hcode⟩
  rintro k (hk | hk)
  · exact h.owned k hk
  · exact hown' k hk

/-- **A new instruction** that starts a fragment, behind the fragment: `own'` is what it needs
beside itself. -/
theorem addNewFragment {x : Instr} {l : InstrId} (h : Owning ctx b₀ own v b c)
    (hf : Fragment ctx (b.alloc x).graph ({b.graph.size} ∪ own') b.graph.size
      (.linear b.graph.size l c')) (hd : Disjoint own own')
    (hown' : ∀ k ∈ own', b₀.graph.size ≤ k) :
    ∃ v' b', FlowGraphBuilder.addNew v x b = some (v', b') ∧ v'.value = v.value ∧
      v'.exit = some b.graph.size ∧ b'.graph.instr? b.graph.size = some x ∧
      b'.graph.size = b.graph.size + 1 ∧ b'.numBlocks = b.numBlocks ∧ Grown own b b' ∧
      Owning ctx b₀ (own ∪ ({b.graph.size} ∪ own')) v' b' (c ++ c') := by
  have hg : Grown ∅ b (b.alloc x) := grown_alloc _ _ x
  have hnew : Disjoint own {b.graph.size} := disjoint_of_le h.inside fun k hk => hk.ge
  obtain ⟨v', b', hrun, hval, hexit, hsize, hblocks, hg', howning⟩ :=
    (h.later hg).add hf (Set.disjoint_union_right.mpr ⟨hnew, hd⟩) fun k hk => by
      rcases hk with rfl | hk
      · exact h.grown.size_le
      · exact hown' k hk
  refine ⟨v', b', ?_, hval, hexit, hg'.graph.instr? (b.instr?_alloc x), ?_, hblocks,
    (hg.mono (Set.empty_subset _)).trans hg' fun _ hi _ => hi, howning⟩
  · rw [FlowGraphBuilder.addNew, Partial.bind_run (newInstr_run x b)]
    exact hrun
  · rw [hsize, Builder.size_alloc]

/-- **A new instruction** that is not a branch, behind the fragment. -/
theorem addNew {x : Instr} {l : List Item} (h : Owning ctx b₀ own v b c)
    (hx : Straight (b.alloc x).graph x l) :
    ∃ v' b', FlowGraphBuilder.addNew v x b = some (v', b') ∧ v'.value = v.value ∧
      v'.exit = some b.graph.size ∧ b'.graph.instr? b.graph.size = some x ∧
      b'.graph.size = b.graph.size + 1 ∧ b'.numBlocks = b.numBlocks ∧ Grown own b b' ∧
      Owning ctx b₀ (own ∪ {b.graph.size}) v' b' (c ++ .visit b.graph.size :: l) := by
  have hf : Fragment ctx (b.alloc x).graph ({b.graph.size} ∪ ∅) b.graph.size
      (.linear b.graph.size b.graph.size (.visit b.graph.size :: l)) := by
    rw [Set.union_empty]
    exact fragment_alloc h.fresh hx
  have hadd := h.addNewFragment hf (Set.disjoint_empty own) fun _ hi =>
    absurd hi (Set.notMem_empty _)
  rwa [Set.union_empty] at hadd

end Owning

namespace Built

variable {ctx : Graph → Prop} {b₀ b b₁ : Builder} {v f : Visitor} {c c' : List Item}

theorem start (hf : b.Fresh) : Built ctx b {} b [] :=
  ⟨∅, hf, .refl _ _, fun _ hi => absurd hi (Set.notMem_empty _), .empty _ _⟩

theorem fresh (h : Built ctx b₀ v b c) : b.Fresh := h.choose_spec.fresh

theorem grown (h : Built ctx b₀ v b c) : Grown ∅ b₀ b := h.choose_spec.grown

theorem isOpen (h : Built ctx b₀ v b c) : v.isOpen = true := h.choose_spec.isOpen

theorem value (h : Built ctx b₀ v b c) (y : Option InstrId) :
    Built ctx b₀ { v with value := y } b c := by
  obtain ⟨own, h⟩ := h
  exact ⟨own, h.fresh, h.grown, h.owned, h.code.value y⟩

theorem mono (h : Built ctx b₀ v b c) (hg : Grown ∅ b b₁) : Built ctx b₀ v b₁ c := by
  obtain ⟨own, h⟩ := h
  exact ⟨own, h.later hg⟩

/-- **`Append`** of what another visitor has built. -/
theorem append (h : Built ctx b₀ v b c) (hf : Built ctx b f b₁ c') :
    ∃ v' b', FlowGraphBuilder.append v f b₁ = some (v', b') ∧ v'.value = v.value ∧
      b'.graph.size = b₁.graph.size ∧ b'.numBlocks = b₁.numBlocks ∧
      Built ctx b₀ v' b' (c ++ c') := by
  obtain ⟨own, h⟩ := h
  obtain ⟨v', b', own', hrun, hval, hsize, hblocks, -, -, howning⟩ := h.append hf
  exact ⟨v', b', hrun, hval, hsize, hblocks, own', howning⟩

/-- **`Add`** of an instruction that starts a fragment made since. -/
theorem add {own' : Set InstrId} {i l : InstrId} (h : Built ctx b₀ v b c) (hg : Grown ∅ b b₁)
    (hf : Fragment ctx b₁.graph own' i (.linear i l c')) (hown' : ∀ k ∈ own', b.graph.size ≤ k) :
    ∃ v' b', FlowGraphBuilder.add v i b₁ = some (v', b') ∧ v'.value = v.value ∧
      v'.exit = some i ∧ b'.graph.size = b₁.graph.size ∧
      b'.numBlocks = b₁.numBlocks ∧ Built ctx b₀ v' b' (c ++ c') := by
  obtain ⟨own, h⟩ := h
  obtain ⟨v', b', hrun, hval, hexit, hsize, hblocks, -, howning⟩ := (h.later hg).add hf
    (disjoint_of_le h.inside hown') fun k hk => h.grown.size_le.trans (hown' k hk)
  exact ⟨v', b', hrun, hval, hexit, hsize, hblocks, _, howning⟩

/-- **A new instruction** that is not a branch, behind the fragment. -/
theorem addNew {x : Instr} {l : List Item} (h : Built ctx b₀ v b c)
    (hx : Straight (b.alloc x).graph x l) :
    ∃ v' b', FlowGraphBuilder.addNew v x b = some (v', b') ∧ v'.value = v.value ∧
      v'.exit = some b.graph.size ∧ b'.graph.instr? b.graph.size = some x ∧
      b'.graph.size = b.graph.size + 1 ∧ b'.numBlocks = b.numBlocks ∧
      Built ctx b₀ v' b' (c ++ .visit b.graph.size :: l) := by
  obtain ⟨own, h⟩ := h
  obtain ⟨v', b', hrun, hval, hexit, hinstr, hsize, hblocks, -, howning⟩ := h.addNew hx
  exact ⟨v', b', hrun, hval, hexit, hinstr, hsize, hblocks, _, howning⟩

/-- **`ReturnDefinition`** of a new instruction, on a value visitor. -/
theorem returnNew {x : Instr} {l : List Item} (h : Built ctx b₀ v b c)
    (hx : Straight (b.alloc x).graph x l) :
    ∃ v' b', FlowGraphBuilder.returnNew .value v x b = some (v', b') ∧
      v'.value = some b.graph.size ∧ b'.graph.instr? b.graph.size = some x ∧
      b'.graph.size = b.graph.size + 1 ∧ b'.numBlocks = b.numBlocks ∧
      Built ctx b₀ v' b' (c ++ .visit b.graph.size :: l) := by
  obtain ⟨v', b', hrun, -, -, hinstr, hsize, hblocks, hbuilt⟩ := h.addNew hx
  refine ⟨{ v' with value := some b.graph.size }, b', ?_, rfl, hinstr, hsize, hblocks,
    hbuilt.value _⟩
  rw [FlowGraphBuilder.addNew, Partial.bind_run (newInstr_run x b)] at hrun
  rw [FlowGraphBuilder.returnNew, Partial.bind_run (newInstr_run x b), returnDefinition,
    Partial.bind_run hrun]
  rfl

end Built

/-- The steps from `v` to `v'` extend what `v` has built by the items `c`, whatever that is, and set
no other link of an older instruction. -/
structure Extends (ctx : Graph → Prop) (b₀ : Builder) (v : Visitor) (b : Builder) (v' : Visitor)
    (b' : Builder) (c : List Item) : Prop where
  owning : ∀ {own c₀}, Owning ctx b₀ own v b c₀ → ∃ own', Grown own b b' ∧
    (∀ i ∈ own', i ∈ own ∨ b.graph.size ≤ i) ∧ Owning ctx b₀ own' v' b' (c₀ ++ c)

namespace Extends

variable {ctx : Graph → Prop} {b₀ b b₁ b' b'' : Builder} {v v' v'' f : Visitor} {c c' : List Item}

theorem refl (ctx : Graph → Prop) (b₀ : Builder) (v : Visitor) (b : Builder) :
    Extends ctx b₀ v b v b [] :=
  ⟨fun {own _} h => ⟨own, .refl _ _, fun _ hi => .inl hi, by rwa [List.append_nil]⟩⟩

theorem append (hf : Built ctx b f b₁ c)
    (hrun : FlowGraphBuilder.append v f b₁ = some (v', b')) : Extends ctx b₀ v b v' b' c :=
  ⟨fun h => h.append_of_run hf hrun⟩

theorem trans (h : Extends ctx b₀ v b v' b' c) (h' : Extends ctx b₀ v' b' v'' b'' c') :
    Extends ctx b₀ v b v'' b'' (c ++ c') := by
  refine ⟨fun {own c₀} howning => ?_⟩
  obtain ⟨own₁, hg₁, hown₁, h₁⟩ := h.owning howning
  obtain ⟨own₂, hg₂, hown₂, h₂⟩ := h'.owning h₁
  refine ⟨own₂, hg₁.trans hg₂ fun i hi hlt => (hown₁ i hi).resolve_right (Nat.not_le.mpr hlt),
    fun i hi => ?_, by rwa [← List.append_assoc]⟩
  rcases hown₂ i hi with hi | hi
  · exact hown₁ i hi
  · exact .inr (hg₁.size_le.trans hi)

theorem built {c₀ : List Item} (h : Extends ctx b₀ v b v' b' c) (hb : Built ctx b₀ v b c₀) :
    Built ctx b₀ v' b' (c₀ ++ c) := by
  obtain ⟨own, hb⟩ := hb
  obtain ⟨own', -, -, h'⟩ := h.owning hb
  exact ⟨own', h'⟩

end Extends

section Branches

variable {ctx : Graph → Prop} {b₀ b : Builder} {own own' : Set InstrId} {v : Visitor}
  {c ts fs js : List Item} {condition : Condition} {t f j : InstrId} {bt bf bj : BlockId}

/-- The fragment of a branch that has just been allocated, in a graph that emits its join. -/
theorem fragment_branch (hfresh : b.Fresh) (ht : blockId b.graph t = some bt)
    (hj : blockId b.graph j = some bj) (hts : Block ctx b.graph own t ts)
    (hctx : ∀ g, ctx g → Emits g (some j) js) :
    Fragment ctx (b.alloc (.branch condition t none j)).graph ({b.graph.size} ∪ own)
      b.graph.size (.linear b.graph.size b.graph.size (.visit b.graph.size ::
        .jump (branchOp condition) bj :: .bind bt :: (ts ++ .bind bj :: js))) := by
  have hagree := (grown_alloc ∅ b (.branch condition t none j)).agrees hts.inside
    (Set.disjoint_empty own)
  refine ⟨?_, .inl rfl, .inl rfl, hfresh _ le_rfl, hfresh _ le_rfl, ⟨0, rfl⟩, ?_⟩
  · rintro k (rfl | hk)
    · rw [Builder.size_alloc]
      exact Nat.lt_succ_self _
    · exact (hts.inside k hk).trans_le hagree.instrs.length_le
  · intro g hc hgr k₁ k₂ hk
    obtain ⟨h₁, h₂⟩ := hk
    obtain rfl : k₂ = [] := by simpa [Shape.linear] using h₂
    have htarget : b.graph.Agrees g own ∅ :=
      hagree.trans (hgr.mono Set.subset_union_right fun k hk hm => by
        obtain rfl : k = b.graph.size := by simpa [Shape.holes, Shape.linear] using hm
        exact absurd (hts.inside _ hk) (Nat.lt_irrefl _))
    have hem := Emits.branch (hgr.instr? (b.instr?_alloc _)) (htarget.blockId ht)
      (htarget.blockId hj) (hts.emits g hc htarget) (hctx g hc) h₁
    simpa [Shape.linear] using hem

/-- The fragment of a branch that has just been allocated, in a graph that emits its false target
and its join. -/
theorem fragment_branchElse (hfresh : b.Fresh) (ht : blockId b.graph t = some bt)
    (hf : blockId b.graph f = some bf) (hj : blockId b.graph j = some bj)
    (hts : Block ctx b.graph own t ts)
    (hctx : ∀ g, ctx g → Emits g (some f) fs ∧ Emits g (some j) js) :
    Fragment ctx (b.alloc (.branch condition t (some f) j)).graph ({b.graph.size} ∪ own)
      b.graph.size (.linear b.graph.size b.graph.size (.visit b.graph.size ::
        .jump (branchOp condition) bf :: .bind bt ::
          (ts ++ .bind bf :: (fs ++ .bind bj :: js)))) := by
  have hagree := (grown_alloc ∅ b (.branch condition t (some f) j)).agrees hts.inside
    (Set.disjoint_empty own)
  refine ⟨?_, .inl rfl, .inl rfl, hfresh _ le_rfl, hfresh _ le_rfl, ⟨0, rfl⟩, ?_⟩
  · rintro k (rfl | hk)
    · rw [Builder.size_alloc]
      exact Nat.lt_succ_self _
    · exact (hts.inside k hk).trans_le hagree.instrs.length_le
  · intro g hc hgr k₁ k₂ hk
    obtain ⟨h₁, h₂⟩ := hk
    obtain rfl : k₂ = [] := by simpa [Shape.linear] using h₂
    obtain ⟨hfs, hjs⟩ := hctx g hc
    have htarget : b.graph.Agrees g own ∅ :=
      hagree.trans (hgr.mono Set.subset_union_right fun k hk hm => by
        obtain rfl : k = b.graph.size := by simpa [Shape.holes, Shape.linear] using hm
        exact absurd (hts.inside _ hk) (Nat.lt_irrefl _))
    have hem := Emits.branchElse (hgr.instr? (b.instr?_alloc _)) (htarget.blockId ht)
      (htarget.blockId hf) (htarget.blockId hj) (hts.emits g hc htarget) hfs hjs h₁
    simpa [Shape.linear] using hem

end Branches

/-! ### Blocks under construction -/

/-- The builder after a block has been allocated. -/
def Builder.allocBlock (b : Builder) (x : BlockId → Instr) : Builder :=
  { b with numBlocks := b.numBlocks + 1 }.alloc (x b.numBlocks)

theorem newTarget_run (b : Builder) :
    newTarget b = some (b.graph.size, b.allocBlock .targetEntry) := rfl

theorem newJoin_run (b : Builder) : newJoin b = some (b.graph.size, b.allocBlock .joinEntry) := rfl

section AllocBlock

variable (b : Builder) (x : BlockId → Instr)

@[simp] theorem Builder.size_allocBlock : (b.allocBlock x).graph.size = b.graph.size + 1 := by
  simp [allocBlock, alloc, Graph.size]

@[simp] theorem Builder.numBlocks_allocBlock : (b.allocBlock x).numBlocks = b.numBlocks + 1 := rfl

theorem Builder.instr?_allocBlock :
    (b.allocBlock x).graph.instr? b.graph.size = some (x b.numBlocks) :=
  Builder.instr?_alloc { b with numBlocks := b.numBlocks + 1 } (x b.numBlocks)

theorem grown_allocBlock (own : Set InstrId) : Grown own b (b.allocBlock x) where
  scope := rfl
  scopes := rfl
  blocks := Nat.le_succ _
  graph := ⟨List.prefix_append _ _, fun _ _ _ => rfl⟩
  fresh hf i hi := hf i (Nat.le_of_succ_le (by simpa using hi))

end AllocBlock

/-- Since `b₀` the chain of the block at `e` has been built, and it emits the items `c`. -/
structure Chaining (ctx : Graph → Prop) (b₀ : Builder) (own : Set InstrId) (e : InstrId)
    (b : Builder) (c : List Item) : Prop where
  fresh : b.Fresh
  size_le : b₀.graph.size ≤ b.graph.size
  owned : ∀ i ∈ own, b₀.graph.size ≤ i
  chain : ∃ l, Fragment ctx b.graph own e (.linear l l c)

namespace Chaining

variable {ctx : Graph → Prop} {b₀ b b₁ : Builder} {own own' : Set InstrId} {e : InstrId}
  {f : Visitor} {c c' : List Item}

/-- An entry alone. -/
theorem start {x : BlockId → Instr} (hf : b.Fresh)
    (hx : ∀ g, itemsOf g (x b.numBlocks) = some []) :
    Chaining ctx b {b.graph.size} b.graph.size (b.allocBlock x) [.visit b.graph.size] where
  fresh := (grown_allocBlock b x ∅).fresh hf
  size_le := (grown_allocBlock b x ∅).size_le
  owned i hi := by
    obtain rfl := hi
    exact le_rfl
  chain := ⟨_, .instr (b.instr?_allocBlock x) (fun g _ => hx g) (hf _ le_rfl)⟩

theorem mono (h : Chaining ctx b₀ own e b c) (hg : Grown own' b b₁) (hd : Disjoint own own') :
    Chaining ctx b₀ own e b₁ c where
  fresh := hg.fresh h.fresh
  size_le := h.size_le.trans hg.size_le
  owned := h.owned
  chain := by
    obtain ⟨l, hf⟩ := h.chain
    exact ⟨l, hf.mono (hg.agrees hf.inside hd) subset_rfl
      fun i hi => (hf.inside i hi).trans_le hg.size_le⟩

theorem inside (h : Chaining ctx b₀ own e b c) : ∀ i ∈ own, i < b.graph.size := by
  obtain ⟨l, hf⟩ := h.chain
  exact hf.inside

theorem block (h : Chaining ctx b₀ own e b c) : Block ctx b.graph own e c := by
  obtain ⟨l, hf⟩ := h.chain
  exact .ofFragment hf

/-- Linking at the end of a chain. -/
theorem link {i x l : InstrId} (h : Chaining ctx b₀ own e b c) (hg : Grown ∅ b b₁)
    (hf : Fragment ctx b₁.graph own' i (.linear x l c')) (hown' : ∀ k ∈ own', b.graph.size ≤ k) :
    ∃ b', appendInstr e i b₁ = some ((), b') ∧ Grown own b b' ∧ b₁.graph.instrs <+: b'.graph.instrs
      ∧ b'.graph.size = b₁.graph.size ∧ b'.numBlocks = b₁.numBlocks ∧
      Chaining ctx b₀ (own ∪ own') e b' (c ++ c') := by
  have h₁ := h.mono hg (Set.disjoint_empty own)
  obtain ⟨l', hs⟩ := h₁.chain
  have hlink : Grown own b₁ { b₁ with graph := b₁.graph.link l' i } :=
    grown_link b₁ i hs.tail_mem (hs.inside _ hs.tail_mem)
  refine ⟨_, appendInstr_run hs, ?_, List.prefix_refl _, rfl, rfl, hlink.fresh h₁.fresh,
    h₁.size_le, ?_, l, ?_⟩
  · exact (hg.mono (Set.empty_subset _)).trans hlink fun _ hm _ => hm
  · rintro k (hk | hk)
    · exact h.owned k hk
    · exact h.size_le.trans (hown' k hk)
  · exact hs.behind hf (disjoint_of_le h.inside hown')

/-- **`AppendFragment`** of what a visitor has built. -/
theorem appendFragment (h : Chaining ctx b₀ own e b c) (hf : Built ctx b f b₁ c') :
    ∃ b' own', FlowGraphBuilder.appendFragment e f b₁ = some ((), b') ∧ Grown own b b' ∧
      b'.graph.size = b₁.graph.size ∧ b'.numBlocks = b₁.numBlocks ∧
      (∀ i ∈ own', i ∈ own ∨ b.graph.size ≤ i) ∧ Chaining ctx b₀ own' e b' (c ++ c') := by
  obtain ⟨own₁, hf⟩ := hf
  have hown₁ := hf.owned
  have hcode := hf.code
  cases hfe : f.entry with
  | none =>
      unfold Code at hcode
      rw [hfe] at hcode
      obtain ⟨rfl, -⟩ := hcode
      refine ⟨b₁, own, ?_, hf.grown.mono (Set.empty_subset _), rfl, rfl, fun _ hi => .inl hi, ?_⟩
      · simp only [FlowGraphBuilder.appendFragment, hfe]
        rfl
      · rw [List.append_nil]
        exact h.mono hf.grown (Set.disjoint_empty own)
  | some e' =>
      unfold Code at hcode
      rw [hfe] at hcode
      obtain ⟨x, l, -, hfrag⟩ := hcode
      obtain ⟨b', hrun, hg, -, hsize, hblocks, hchain⟩ := h.link hf.grown hfrag hown₁
      refine ⟨b', own ∪ own₁, ?_, hg, hsize, hblocks, ?_, hchain⟩
      · simp only [FlowGraphBuilder.appendFragment, hfe]
        exact hrun
      · rintro i (hi | hi)
        · exact .inl hi
        · exact .inr (hown₁ i hi)

/-- **A new instruction** at the end of a chain. -/
theorem appendNew {x : Instr} {l : List Item} (h : Chaining ctx b₀ own e b c)
    (hx : Straight (b.alloc x).graph x l) :
    ∃ b', (do appendInstr e (← newInstr x) : Build Unit) b = some ((), b') ∧ Grown own b b' ∧
      b'.graph.size = b.graph.size + 1 ∧ b'.numBlocks = b.numBlocks ∧
      Chaining ctx b₀ (own ∪ {b.graph.size}) e b' (c ++ .visit b.graph.size :: l) := by
  obtain ⟨b', hrun, hg, -, hsize, hblocks, hchain⟩ :=
    h.link (grown_alloc _ _ x) (fragment_alloc h.fresh hx) fun k hk => by
      obtain rfl := hk
      exact le_rfl
  refine ⟨b', ?_, hg, ?_, hblocks, hchain⟩
  · rw [Partial.bind_run (newInstr_run x b)]
    exact hrun
  · rw [hsize, Builder.size_alloc]

end Chaining

/-! ### A whole graph -/

/-- The builder in which a visitor starts: the entries of the graph and of its first block. -/
def Builder.entered (b : Builder) : Builder := (b.allocBlock .graphEntry).allocBlock .targetEntry

theorem Builder.fresh_entered {b : Builder} (hf : b.Fresh) : b.entered.Fresh :=
  (grown_allocBlock _ .targetEntry ∅).fresh ((grown_allocBlock b .graphEntry ∅).fresh hf)

/-- **`Build`** around a visitor: the entries, and behind them what the visitor has built. -/
theorem build_block {ctx : Graph → Prop} {visitor : Visitor → Build Visitor} {b b' : Builder}
    {v : Visitor} {c : List Item} (hf : b.Fresh) (hrun : visitor {} b.entered = some (v, b'))
    (hbuilt : Built ctx b.entered v b' c) :
    ∃ b'' own, build visitor b = some (b.graph.size, b'') ∧ Block ctx b''.graph own b.graph.size
      (.visit b.graph.size :: .visit (b.graph.size + 1) :: c) := by
  have hf₁ := (grown_allocBlock b .graphEntry ∅).fresh hf
  have hentry : Chaining ctx b {b.graph.size} b.graph.size (b.allocBlock .graphEntry)
      [.visit b.graph.size] := .start hf fun _ => rfl
  have htarget : Chaining ctx (b.allocBlock .graphEntry)
      {(b.allocBlock .graphEntry).graph.size} (b.allocBlock .graphEntry).graph.size
      b.entered [.visit (b.allocBlock .graphEntry).graph.size] := .start hf₁ fun _ => rfl
  obtain ⟨b₁, own, hrun₁, hg₁, -, -, hown, hchain⟩ := htarget.appendFragment hbuilt
  obtain ⟨l, hfrag⟩ := hchain.chain
  have hgrown : Grown ∅ (b.allocBlock .graphEntry) b₁ :=
    (grown_allocBlock _ .targetEntry ∅).trans hg₁ fun i hi hlt => absurd hi (by
      rintro rfl
      exact lt_irrefl _ hlt)
  obtain ⟨b₂, hrun₂, -, -, -, -, hall⟩ := hentry.link hgrown hfrag hchain.owned
  refine ⟨b₂, {b.graph.size} ∪ own, ?_, ?_⟩
  · have hentered : build visitor b = (do
        appendFragment (b.allocBlock .graphEntry).graph.size (← visitor {})
        appendInstr b.graph.size (b.allocBlock .graphEntry).graph.size
        return b.graph.size : Build InstrId) b.entered := rfl
    rw [hentered, Partial.bind_run hrun, Partial.bind_run hrun₁, Partial.bind_run hrun₂]
    rfl
  · simpa using hall.block

end Gel
