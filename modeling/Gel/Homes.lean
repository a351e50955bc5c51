import Gel.Building
import Gel.Support.Worlds

/-!
# Homes — the block an instruction is in

A goto of a finished block names the join of the branch that compiles the block.  An instruction is
given a home for this: the join that gotos of its block must name.  Links stay in a home, and a
branch has its targets in a block of its own.

* `Homes.Valid`: what is known of a graph whose instructions have homes, outside an older graph.
* `home_add` … `home_callee`: the steps of a visitor keep it.
* `home_visit`: visiting an expression keeps it, when the expression compiles no `while` and no
  `let`; with `Home.any`, visiting anything does.
-/

namespace Gel

open FlowGraphBuilder FlowGraphCompiler

/-- Where an instruction is compiled: anywhere, or in a block whose gotos name a join, or in the
first block, which has none. -/
inductive Home where
  | any
  | block (join : Option InstrId)
  deriving DecidableEq, Repr

/-- The home of the blocks of a branch with the given join. -/
def Home.inner (h : Home) (join : InstrId) : Home :=
  match h with
  | any => any
  | block _ => block (some join)

/-- A graph and the homes of its instructions. -/
structure Homes where
  graph : Graph
  home : InstrId → Option Home

namespace Homes

variable {base : Graph} {w w' w'' : Homes} {h : Home} {i k t : InstrId} {x : Instr}

/-- An instruction may stand in a home. -/
def Fits (w : Homes) (h : Home) : Instr → Prop
  | .goto t => h = .any ∨ h = .block (some t)
  | .branch _ t f j =>
      w.home j = some h ∧ w.home t = some (h.inner j) ∧ ∀ a ∈ f, w.home a = some (h.inner j)
  | _ => True

/-- The homes of `w` are those of instructions that `base` does not have; what `base` has is as it
was, a link stays in its home, and every instruction may stand in its own. -/
structure Valid (base : Graph) (w : Homes) : Prop where
  instrs : base.instrs <+: w.graph.instrs
  outside : ∀ i, i < base.size → w.graph.next i = base.next i
  fresh : ∀ i, w.graph.size ≤ i → w.graph.next i = none
  inside : ∀ {i h}, w.home i = some h → base.size ≤ i ∧ i < w.graph.size
  next : ∀ {i k h}, w.home i = some h → w.graph.next i = some k → w.home k = some h
  fits : ∀ {i h x}, w.home i = some h → w.graph.instr? i = some x → w.Fits h x

/-- Instructions are added and keep their homes. -/
structure Le (w w' : Homes) : Prop where
  instrs : w.graph.instrs <+: w'.graph.instrs
  home : ∀ {i h}, w.home i = some h → w'.home i = some h

theorem Le.refl (w : Homes) : w.Le w := ⟨List.prefix_refl _, id⟩

theorem Le.trans (h : w.Le w') (h' : w'.Le w'') : w.Le w'' :=
  ⟨h.instrs.trans h'.instrs, fun hi => h'.home (h.home hi)⟩

theorem Le.instr? (hle : w.Le w') (hi : w.graph.instr? i = some x) :
    w'.graph.instr? i = some x := by
  have hagrees : w.graph.Agrees w'.graph ∅ ∅ := ⟨hle.instrs, fun _ hm => hm.elim⟩
  exact hagrees.instr? hi

theorem Fits.mono (hx : w.Fits h x) (hle : w.Le w') : w'.Fits h x := by
  cases x with
  | branch condition t f j =>
      obtain ⟨hj, ht, hf⟩ := hx
      exact ⟨hle.home hj, hle.home ht, fun a ha => hle.home (hf a ha)⟩
  | _ => exact hx

/-- The graph of a builder and the homes of its instructions. -/
def worlds (base : Graph) : Worlds Builder Homes where
  le := Le
  holds w b := b.graph = w.graph ∧ w.Valid base
  refl := Le.refl
  trans := Le.trans

theorem Valid.size_le (hw : w.Valid base) : base.size ≤ w.graph.size := hw.instrs.length_le

/-- An instruction that has just been allocated, in a home. -/
def alloc (w : Homes) (x : Instr) (h : Home) : Homes where
  graph := { w.graph with instrs := w.graph.instrs ++ [x] }
  home := Function.update w.home w.graph.size (some h)

theorem home_alloc : (w.alloc x h).home w.graph.size = some h := Function.update_self _ _ _

theorem home_alloc_of_ne (hi : i ≠ w.graph.size) : (w.alloc x h).home i = w.home i :=
  Function.update_of_ne hi _ _

theorem Valid.home_size (hw : w.Valid base) : w.home w.graph.size = none :=
  Option.eq_none_iff_forall_ne_some.mpr fun _ hh => absurd (hw.inside hh).2 (Nat.lt_irrefl _)

theorem Valid.le_alloc (hw : w.Valid base) : w.Le (w.alloc x h) where
  instrs := List.prefix_append _ _
  home {i h'} hi := by
    have hne : i ≠ w.graph.size := (hw.inside hi).2.ne
    rwa [home_alloc_of_ne hne]

theorem instr?_alloc : (w.alloc x h).graph.instr? w.graph.size = some x := by
  simp [alloc, Graph.instr?, Graph.size]

@[simp] theorem size_alloc : (w.alloc x h).graph.size = w.graph.size + 1 := by
  simp [alloc, Graph.size]

/-- **A new instruction.** -/
theorem Valid.alloc (hw : w.Valid base) (hx : w.Fits h x) : (w.alloc x h).Valid base where
  instrs := hw.instrs.trans (List.prefix_append _ _)
  outside := hw.outside
  fresh i hi := hw.fresh i ((Nat.le_succ _).trans (by simpa using hi))
  inside {i h'} hi := by
    rw [size_alloc]
    by_cases he : i = w.graph.size
    · exact ⟨he ▸ hw.size_le, he ▸ Nat.lt_succ_self _⟩
    · rw [home_alloc_of_ne he] at hi
      exact ⟨(hw.inside hi).1, (hw.inside hi).2.trans (Nat.lt_succ_self _)⟩
  next {i k h'} hi hk := by
    by_cases he : i = w.graph.size
    · subst he
      cases (hw.fresh _ le_rfl).symm.trans hk
    · rw [home_alloc_of_ne he] at hi
      exact hw.le_alloc.home (hw.next hi hk)
  fits {i h' y} hi hy := by
    by_cases he : i = w.graph.size
    · subst he
      cases home_alloc.symm.trans hi
      cases instr?_alloc.symm.trans hy
      exact hx.mono hw.le_alloc
    · rw [home_alloc_of_ne he] at hi
      have hlt := (hw.inside hi).2
      have hy' : w.graph.instr? i = some y := by
        rw [← hy, Graph.instr?, Graph.instr?, Homes.alloc, List.getElem?_append_left hlt]
      exact (hw.fits hi hy').mono hw.le_alloc

/-- **A link** inside a home. -/
theorem Valid.link (hw : w.Valid base) (hi : w.home i = some h) (hk : w.home k = some h) :
    Valid base { w with graph := w.graph.link i k } where
  instrs := hw.instrs
  outside a ha := by
    have hne : a ≠ i := (ha.trans_le (hw.inside hi).1).ne
    exact (Graph.next_link_of_ne _ _ hne).trans (hw.outside a ha)
  fresh a ha := by
    have hne : a ≠ i := ((hw.inside hi).2.trans_le ha).ne'
    exact (Graph.next_link_of_ne _ _ hne).trans (hw.fresh a ha)
  inside := hw.inside
  next {a c h'} ha hc := by
    by_cases he : a = i
    · subst he
      cases hi.symm.trans ha
      rw [Graph.next_link_self] at hc
      cases hc
      exact hk
    · exact hw.next ha ((Graph.next_link_of_ne _ _ he).symm.trans hc)
  fits := hw.fits

theorem le_link : w.Le { w with graph := w.graph.link i k } := ⟨List.prefix_refl _, id⟩

/-- The end of a chain is in its home. -/
theorem Valid.last (hw : w.Valid base) (ht : w.home t = some h) (hl : w.graph.last t = some k) :
    w.home k = some h := by
  have hwithin : ∀ n t, w.home t = some h → w.graph.lastWithin n t = some k →
      w.home k = some h := by
    intro n
    induction n with
    | zero => exact fun t _ hl => nomatch hl
    | succ n ih =>
        intro t ht hl
        rw [Graph.lastWithin] at hl
        split at hl
        · cases hl
          exact ht
        · rename_i j hj
          exact ih j (hw.next ht hj) hl
  exact hwithin _ t ht hl

end Homes

/-- The instruction is neither a goto nor a branch. -/
def Instr.isPlain : Instr → Bool
  | .goto _ | .branch .. => false
  | _ => true

theorem Homes.fits_of_isPlain {w : Homes} {h : Home} {x : Instr} (hx : x.isPlain) : w.Fits h x := by
  cases x with
  | goto | branch => cases hx
  | _ => trivial

/-- An instruction in a home that is neither a goto nor a branch. -/
def Homes.HasValue (w : Homes) (h : Home) (i : InstrId) : Prop :=
  w.home i = some h ∧ ∃ x, w.graph.instr? i = some x ∧ x.isPlain

/-- A visitor whose fragment is in a home. -/
structure Visitor.In (w : Homes) (h : Home) (v : Visitor) : Prop where
  entry : ∀ i ∈ v.entry, w.home i = some h
  exit : ∀ i ∈ v.exit, w.home i = some h
  value : ∀ i ∈ v.value, w.HasValue h i

section Steps

variable {base : Graph} {w w' : Homes} {h : Home} {i t : InstrId} {x : Instr} {v f : Visitor}

theorem Homes.HasValue.mono (hi : w.HasValue h i) (hle : w.Le w') : w'.HasValue h i := by
  obtain ⟨hhome, x, hx, hplain⟩ := hi
  exact ⟨hle.home hhome, x, hle.instr? hx, hplain⟩

theorem Visitor.In.mono (hv : v.In w h) (hle : w.Le w') : v.In w' h where
  entry i hi := hle.home (hv.entry i hi)
  exit i hi := hle.home (hv.exit i hi)
  value i hi := (hv.value i hi).mono hle

theorem Visitor.In.empty (w : Homes) (h : Home) : Visitor.In w h {} := ⟨nofun, nofun, nofun⟩

/-- A fragment whose last part ends elsewhere in its home. -/
theorem Visitor.In.withExit (hv : v.In w h) {j : Option InstrId} (hj : ∀ i ∈ j, w.home i = some h) :
    Visitor.In w h { v with exit := j } := ⟨hv.entry, hj, hv.value⟩

/-- Nothing of the graph is changed. -/
theorem home_quiet {α : Type} {y : Build α}
    (hy : ∀ ⦃b a b'⦄, y b = some (a, b') → b'.graph = b.graph) :
    (Homes.worlds base).From w y fun _ w' => w' = w := by
  refine .quiet fun b a b' hrun hb => ?_
  exact ⟨(hy hrun).trans hb.1, hb.2⟩

theorem home_allocated (hx : w.Fits h x) :
    (Homes.worlds base).From w (newInstr x) fun i w' => i = w.graph.size ∧ w' = w.alloc x h := by
  rintro b a b' ⟨hb, hw⟩ hrun
  cases hrun
  refine ⟨w.alloc x h, hw.le_alloc, ⟨?_, hw.alloc hx⟩, ?_, rfl⟩
  · rw [Homes.alloc, ← hb]
  · rw [hb]
    rfl

theorem home_newInstr (hx : w.Fits h x) :
    (Homes.worlds base).From w (newInstr x) fun i w' =>
      w'.home i = some h ∧ w'.graph.instr? i = some x := by
  refine (home_allocated hx).weaken ?_
  rintro i w' - ⟨rfl, rfl⟩
  exact ⟨Homes.home_alloc, Homes.instr?_alloc⟩

theorem home_newPlain (h : Home) (hx : x.isPlain) :
    (Homes.worlds base).From w (newInstr x) fun i w' => w'.HasValue h i :=
  (home_newInstr (Homes.fits_of_isPlain hx)).weaken fun _ _ _ hi => ⟨hi.1, x, hi.2, hx⟩

theorem home_getNextBlockId : (Homes.worlds base).From w getNextBlockId fun _ w' => w' = w := by
  refine home_quiet fun b a b' hrun => ?_
  cases hrun
  rfl

/-- A new entry, and where it is. -/
theorem home_newEntry (h : Home) {entry : BlockId → Instr} (hentry : ∀ n, (entry n).isPlain) :
    (Homes.worlds base).From w (do newInstr (entry (← getNextBlockId))) fun i w' =>
      w'.home i = some h ∧ i = w.graph.size ∧ w'.graph.size = i + 1 := by
  refine home_getNextBlockId.bind ?_
  rintro n _ - rfl
  refine (home_allocated (h := h) (Homes.fits_of_isPlain (hentry n))).weaken ?_
  rintro i w' - ⟨rfl, rfl⟩
  exact ⟨Homes.home_alloc, rfl, Homes.size_alloc⟩

theorem home_newTarget (h : Home) :
    (Homes.worlds base).From w newTarget fun i w' => w'.home i = some h :=
  (home_newEntry h fun _ => rfl).weaken fun _ _ _ hi => hi.1

theorem home_newJoin (h : Home) :
    (Homes.worlds base).From w newJoin fun i w' => w'.home i = some h :=
  (home_newEntry h fun _ => rfl).weaken fun _ _ _ hi => hi.1

theorem home_link (hi : w.home i = some h) (ht : w.home t = some h) :
    (Homes.worlds base).From w
      (modify fun b => { b with graph := b.graph.link i t } : Build Unit) fun _ _ => True := by
  rintro b a b' ⟨hb, hw⟩ hrun
  cases hrun
  refine ⟨_, Homes.le_link, ⟨?_, hw.link hi ht⟩, trivial⟩
  rw [← hb]

theorem home_add (hv : v.In w h) (hi : w.home i = some h) :
    (Homes.worlds base).From w (add v i) fun v' w' => v'.In w' h := by
  rw [FlowGraphBuilder.add]
  split
  · refine .pure ⟨?_, ?_, hv.value⟩
    · rintro _ ⟨⟩
      exact hi
    · rintro _ ⟨⟩
      exact hi
  · split
    · exact .failure
    · rename_i x hx
      refine (home_link (hv.exit x hx) hi).bind fun _ w' hle _ => .pure ?_
      refine (hv.mono hle).withExit ?_
      rintro _ ⟨⟩
      exact hle.home hi

theorem home_addNew (hv : v.In w h) (hx : w.Fits h x) :
    (Homes.worlds base).From w (addNew v x) fun v' w' => v'.In w' h :=
  (home_newInstr hx).bind fun _ _ hle hi => home_add (hv.mono hle) hi.1

theorem home_append (hv : v.In w h) (hf : f.In w h) :
    (Homes.worlds base).From w (append v f) fun v' w' => v'.In w' h := by
  rw [FlowGraphBuilder.append]
  split
  · exact .pure hv
  · rename_i e he
    split
    · exact .pure ⟨fun i hi => hf.entry i (he.trans hi), hf.exit, hv.value⟩
    · split
      · exact .failure
      · rename_i x hx
        refine (home_link (hv.exit x hx) (hf.entry e he)).bind fun _ w' hle _ => .pure ?_
        exact (hv.mono hle).withExit (hf.mono hle).exit

theorem home_appendInstr (ht : w.home t = some h) (hi : w.home i = some h) :
    (Homes.worlds base).From w (appendInstr t i) fun _ _ => True := by
  refine .get ?_
  rintro b ⟨hb, hw⟩
  split
  · rename_i g hg
    rw [hb] at hg
    obtain ⟨l, hl, rfl⟩ := Option.map_eq_some_iff.mp hg
    rintro b₁ a b' ⟨hb₁, -⟩ hrun
    cases hrun
    exact ⟨_, Homes.le_link, ⟨rfl, hw.link (hw.last ht hl) hi⟩, trivial⟩
  · exact .failure

theorem home_appendFragment (ht : w.home t = some h) (hf : f.In w h) :
    (Homes.worlds base).From w (appendFragment t f) fun _ _ => True := by
  rw [FlowGraphBuilder.appendFragment]
  split
  · exact .pure trivial
  · rename_i e he
    exact home_appendInstr ht (hf.entry e he)

theorem home_returnDefinition (m : Mode) (hv : v.In w h) (hi : w.HasValue h i) :
    (Homes.worlds base).From w (returnDefinition m v i) fun v' w' => v'.In w' h := by
  cases m with
  | effect =>
      refine .get fun b _ => ?_
      split
      · exact .pure hv
      · exact home_add hv hi.1
  | value =>
      refine (home_add hv hi.1).bind fun v' w' hle hv' => .pure ⟨hv'.entry, hv'.exit, ?_⟩
      rintro _ ⟨⟩
      exact hi.mono hle

theorem home_returnNew (m : Mode) (hv : v.In w h) (hx : x.isPlain) :
    (Homes.worlds base).From w (returnNew m v x) fun v' w' => v'.In w' h :=
  (home_newPlain h hx).bind fun _ _ hle hi => home_returnDefinition m (hv.mono hle) hi

theorem home_addPlain (hv : v.In w h) (hx : x.isPlain) :
    (Homes.worlds base).From w (addNew v x) fun v' w' => v'.In w' h :=
  home_addNew hv (Homes.fits_of_isPlain hx)

theorem home_addInstanceOf (cfg : Config) (hv : v.In w h) (c : ClassId) :
    (Homes.worlds base).From w (addInstanceOf cfg v c) fun v' w' => v'.In w' h := by
  rw [addInstanceOf]
  split
  · exact home_addPlain hv rfl
  · exact .pure hv

theorem home_addImplicitReturn (hv : v.In w h) :
    (Homes.worlds base).From w (addImplicitReturn v) fun v' w' => v'.In w' h := by
  rw [addImplicitReturn]
  split
  · exact .pure hv
  · refine .get fun b _ => ?_
    split
    · exact .pure hv
    · exact home_addPlain hv rfl

/-! ### What is built aside -/

/-- An instruction without a home. -/
structure Homes.Loose (base : Graph) (w : Homes) (i : InstrId) : Prop where
  above : base.size ≤ i
  inside : i < w.graph.size
  home : w.home i = none
  plain : ∃ x, w.graph.instr? i = some x ∧ x.isPlain

/-- **What is built aside** has no home; only values are used of it. -/
theorem home_aside {α : Type} {y : Build α} (value : α → Option InstrId)
    (hy : (Homes.worlds w.graph).From ⟨w.graph, fun _ => none⟩ y
      fun a u => ∀ d ∈ value a, u.HasValue .any d) :
    (Homes.worlds base).From w y fun a w' => ∀ d ∈ value a, w'.Loose base d := by
  rintro b a b' ⟨hb, hw⟩ hrun
  have hempty : Homes.Valid w.graph ⟨w.graph, fun _ => none⟩ :=
    ⟨List.prefix_refl _, fun _ _ => rfl, hw.fresh, nofun, nofun, nofun⟩
  obtain ⟨u, -, ⟨hb', hu⟩, hvalue⟩ := hy ⟨hb, hempty⟩ hrun
  have hle : w.Le ⟨u.graph, w.home⟩ := ⟨hu.instrs, id⟩
  refine ⟨⟨u.graph, w.home⟩, hle, ⟨hb', ?_⟩, fun d hd => ?_⟩
  · refine ⟨hw.instrs.trans hu.instrs, fun i hi => ?_, hu.fresh, fun hi => ?_, fun hi hk => ?_,
      fun hi hx => ?_⟩
    · exact (hu.outside i (hi.trans_le hw.size_le)).trans (hw.outside i hi)
    · exact ⟨(hw.inside hi).1, (hw.inside hi).2.trans_le hu.size_le⟩
    · exact hw.next hi ((hu.outside _ (hw.inside hi).2).symm.trans hk)
    · obtain ⟨y, hy⟩ : ∃ y, w.graph.instr? _ = some y :=
        ⟨_, List.getElem?_eq_getElem (hw.inside hi).2⟩
      cases (hle.instr? hy).symm.trans hx
      exact (hw.fits hi hy).mono hle
  · obtain ⟨hhome, x, hx, hplain⟩ := hvalue d hd
    obtain ⟨hlo, hhi⟩ := hu.inside hhome
    refine ⟨hw.size_le.trans hlo, hhi, ?_, x, hx, hplain⟩
    exact Option.eq_none_iff_forall_ne_some.mpr fun _ hh =>
      absurd (hw.inside hh).2 (Nat.not_lt.mpr hlo)

/-- A link at an instruction without a home. -/
theorem Homes.Valid.linkLoose (hw : w.Valid base) (hi : w.Loose base i) :
    Homes.Valid base { w with graph := w.graph.link i t } where
  instrs := hw.instrs
  outside a ha := (Graph.next_link_of_ne _ _ (ha.trans_le hi.above).ne).trans (hw.outside a ha)
  fresh a ha := (Graph.next_link_of_ne _ _ (hi.inside.trans_le ha).ne').trans (hw.fresh a ha)
  inside := hw.inside
  next {a c h'} ha hc := by
    have hne : a ≠ i := by
      rintro rfl
      cases hi.home.symm.trans ha
    exact hw.next ha ((Graph.next_link_of_ne _ _ hne).symm.trans hc)
  fits := hw.fits

/-- An instruction without a home gets the home of the one it is linked to. -/
theorem Homes.Valid.settle (hw : w.Valid base) (hi : w.Loose base i) (ht : w.home t = some h)
    (hnext : w.graph.next i = some t) :
    Homes.Valid base { w with home := Function.update w.home i (some h) } ∧
      w.Le { w with home := Function.update w.home i (some h) } := by
  have hle : w.Le { w with home := Function.update w.home i (some h) } := by
    refine ⟨List.prefix_refl _, fun {a h'} ha => ?_⟩
    have hne : a ≠ i := by
      rintro rfl
      cases hi.home.symm.trans ha
    exact (Function.update_of_ne hne _ _).trans ha
  refine ⟨⟨hw.instrs, hw.outside, hw.fresh, fun {a h'} ha => ?_, fun {a c h'} ha hc => ?_,
    fun {a h' y} ha hy => ?_⟩, hle⟩
  all_goals by_cases he : a = i
  · subst he
    exact ⟨hi.above, hi.inside⟩
  · exact hw.inside ((Function.update_of_ne he _ _).symm.trans ha)
  · subst he
    cases hnext.symm.trans hc
    cases (Function.update_self _ _ _).symm.trans ha
    exact hle.home ht
  · exact hle.home (hw.next ((Function.update_of_ne he _ _).symm.trans ha) hc)
  · subst he
    obtain ⟨x, hx, hplain⟩ := hi.plain
    cases hx.symm.trans hy
    exact Homes.fits_of_isPlain hplain
  · exact (hw.fits ((Function.update_of_ne he _ _).symm.trans ha) hy).mono hle

/-- What `Add` does to the graph. -/
theorem add_cases {b b' : Builder} {v' : Visitor} (hrun : add v i b = some (v', b')) :
    (v.entry = none ∧ b' = b ∧ v' = { v with entry := some i, exit := some i }) ∨
      ∃ y, v.entry.isSome ∧ v.exit = some y ∧ b' = { b with graph := b.graph.link y i } ∧
        v' = { v with exit := some i } := by
  unfold FlowGraphBuilder.add Visitor.isEmpty at hrun
  cases he : v.entry with
  | none =>
      rw [he] at hrun
      cases hrun
      exact .inl ⟨rfl, rfl, rfl⟩
  | some e =>
      rw [he] at hrun
      cases hx : v.exit with
      | none =>
          rw [hx] at hrun
          cases hrun
      | some y =>
          rw [hx] at hrun
          cases hrun
          exact .inr ⟨y, rfl, rfl, rfl, rfl⟩

/-- The callee of a call is taken out of what was built aside: its link is set anew. -/
theorem home_addCallee (hv : v.In w h) (hi : w.Loose base i) (hx : x.isPlain) :
    (Homes.worlds base).From w (do addNew (← add v i) x) fun v' w' => v'.In w' h := by
  obtain ⟨g, home⟩ := w
  rintro b r b' ⟨rfl, hw⟩ hrun
  obtain ⟨v₁, b₁, hadd, hnew⟩ := Partial.bind_eq_some.mp hrun
  -- the new instruction, the callee's link to it, and the callee's home
  have hw₁ := hw.alloc (h := h) (Homes.fits_of_isPlain hx)
  have hi₁ : Homes.Loose base (Homes.alloc ⟨b.graph, home⟩ x h) i := by
    obtain ⟨y, hy, hplain⟩ := hi.plain
    refine ⟨hi.above, ?_, (Homes.home_alloc_of_ne hi.inside.ne).trans hi.home, y,
      hw.le_alloc.instr? hy, hplain⟩
    rw [Homes.size_alloc]
    exact hi.inside.trans (Nat.lt_succ_self _)
  have hw₂ := hw₁.linkLoose (t := b.graph.size) hi₁
  obtain ⟨hw₃, hle₃⟩ := hw₂.settle (i := i) ⟨hi₁.above, hi₁.inside, hi₁.home, hi₁.plain⟩
    (Homes.home_alloc (x := x)) (Graph.next_link_self _ _ _)
  have hle := hw.le_alloc.trans (Homes.le_link.trans hle₃)
  have hnewHome := hle₃.home (Homes.home_alloc (w := ⟨b.graph, home⟩) (x := x) (h := h))
  have hcallee : Function.update (Homes.alloc ⟨b.graph, home⟩ x h).home i (some h) i = some h :=
    Function.update_self _ _ _
  obtain ⟨he, rfl, rfl⟩ | ⟨y, he, hy, rfl, rfl⟩ := add_cases hadd
  · cases hnew
    refine ⟨_, hle, ⟨rfl, hw₃⟩, ?_, ?_, fun d hd => (hv.value d hd).mono hle⟩
    · rintro _ ⟨⟩
      exact hcallee
    · rintro _ ⟨⟩
      exact hnewHome
  · have hne : y ≠ i := by
      rintro rfl
      cases hi.home.symm.trans (hv.exit y hy)
    have hw₄ := hw₃.link (hle.home (hv.exit y hy)) hcallee
    have hlast : add { v with exit := some i } b.graph.size
        ({ b with graph := b.graph.link y i }.alloc x) = some (r, b') := hnew
    obtain ⟨hempty, -, -⟩ | ⟨y', -, hy', rfl, rfl⟩ := add_cases hlast
    · rw [hempty] at he
      cases he
    · cases hy'
      have hgraph : (((b.graph.link y i).alloc x).2.link i b.graph.size)
          = (((b.graph.alloc x).2.link i b.graph.size).link y i) := by
        simp only [Graph.alloc, Graph.link]
        rw [Function.update_comm hne]
      refine ⟨_, hle.trans Homes.le_link, ⟨hgraph, hw₄⟩, fun a ha => ?_, ?_, fun d hd => ?_⟩
      · exact hle.home (hv.entry a ha)
      · rintro _ ⟨⟩
        exact hnewHome
      · exact ((hv.value d hd).mono hle).mono Homes.le_link

/-- The rest of a call behind its lookup. -/
theorem home_invoke (cfg : Config) (m : Mode) (hv : v.In w h) (n : UInt64) :
    (Homes.worlds base).From w (do
      let invoke ← newInstr (.invokeDynamic n)
      let v ← addInstanceOf cfg v .procedure
      returnDefinition m v invoke) fun v' w' => v'.In w' h := by
  refine (home_newPlain h rfl).bind fun d w₁ hle₁ hd => ?_
  refine (home_addInstanceOf cfg (hv.mono hle₁) .procedure).bind fun v₂ w₂ hle₂ hv₂ => ?_
  exact home_returnDefinition m hv₂ (hd.mono hle₂)

/-- **A call.**  Of its target only the value is used. -/
theorem home_returnCallTo (cfg : Config) (m : Mode) (hv : v.In w h) (hi : w.Loose base i)
    (n : UInt64) :
    (Homes.worlds base).From w (returnCallTo cfg m v i n) fun v' w' => v'.In w' h := by
  refine .get fun b _ => ?_
  split
  · exact home_returnNew m hv rfl
  · exact home_returnNew m hv rfl
  · cases hp : cfg.pedantic with
    | true =>
        simp only [addInstanceOf, hp, if_true]
        rw [← bind_assoc]
        refine (home_addCallee hv hi rfl).bind fun v₁ w₁ _ hv₁ => ?_
        refine (home_addPlain hv₁ rfl).bind fun v₂ w₂ _ hv₂ => ?_
        have hinvoke : (Homes.worlds base).From w₂ _ _ := home_invoke cfg m hv₂ n
        simpa only [addInstanceOf, hp, if_true] using hinvoke
    | false =>
        simp only [addInstanceOf, hp, Bool.false_eq_true, if_false, pure_bind]
        rw [← bind_assoc]
        refine (home_addCallee hv hi rfl).bind fun v₁ w₁ _ hv₁ => ?_
        have hinvoke : (Homes.worlds base).From w₁ _ _ := home_invoke cfg m hv₁ n
        simpa only [addInstanceOf, hp, Bool.false_eq_true, if_false, pure_bind] using hinvoke

theorem home_storeLocal (l : LocalId) :
    (Homes.worlds base).From w (storeLocal l) fun x w' => w' = w ∧ x.isPlain := by
  refine .get fun b _ => ?_
  split
  · exact .pure ⟨rfl, rfl⟩
  · exact .failure

theorem home_loadLocal (l : LocalId) :
    (Homes.worlds base).From w (loadLocal l) fun x w' => w' = w ∧ x.isPlain := by
  refine .get fun b _ => ?_
  split
  · exact .pure ⟨rfl, rfl⟩
  · exact .failure

/-- A store behind a visitor's fragment. -/
theorem home_addStore (hv : v.In w h) (l : LocalId) :
    (Homes.worlds base).From w (do addNew v (← storeLocal l)) fun v' w' => v'.In w' h := by
  refine (home_storeLocal l).bind ?_
  rintro x _ - ⟨rfl, hx⟩
  exact home_addPlain hv hx

theorem home_visitLiteral (m : Mode) (hv : v.In w h) (value : Value) :
    (Homes.worlds base).From w (visitLiteral m v value) fun v' w' => v'.In w' h := by
  unfold visitLiteral
  split
  · refine .get fun b _ => ?_
    split
    · exact home_returnNew m hv rfl
    · split
      · exact home_returnNew m hv rfl
      · refine (home_loadLocal _).bind ?_
        rintro x _ - ⟨rfl, hx⟩
        exact home_returnNew m hv hx
  · exact home_returnNew m hv rfl

theorem home_addRxCall (hv : v.In w h) (s : Symbol) (n : UInt64) :
    (Homes.worlds base).From w (addRxCall v s n) fun v' w' => v'.In w' h := by
  refine .get fun b _ => ?_
  split
  · exact .failure
  · split
    · exact .failure
    · refine (home_newPlain h rfl).bind fun d w₁ hle hd => ?_
      split
      · exact home_addPlain (hv.mono hle) rfl
      · exact home_addPlain (hv.mono hle) rfl
      · exact .failure

end Steps

/-! ### Expressions -/

/-- An expression whose goto names a block that no branch has for a target or a join. -/
def Expr.isDangling : Expr → Bool
  | .while .. | .let .. => true
  | _ => false

def RxOp.args : RxOp → List Expr
  | mk _ as => as

def Entry.value : Entry → Expr
  | mk _ e => e

/-- The sub-expressions that are compiled with an expression, for the names that are bound: of the
target of a call only the value is used, and what is folded to a constant is not visited. -/
def Expr.parts (bound : Symbol → Bool) : Expr → List Expr
  | .unary _ e | .localDef _ e | .setLocal _ e | .loadField e _ | .throw e | .cast _ e => [e]
  | .binaryOp _ l r => [l, r]
  | .setField _ inst e => [e, inst]
  | .begin body | .callProc _ body => body
  | .while test body | .when test body => test :: body
  | .cond [] _ => []
  | .cond clauses alternate =>
      (clauses.flatMap fun c => c.key :: c.actions) ++ alternate.toList
  | .case _ [] => []
  | .case key clauses => key :: clauses.flatMap fun c => c.key :: c.actions
  | .binding _ e =>
      if isCallSymbol publishSubjectSymbol e || isCallSymbol replaySubjectSymbol e then [] else [e]
  | .let bindings body => bindings ++ body
  | .letRx source operators => source :: operators.flatMap RxOp.args
  | .list values => if (Expr.list values).isConstantExpr bound then [] else values
  | .instanceOf c e => if (Expr.instanceOf c e).isConstantExpr bound then [] else [e]
  | .new c args => if (Expr.new c args).isConstantExpr bound then [] else args
  | .newMap data => data.map Entry.value
  | .literal _ | .quoted _ | .import | .loadInstanceMethod .. => []

/-- An expression is compiled with another one, whatever names are bound. -/
inductive Expr.PartOf : Expr → Expr → Prop where
  | refl (e : Expr) : PartOf e e
  | step {x y e : Expr} (bound : Symbol → Bool) (hy : y ∈ e.parts bound) (h : PartOf x y) :
      PartOf x e

/-- No `while` and no `let` is compiled with the expression. -/
def Expr.Settled (e : Expr) : Prop := ∀ x : Expr, x.PartOf e → x.isDangling = false

/-- An expression may be compiled in a home. -/
def Home.Admits (h : Home) (e : Expr) : Prop := h = .any ∨ e.Settled

namespace Home

variable {h : Home} {e y : Expr} {j : InstrId}

theorem Admits.part (he : h.Admits e) (bound : Symbol → Bool) (hy : y ∈ e.parts bound) :
    h.Admits y := by
  rcases he with rfl | he
  · exact .inl rfl
  · exact .inr fun x hx => he x (.step bound hy hx)

theorem Admits.inner (he : h.Admits e) (j : InstrId) : (h.inner j).Admits e := by
  rcases he with rfl | he
  · exact .inl rfl
  · exact .inr he

/-- A `while` and a `let` are admitted anywhere only. -/
theorem Admits.eq_any (he : h.Admits e) (hd : e.isDangling = true) : h = .any := by
  rcases he with rfl | he
  · rfl
  · cases (he e (.refl e)).symm.trans hd

end Home

section Parts

variable {base : Graph} {w : Homes} {h : Home} {t j : InstrId} {v : Visitor} {α β : Type}
  {y : Build Visitor}

/-- Another visitor's fragment behind this one's. -/
theorem home_appended {k : Visitor → Build β} {Q : β → Homes → Prop}
    (hy : (Homes.worlds base).From w y fun f w' => f.In w' h) (hv : v.In w h)
    (hk : ∀ v' w', w.Le w' → Visitor.In w' h v' → (Homes.worlds base).From w' (k v') Q) :
    (Homes.worlds base).From w (y >>= fun f => append v f >>= k) Q := by
  refine hy.bind fun f w₁ hle₁ hf => ?_
  refine (home_append (hv.mono hle₁) hf).bind fun v' w₂ hle₂ hv' => ?_
  exact hk v' w₂ (hle₁.trans hle₂) hv'

/-- Another visitor's fragment at the end of a block. -/
theorem home_appendedTo {k : Unit → Build β} {Q : β → Homes → Prop}
    (hy : (Homes.worlds base).From w y fun f w' => f.In w' h) (ht : w.home t = some h)
    (hk : ∀ w', w.Le w' → (Homes.worlds base).From w' (k ()) Q) :
    (Homes.worlds base).From w (y >>= fun f => appendFragment t f >>= k) Q := by
  refine hy.bind fun f w₁ hle₁ hf => ?_
  refine (home_appendFragment (hle₁.home ht) hf).bind fun _ w₂ hle₂ _ => ?_
  exact hk w₂ (hle₁.trans hle₂)

theorem Homes.fits_goto (w : Homes) (h : Home) (j : InstrId) : w.Fits (h.inner j) (.goto j) := by
  cases h with
  | any => exact .inl rfl
  | block => exact .inr rfl

theorem Homes.fits_branch {f : Option InstrId} (condition : Condition) (hj : w.home j = some h)
    (ht : w.home t = some (h.inner j)) (hf : ∀ a ∈ f, w.home a = some (h.inner j)) :
    w.Fits h (.branch condition t f j) := ⟨hj, ht, hf⟩

/-- The goto at the end of a block. -/
theorem home_appendGoto (ht : w.home t = some (h.inner j)) :
    (Homes.worlds base).From w (do appendInstr t (← newInstr (.goto j)) : Build Unit)
      fun _ _ => True := by
  refine (home_newInstr (w.fits_goto h j)).bind fun i w₁ hle hi => ?_
  exact home_appendInstr (hle.home ht) hi.1

theorem home_addGoto (hv : v.In w (h.inner j)) :
    (Homes.worlds base).From w (addNew v (.goto j)) fun v' w' => v'.In w' (h.inner j) :=
  home_addNew hv (w.fits_goto h j)

end Parts

theorem home_pushScope {base : Graph} {w : Homes} :
    (Homes.worlds base).From w pushScope fun _ w' => w' = w := by
  refine home_quiet fun b a b' hrun => ?_
  cases hrun
  rfl

theorem home_popScope {base : Graph} {w : Homes} :
    (Homes.worlds base).From w popScope fun _ w' => w' = w := by
  refine home_quiet fun b a b' hrun => ?_
  rw [popScope, Partial.get_bind] at hrun
  cases hp : b.scopes.parentOf b.scope with
  | none =>
      rw [hp] at hrun
      cases hrun
  | some p =>
      rw [hp] at hrun
      cases hrun
      rfl

/-- A change of the scopes. -/
theorem home_setScopes {base : Graph} {w : Homes} {b : Builder}
    (hb : (Homes.worlds base).holds w b) (s : ScopeId) (m : Scopes) :
    (Homes.worlds base).From w (set { b with scope := s, scopes := m } : Build Unit)
      fun _ w' => w' = w := by
  rintro b₁ a b' - hrun
  cases hrun
  exact ⟨w, .refl w, hb, rfl⟩

theorem home_isConstantExpr {base : Graph} {w : Homes} (cfg : Config) (e : Expr) :
    (Homes.worlds base).From w (isConstantExpr cfg e) fun folded w' =>
      w' = w ∧ ∃ bound, folded = e.isConstantExpr bound :=
  .get fun _ _ => .pure ⟨rfl, _, rfl⟩

theorem home_evalToConstant {base : Graph} {w : Homes} (cfg : Config) (e : Expr) :
    (Homes.worlds base).From w (evalToConstant cfg e) fun _ w' => w' = w := by
  refine .get fun b _ => ?_
  split
  · exact .pure rfl
  · exact .failure

/-- A new subject and its store. -/
theorem home_addSubject {base : Graph} {w : Homes} {h : Home} {v : Visitor} (hv : v.In w h)
    (l : LocalId) (c : ClassId) :
    (Homes.worlds base).From w (do
      let v ← addNew v (.constant (← newSubject c))
      addNew v (← storeLocal l)) fun v' w' => v'.In w' h := by
  have hsubject : (Homes.worlds base).From w (newSubject c) fun _ w' => w' = w := by
    refine home_quiet fun b a b' hrun => ?_
    cases hrun
    rfl
  refine hsubject.bind ?_
  rintro x _ - rfl
  exact (home_addPlain hv rfl).bind fun v₁ w₁ _ hv₁ => home_addStore hv₁ l

mutual

/-- **Visiting an expression keeps homes**, where its home admits it. -/
theorem home_visit (cfg : Config) : ∀ (e : Expr) (m : Mode) {base : Graph} {w : Homes} {h : Home}
    {v : Visitor}, h.Admits e → v.In w h →
    (Homes.worlds base).From w (visit cfg m e v) fun v' w' => v'.In w' h
  | .literal value, m, _, _, _, _, _, hv => by
      rw [visit]
      exact home_visitLiteral m hv value
  | .quoted value, m, _, _, _, _, _, hv => by
      rw [visit]
      exact home_returnNew m hv rfl
  | .unary op e, m, _, w, _, _, ha, hv => by
      rw [visit]
      have he := ha.part (fun _ => true) (y := e) (by simp [Expr.parts])
      refine home_appended (home_visit cfg e .value he (.empty _ _)) hv fun v₁ w₁ _ hv₁ => ?_
      split
      · exact (home_addInstanceOf cfg hv₁ .pair).bind fun v₂ w₂ _ hv₂ => home_returnNew m hv₂ rfl
      · exact home_returnNew m hv₁ rfl
  | .binaryOp op l r, m, _, _, _, _, ha, hv => by
      rw [visit]
      have hl := ha.part (fun _ => true) (y := l) (by simp [Expr.parts])
      have hr := ha.part (fun _ => true) (y := r) (by simp [Expr.parts])
      refine home_appended (home_visit cfg l .value hl (.empty _ _)) hv fun v₁ w₁ _ hv₁ => ?_
      refine home_appended (home_visit cfg r .value hr (.empty _ _)) hv₁ fun v₂ w₂ _ hv₂ => ?_
      exact home_returnNew m hv₂ rfl
  | .begin body, m, _, _, _, _, ha, hv => by
      rw [visit]
      exact home_visitSequence cfg body (fun e he => ha.part (fun _ => true) he) hv
  | .while test body, m, _, w, _, _, ha, hv => by
      obtain rfl := ha.eq_any rfl
      rw [visit]
      refine (home_newTarget .any).bind fun target w₁ hle₁ ht => ?_
      refine (home_add (hv.mono hle₁) ht).bind fun v₁ w₂ hle₂ hv₁ => ?_
      refine (home_newTarget .any).bind fun bodyTarget w₃ hle₃ hb => ?_
      refine (home_newJoin .any).bind fun join w₄ hle₄ hj => ?_
      have ht₄ := hle₄.home (hle₃.home (hle₂.home ht))
      refine home_appendedTo (home_visit cfg test .value (.inl rfl) (.empty _ _)) ht₄
        fun w₅ hle₅ => ?_
      have hfits := w₅.fits_branch (f := none) .true (hle₅.home hj) (hle₅.home (hle₄.home hb)) nofun
      refine (home_newInstr hfits).bind fun branch w₆ hle₆ hi => ?_
      refine (home_appendInstr (hle₆.home (hle₅.home ht₄)) hi.1).bind fun _ w₇ hle₇ _ => ?_
      have hb₇ := hle₇.home (hle₆.home (hle₅.home (hle₄.home hb)))
      refine home_appendedTo (home_visitBody cfg body (fun e _ => .inl rfl) (.empty _ _)) hb₇
        fun w₈ hle₈ => ?_
      refine (home_appendGoto (h := .any) (hle₈.home hb₇)).bind fun _ w' hle _ => .pure ?_
      have hle₄' := hle₅.trans (hle₆.trans (hle₇.trans (hle₈.trans hle)))
      refine (hv₁.mono (hle₃.trans (hle₄.trans hle₄'))).withExit ?_
      rintro _ ⟨⟩
      exact hle₄'.home hj
  | .cond [] alternate, m, _, _, h, _, ha, hv => by
      rw [visit]
      refine (home_newTarget .any).bind fun altTarget w₁ hle₁ ht => ?_
      refine (home_newJoin h).bind fun join w₂ hle₂ hj => ?_
      simp only [visitCondClauses, pure_bind]
      refine (home_visitAlternate cfg alternate (h := .any) (hle₂.home ht)
        fun e _ => .inl rfl).bind fun _ w₃ hle₃ _ => .pure ?_
      refine (hv.mono (hle₁.trans (hle₂.trans hle₃))).withExit ?_
      rintro _ ⟨⟩
      exact hle₃.home hj
  | .cond (c :: cs) alternate, m, _, w, h, _, ha, hv => by
      rw [visit]
      have hcs : ∀ x ∈ c :: cs, ∀ e ∈ x.key :: x.actions, h.Admits e := fun x hx e he =>
        ha.part (fun _ => true) (List.mem_append_left _ (List.mem_flatMap.mpr ⟨x, hx, he⟩))
      have hf : ∀ e ∈ alternate, h.Admits e := fun e he =>
        ha.part (fun _ => true) (List.mem_append_right _ (Option.mem_toList.mpr he))
      -- the join is allocated right behind the entry of the alternate
      refine (home_newEntry (h.inner (w.graph.size + 1)) fun _ => rfl).bind ?_
      rintro altTarget w₁ hle₁ ⟨halt, rfl, hsize₁⟩
      refine (home_newEntry h fun _ => rfl).bind ?_
      rintro join w₂ hle₂ ⟨hj, rfl, -⟩
      rw [hsize₁] at hj ⊢
      have halt₂ := hle₂.home halt
      refine (home_visitCondClauses cfg (c :: cs) hj halt₂ hcs (hv.mono (hle₁.trans hle₂))).bind
        fun v₃ w₃ hle₃ hv₃ => ?_
      refine (home_visitAlternate cfg alternate (hle₃.home halt₂) hf).bind
        fun _ w₄ hle₄ _ => .pure ?_
      refine (hv₃.mono hle₄).withExit ?_
      rintro _ ⟨⟩
      exact hle₄.home (hle₃.home hj)
  | .when test actions, m, _, _, h, _, ha, hv => by
      rw [visit]
      refine (home_newJoin h).bind fun join w₁ hle₁ hj => ?_
      refine (home_newTarget (h.inner join)).bind fun target w₂ hle₂ ht => ?_
      refine (home_visitConseq cfg actions ht fun e he =>
        (ha.part (fun _ => true) (List.mem_cons_of_mem _ he)).inner join).bind fun _ w₃ hle₃ _ => ?_
      have ht₃ := hle₃.home ht
      rw [← bind_assoc]
      refine (home_appendGoto ht₃).bind fun _ w₄ hle₄ _ => ?_
      have htest := ha.part (fun _ => true) (y := test) List.mem_cons_self
      have hv₄ := hv.mono (hle₁.trans (hle₂.trans (hle₃.trans hle₄)))
      refine home_appended (home_visit cfg test .value htest (.empty _ _)) hv₄
        fun v₅ w₅ hle₅ hv₅ => ?_
      have hle := hle₂.trans (hle₃.trans (hle₄.trans hle₅))
      have hfits := w₅.fits_branch (f := none) .true (hle.home hj)
        (hle₅.home (hle₄.home ht₃)) nofun
      refine (home_addNew hv₅ hfits).bind fun v₆ w₆ hle₆ hv₆ => .pure (hv₆.withExit ?_)
      rintro _ ⟨⟩
      exact hle₆.home (hle.home hj)
  | .case key [], m, _, _, h, _, ha, hv => by
      rw [visit]
      refine (home_newJoin h).bind fun join w₁ hle₁ hj => ?_
      simp only [visitCaseClauses, pure_bind]
      refine .pure ((hv.mono hle₁).withExit ?_)
      rintro _ ⟨⟩
      exact hj
  | .case key (c :: cs), m, _, _, h, _, ha, hv => by
      rw [visit]
      have hkey := ha.part (fun _ => true) (y := key) List.mem_cons_self
      refine (home_newJoin h).bind fun join w₁ hle₁ hj => ?_
      refine (home_visitCaseClauses cfg (fun hv => home_visit cfg key .value hkey hv) (c :: cs) hj
        (fun x hx e he => ha.part (fun _ => true)
          (List.mem_cons_of_mem _ (List.mem_flatMap.mpr ⟨x, hx, he⟩)))
        (hv.mono hle₁)).bind fun v₂ w₂ hle₂ hv₂ => .pure (hv₂.withExit ?_)
      rintro _ ⟨⟩
      exact hle₂.home hj
  | .localDef l e, m, _, _, _, _, ha, hv | .setLocal l e, m, _, _, _, _, ha, hv => by
      rw [visit]
      have he := ha.part (fun _ => true) (y := e) List.mem_cons_self
      refine home_appended (home_visit cfg e .value he (.empty _ _)) hv fun v₁ w₁ _ hv₁ => ?_
      exact home_addStore hv₁ l
  | .setField field inst e, m, _, _, _, _, ha, hv => by
      rw [visit]
      have he := ha.part (fun _ => true) (y := e) List.mem_cons_self
      have hi := ha.part (fun _ => true) (y := inst) (by simp [Expr.parts])
      refine home_appended (home_visit cfg e .value he (.empty _ _)) hv fun v₁ w₁ _ hv₁ => ?_
      refine home_appended (home_visit cfg inst .value hi (.empty _ _)) hv₁ fun v₂ w₂ _ hv₂ => ?_
      exact home_addPlain hv₂ rfl
  | .loadField inst field, m, _, _, _, _, ha, hv => by
      rw [visit]
      have hi := ha.part (fun _ => true) (y := inst) List.mem_cons_self
      refine home_appended (home_visit cfg inst .value hi (.empty _ _)) hv fun v₁ w₁ _ hv₁ => ?_
      exact home_returnNew m hv₁ rfl
  | .import, m, _, _, _, _, _, hv => by
      rw [visit]
      exact .pure hv
  | .callProc target args, m, _, _, _, _, ha, hv => by
      rw [visit]
      refine (home_visitArgs cfg args (fun e he => ha.part (fun _ => true) he) hv).bind
        fun v₁ w₁ _ hv₁ => ?_
      refine (home_aside Visitor.value <| (home_visit cfg target .value
        (.inl rfl) (.empty _ _)).weaken fun _ _ _ hf => hf.value).bind fun f w₂ hle₂ hf => ?_
      split
      · exact .failure
      · rename_i d hd
        exact home_returnCallTo cfg m (hv₁.mono hle₂) (hf d hd) _
  | .binding l e, m, _, _, _, _, ha, hv => by
      rw [visit]
      refine .get fun b hb => ?_
      dsimp only
      split
      · exact .failure
      · refine (home_setScopes hb _ _).bind ?_
        rintro _ w' - rfl
        split
        · exact home_addSubject hv l _
        · split
          · exact home_addSubject hv l _
          · rename_i hpublish hreplay
            have he := ha.part (fun _ => true) (y := e) (by simp [Expr.parts, hpublish, hreplay])
            refine home_appended (home_visit cfg e .value he (.empty _ _)) hv fun v₁ w₁ _ hv₁ => ?_
            exact home_addStore hv₁ l
  | .let bindings body, m, base, _, _, _, ha, hv => by
      obtain rfl := ha.eq_any rfl
      rw [visit]
      refine (home_newTarget .any).bind fun target w₁ hle₁ ht => ?_
      refine (home_addGoto (h := .any) (hv.mono hle₁)).bind fun v₁ w₂ hle₂ hv₁ => ?_
      refine (home_newJoin .any).bind fun join w₃ hle₃ hj => ?_
      refine home_pushScope.bind ?_
      rintro _ w₃ - rfl
      have ht₃ := hle₃.home (hle₂.home ht)
      refine (home_visitChildren cfg bindings (r := none) ht₃ nofun).bind fun r w₄ hle₄ hr => ?_
      refine (home_visitChildren cfg body (hle₄.home ht₃) hr).bind fun r w₅ hle₅ hr => ?_
      have hle := hle₃.trans (hle₄.trans hle₅)
      have hrest : ∀ d w₆, w₅.Le w₆ → w₆.HasValue .any d → (Homes.worlds base).From w₆ (do
          let v ← returnDefinition m v₁ d
          appendInstr target (← newInstr (.goto join))
          popScope
          return { v with exit := some join }) fun v' w' => v'.In w' .any := by
        intro d w₆ hle₆ hd
        have hle' := hle.trans hle₆
        refine (home_returnDefinition m (hv₁.mono hle') hd).bind fun v₇ w₇ hle₇ hv₇ => ?_
        have hle₃' := hle₄.trans (hle₅.trans (hle₆.trans hle₇))
        rw [← bind_assoc]
        refine (home_appendGoto (h := .any) (hle₃'.home ht₃)).bind fun _ w₈ hle₈ _ => ?_
        refine home_popScope.bind ?_
        rintro _ w₈ - rfl
        refine .pure ((hv₇.mono hle₈).withExit ?_)
        rintro _ ⟨⟩
        exact hle₈.home (hle₃'.home hj)
      cases r with
      | some d => exact hrest d w₅ (.refl w₅) (hr d rfl)
      | none =>
          refine (home_newPlain .any rfl).bind fun d w₆ hle₆ hd => ?_
          have ht₆ := hle₆.home (hle₅.home (hle₄.home ht₃))
          refine (home_appendInstr ht₆ hd.1).bind fun _ w₇ hle₇ _ => ?_
          exact hrest d w₇ (hle₆.trans hle₇) (hd.mono hle₇)
  | .letRx source operators, m, base, _, h, _, ha, hv => by
      rw [visit]
      refine .get fun b hb => ?_
      dsimp only
      split
      · exact .failure
      · refine (home_setScopes hb _ _).bind ?_
        rintro _ w - rfl
        have hs := ha.part (fun _ => true) (y := source) List.mem_cons_self
        have hops : ∀ o ∈ operators, ∀ e ∈ o.args, h.Admits e := fun o ho e he =>
          ha.part (fun _ => true) (List.mem_cons_of_mem _ (List.mem_flatMap.mpr ⟨o, ho, he⟩))
        refine home_appended (home_visit cfg source .value hs (.empty _ _)) hv fun v₁ w₁ _ hv₁ => ?_
        have hrest : ∀ l v₂ w₂, Visitor.In w₂ h v₂ → (Homes.worlds base).From w₂ (do
            let v ← visitOperators cfg m l operators v₂
            popScope
            return v) fun v' w' => v'.In w' h := by
          intro l v₂ w₂ hv₂
          refine (home_visitOperators cfg m l operators hops hv₂).bind fun v₃ w₃ _ hv₃ => ?_
          refine home_popScope.bind ?_
          rintro _ w₃ - rfl
          exact .pure hv₃
        refine .get fun b _ => ?_
        split
        · rw [← bind_assoc]
          exact (home_addStore hv₁ _).bind fun v₂ w₂ _ hv₂ => hrest _ v₂ w₂ hv₂
        · refine (home_addPlain hv₁ rfl).bind fun v₂ w₂ _ hv₂ => ?_
          rw [← bind_assoc]
          exact (home_addStore hv₂ _).bind fun v₃ w₃ _ hv₃ => hrest _ v₃ w₃ hv₃
  | .list values, m, _, _, h, _, ha, hv => by
      rw [visit]
      refine (home_isConstantExpr cfg _).bind ?_
      rintro _ w - ⟨rfl, bound, rfl⟩
      split
      · refine (home_evalToConstant cfg _).bind ?_
        rintro y w - rfl
        split
        · exact home_returnNew m hv rfl
        · exact .failure
      · rename_i hfolded
        have hvalues : ∀ e ∈ values, h.Admits e := fun e he =>
          ha.part bound (by rwa [Expr.parts, if_neg hfolded])
        refine (home_visitArgs cfg values hvalues hv).bind fun v₁ w₁ _ hv₁ => ?_
        refine (home_aside some <| (home_newPlain .any rfl).weaken fun d _ _ hd => by
          rintro _ ⟨⟩
          exact hd).bind fun d w₂ hle₂ hd => ?_
        exact home_returnCallTo cfg m (hv₁.mono hle₂) (hd d rfl) _
  | .throw e, m, _, _, _, _, ha, hv => by
      rw [visit]
      have he := ha.part (fun _ => true) (y := e) List.mem_cons_self
      refine home_appended (home_visit cfg e .value he (.empty _ _)) hv fun v₁ w₁ _ hv₁ => ?_
      exact (home_addInstanceOf cfg hv₁ .error).bind fun v₂ w₂ _ hv₂ => home_addPlain hv₂ rfl
  | .instanceOf c e, m, _, _, _, _, ha, hv => by
      rw [visit]
      refine (home_isConstantExpr cfg _).bind ?_
      rintro _ w - ⟨rfl, bound, rfl⟩
      split
      · refine (home_evalToConstant cfg _).bind ?_
        rintro y w - rfl
        split
        · exact home_returnNew m hv rfl
        · exact .failure
      · rename_i hfolded
        have he := ha.part bound (y := e) (by
          rw [Expr.parts, if_neg hfolded]
          exact List.mem_cons_self)
        refine home_appended (home_visit cfg e .value he (.empty _ _)) hv fun v₁ w₁ _ hv₁ => ?_
        exact (home_addPlain hv₁ rfl).bind fun v₂ w₂ _ hv₂ => home_returnNew m hv₂ rfl
  | .cast c e, m, _, _, _, _, ha, hv => by
      rw [visit]
      have he := ha.part (fun _ => true) (y := e) List.mem_cons_self
      refine home_appended (home_visit cfg e .value he (.empty _ _)) hv fun v₁ w₁ _ hv₁ => ?_
      exact home_returnNew m hv₁ rfl
  | .new c args, m, _, _, h, _, ha, hv => by
      rw [visit]
      refine (home_isConstantExpr cfg _).bind ?_
      rintro _ w - ⟨rfl, bound, rfl⟩
      split
      · refine (home_evalToConstant cfg _).bind ?_
        rintro y w - rfl
        split
        · exact home_returnNew m hv rfl
        · exact home_returnNew m hv rfl
      · rename_i hfolded
        have hargs : ∀ e ∈ args, h.Admits e := fun e he =>
          ha.part bound (by rwa [Expr.parts, if_neg hfolded])
        exact (home_visitArgs cfg args hargs hv).bind fun v₁ w₁ _ hv₁ => home_returnNew m hv₁ rfl
  | .newMap data, m, _, _, h, _, ha, hv => by
      rw [visit]
      refine (home_visitEntries cfg data (fun x hx => ha.part (fun _ => true)
        (List.mem_map.mpr ⟨x, hx, rfl⟩)) hv).bind fun v₁ w₁ _ hv₁ => ?_
      refine (home_newPlain h rfl).bind fun d w₂ hle₂ hd => ?_
      refine (home_add (hv₁.mono hle₂) hd.1).bind fun v₃ w₃ hle₃ hv₃ => ?_
      exact home_returnDefinition m hv₃ (hd.mono hle₃)
  | .loadInstanceMethod .., _, _, _, _, _, _, _ => by
      rw [visit]
      exact .failure

theorem home_visitArgs (cfg : Config) : ∀ (es : List Expr) {base : Graph} {w : Homes} {h : Home}
    {v : Visitor}, (∀ e ∈ es, h.Admits e) → v.In w h →
    (Homes.worlds base).From w (visitArgs cfg es v) fun v' w' => v'.In w' h
  | [], _, _, _, _, _, hv => by
      rw [visitArgs]
      exact .pure hv
  | e :: es, _, _, _, _, ha, hv => by
      rw [visitArgs]
      split
      · have he := ha e List.mem_cons_self
        refine home_appended (home_visit cfg e .value he (.empty _ _)) hv fun v₁ w₁ _ hv₁ => ?_
        exact home_visitArgs cfg es (fun x hx => ha x (List.mem_cons_of_mem _ hx)) hv₁
      · exact .pure hv

theorem home_visitSequence (cfg : Config) : ∀ (es : List Expr) {base : Graph} {w : Homes} {h : Home}
    {v : Visitor}, (∀ e ∈ es, h.Admits e) → v.In w h →
    (Homes.worlds base).From w (visitSequence cfg es v) fun v' w' => v'.In w' h
  | [], _, _, _, _, _, hv => by
      rw [visitSequence]
      exact .pure hv
  | e :: es, _, _, _, _, ha, hv => by
      rw [visitSequence]
      split
      · have he := ha e List.mem_cons_self
        refine home_appended (home_visit cfg e .effect he (.empty _ _)) hv fun v₁ w₁ _ hv₁ => ?_
        exact home_visitSequence cfg es (fun x hx => ha x (List.mem_cons_of_mem _ hx)) hv₁
      · exact .pure hv

theorem home_visitBody (cfg : Config) : ∀ (es : List Expr) {base : Graph} {w : Homes} {h : Home}
    {v : Visitor}, (∀ e ∈ es, h.Admits e) → v.In w h →
    (Homes.worlds base).From w (visitBody cfg es v) fun v' w' => v'.In w' h
  | [], _, _, _, _, _, hv => by
      rw [visitBody]
      exact .pure hv
  | e :: es, _, _, _, _, ha, hv => by
      rw [visitBody]
      refine (home_visit cfg e .effect (ha e List.mem_cons_self) hv).bind fun v₁ w₁ _ hv₁ => ?_
      exact home_visitBody cfg es (fun x hx => ha x (List.mem_cons_of_mem _ hx)) hv₁

theorem home_visitAlternate (cfg : Config) {altTarget join : InstrId} :
    ∀ (e : Option Expr) {base : Graph} {w : Homes} {h : Home},
    w.home altTarget = some (h.inner join) → (∀ x ∈ e, h.Admits x) →
    (Homes.worlds base).From w (visitAlternate cfg altTarget join e) fun _ _ => True
  | none, _, _, _, _, _ => by
      rw [visitAlternate]
      exact .pure trivial
  | some e, _, _, _, ht, ha => by
      rw [visitAlternate]
      have he := (ha e rfl).inner join
      refine home_appendedTo (home_visit cfg e .value he (.empty _ _)) ht fun w₁ hle => ?_
      exact home_appendGoto (hle.home ht)

theorem home_visitConseq (cfg : Config) : ∀ (es : List Expr) {base : Graph} {w : Homes} {h : Home}
    {target : InstrId}, w.home target = some h → (∀ e ∈ es, h.Admits e) →
    (Homes.worlds base).From w (visitConseq cfg target es) fun _ _ => True
  | [], _, _, _, _, _, _ => by
      rw [visitConseq]
      exact .pure trivial
  | e :: es, _, _, _, _, ht, ha => by
      rw [visitConseq]
      have he := ha e List.mem_cons_self
      refine home_appendedTo (home_visit cfg e .effect he (.empty _ _)) ht fun w₁ hle => ?_
      exact home_visitConseq cfg es (hle.home ht) fun x hx => ha x (List.mem_cons_of_mem _ hx)

theorem home_visitActions (cfg : Config) : ∀ (es : List Expr) {base : Graph} {w : Homes} {h : Home}
    {target : InstrId}, w.home target = some h → (∀ e ∈ es, h.Admits e) →
    (Homes.worlds base).From w (visitActions cfg target es) fun _ _ => True
  | [], _, _, _, _, _, _ => by
      rw [visitActions]
      exact .pure trivial
  | e :: es, _, _, _, _, ht, ha => by
      rw [visitActions]
      have he := ha e List.mem_cons_self
      refine home_appendedTo (home_visit cfg e .value he (.empty _ _)) ht fun w₁ hle => ?_
      exact home_visitActions cfg es (hle.home ht) fun x hx => ha x (List.mem_cons_of_mem _ hx)

theorem home_visitCondClauses (cfg : Config) {altTarget join : InstrId} :
    ∀ (cs : List Clause) {base : Graph} {w : Homes} {h : Home} {v : Visitor},
    w.home join = some h → w.home altTarget = some (h.inner join) →
    (∀ c ∈ cs, ∀ e ∈ c.key :: c.actions, h.Admits e) → v.In w h →
    (Homes.worlds base).From w (visitCondClauses cfg altTarget join cs v) fun v' w' => v'.In w' h
  | [], _, _, _, _, _, _, _, hv => by
      rw [visitCondClauses]
      exact .pure hv
  | .mk key actions :: cs, base, _, h, _, hj, hf, ha, hv => by
      rw [visitCondClauses]
      have hc := ha _ List.mem_cons_self
      have hcs := fun x hx => ha x (List.mem_cons_of_mem _ hx)
      refine (home_newTarget (h.inner join)).bind fun target w₁ hle₁ ht => ?_
      refine (home_visitActions cfg actions ht fun e he =>
        (hc e (List.mem_cons_of_mem _ he)).inner join).bind fun _ w₂ hle₂ _ => ?_
      rw [← bind_assoc]
      refine (home_appendGoto (hle₂.home ht)).bind fun _ w₃ hle₃ _ => ?_
      have hle := hle₁.trans (hle₂.trans hle₃)
      have ht₃ := hle₃.home (hle₂.home ht)
      -- the branch of the clause, and the other clauses
      have hrest : ∀ (condition : Condition) v₄ w₄, w₃.Le w₄ → Visitor.In w₄ h v₄ →
          (Homes.worlds base).From w₄ (do
            let v ← addNew v₄ (.branch condition target (some altTarget) join)
            visitCondClauses cfg altTarget join cs v) fun v' w' => v'.In w' h := by
        intro condition v₄ w₄ hle₄ hv₄
        have hfits := w₄.fits_branch (f := some altTarget) condition ((hle.trans hle₄).home hj)
          (hle₄.home ht₃) (by
            rintro _ ⟨⟩
            exact (hle.trans hle₄).home hf)
        refine (home_addNew hv₄ hfits).bind fun v₅ w₅ hle₅ hv₅ => ?_
        have hle' := hle.trans (hle₄.trans hle₅)
        exact home_visitCondClauses cfg cs (hle'.home hj) (hle'.home hf) hcs hv₅
      have hkey := hc key List.mem_cons_self
      have hv₃ := hv.mono hle
      have htrue := home_appended (home_visit cfg key .value hkey (.empty _ _)) hv₃ (hrest .true)
      dsimp only
      cases key with
      | binaryOp op l r => cases op with
          | equals =>
              have hl := hkey.part (fun _ => true) (y := l) (by simp [Expr.parts])
              have hr := hkey.part (fun _ => true) (y := r) (by simp [Expr.parts])
              refine home_appended (home_visit cfg l .value hl (.empty _ _)) hv₃
                fun v₄ w₄ hle₄ hv₄ => ?_
              refine home_appended (home_visit cfg r .value hr (.empty _ _)) hv₄
                fun v₅ w₅ hle₅ hv₅ => ?_
              exact hrest .equal v₅ w₅ (hle₄.trans hle₅) hv₅
          | _ => exact htrue
      | _ => exact htrue

theorem home_visitCaseClauses (cfg : Config) {visitKey : Visitor → Build Visitor} {join : InstrId}
    {base : Graph} {h : Home} (hkey : ∀ {w : Homes} {v : Visitor}, v.In w h →
      (Homes.worlds base).From w (visitKey v) fun v' w' => v'.In w' h) :
    ∀ (cs : List Clause) {w : Homes} {v : Visitor}, w.home join = some h →
    (∀ c ∈ cs, ∀ e ∈ c.key :: c.actions, h.Admits e) → v.In w h →
    (Homes.worlds base).From w (visitCaseClauses cfg visitKey join cs v) fun v' w' => v'.In w' h
  | [], _, _, _, _, hv => by
      rw [visitCaseClauses]
      exact .pure hv
  | .mk clauseKey actions :: cs, _, _, hj, ha, hv => by
      rw [visitCaseClauses]
      have hc := ha _ List.mem_cons_self
      refine (home_newTarget (h.inner join)).bind fun target w₁ hle₁ ht => ?_
      refine (home_add (.empty _ _) ht).bind fun forClause w₂ hle₂ hclause => ?_
      refine (home_visitClauseActions cfg actions (hle₂.home ht) (fun e he =>
        (hc e (List.mem_cons_of_mem _ he)).inner join) hclause).bind
          fun forClause w₃ hle₃ hclause => ?_
      refine (home_addGoto hclause).bind fun _ w₄ hle₄ _ => ?_
      refine (hkey (.empty _ _)).bind fun forTest w₅ hle₅ htest => ?_
      refine (home_visit cfg clauseKey .value (hc _ List.mem_cons_self) htest).bind
        fun forTest w₆ hle₆ htest => ?_
      refine (home_addPlain htest rfl).bind fun forTest w₇ hle₇ htest => ?_
      have hle := hle₂.trans (hle₃.trans (hle₄.trans (hle₅.trans (hle₆.trans hle₇))))
      have hfits := w₇.fits_branch (f := none) .true ((hle₁.trans hle).home hj) (hle.home ht) nofun
      refine (home_addNew htest hfits).bind fun forTest w₈ hle₈ htest => ?_
      have hle' := hle₁.trans (hle.trans hle₈)
      refine (home_append (hv.mono hle') htest).bind fun v₉ w₉ hle₉ hv₉ => ?_
      exact home_visitCaseClauses cfg hkey cs (hle₉.home (hle'.home hj))
        (fun x hx => ha x (List.mem_cons_of_mem _ hx)) hv₉

theorem home_visitClauseActions (cfg : Config) {target : InstrId} :
    ∀ (es : List Expr) {base : Graph}
    {w : Homes} {h : Home} {v : Visitor}, w.home target = some h → (∀ e ∈ es, h.Admits e) →
    v.In w h →
    (Homes.worlds base).From w (visitClauseActions cfg target es v) fun v' w' => v'.In w' h
  | [], _, _, _, _, _, _, hv => by
      rw [visitClauseActions]
      exact .pure hv
  | e :: es, base, _, h, v, ht, ha, hv => by
      rw [visitClauseActions]
      have he := ha e List.mem_cons_self
      refine (home_visit cfg e .effect he (.empty _ _)).bind fun f w₁ hle₁ hf => ?_
      have hrest : ∀ (f : Visitor) w₂, w₁.Le w₂ → f.In w₂ h → (Homes.worlds base).From w₂ (do
          appendFragment target f
          visitClauseActions cfg target es { v with exit := f.exit }) fun v' w' => v'.In w' h := by
        intro f w₂ hle₂ hf
        have hle := hle₁.trans hle₂
        refine (home_appendFragment (hle.home ht) hf).bind fun _ w₃ hle₃ _ => ?_
        exact home_visitClauseActions cfg es (hle₃.home (hle.home ht))
          (fun x hx => ha x (List.mem_cons_of_mem _ hx))
          ((hv.mono (hle.trans hle₃)).withExit (hf.mono hle₃).exit)
      dsimp only
      split
      · exact (home_addImplicitReturn hf).bind hrest
      · rw [pure_bind]
        exact hrest f w₁ (.refl w₁) hf

theorem home_visitEntries (cfg : Config) : ∀ (es : List Entry) {base : Graph} {w : Homes} {h : Home}
    {v : Visitor}, (∀ e ∈ es, h.Admits e.value) → v.In w h →
    (Homes.worlds base).From w (visitEntries cfg es v) fun v' w' => v'.In w' h
  | [], _, _, _, _, _, hv => by
      rw [visitEntries]
      exact .pure hv
  | .mk key e :: es, _, _, _, _, ha, hv => by
      rw [visitEntries]
      refine (home_addPlain hv rfl).bind fun v₁ w₁ _ hv₁ => ?_
      have he := ha _ List.mem_cons_self
      refine home_appended (home_visit cfg e .value he (.empty _ _)) hv₁ fun v₂ w₂ _ hv₂ => ?_
      exact home_visitEntries cfg es (fun x hx => ha x (List.mem_cons_of_mem _ hx)) hv₂

theorem home_visitChildren (cfg : Config) : ∀ (es : List Expr) {base : Graph} {w : Homes}
    {target : InstrId} {r : Option InstrId}, w.home target = some .any →
    (∀ d ∈ r, w.HasValue .any d) →
    (Homes.worlds base).From w (visitChildren cfg target es r) fun r w' =>
      ∀ d ∈ r, w'.HasValue .any d
  | [], _, _, _, _, _, hr => by
      rw [visitChildren]
      exact .pure hr
  | e :: es, _, _, _, _, ht, _ => by
      rw [visitChildren]
      refine (home_visit cfg e .value (.inl rfl) (.empty _ .any)).bind fun f w₁ hle₁ hf => ?_
      refine (home_appendFragment (hle₁.home ht) hf).bind fun _ w₂ hle₂ _ => ?_
      exact home_visitChildren cfg es (hle₂.home (hle₁.home ht)) (hf.mono hle₂).value

theorem home_visitOperators (cfg : Config) (m : Mode) (l : LocalId) : ∀ (ops : List RxOp)
    {base : Graph} {w : Homes} {h : Home} {v : Visitor},
    (∀ o ∈ ops, ∀ e ∈ o.args, h.Admits e) → v.In w h →
    (Homes.worlds base).From w (visitOperators cfg m l ops v) fun v' w' => v'.In w' h
  | [], _, _, _, _, _, hv => by
      rw [visitOperators]
      exact .pure hv
  | .mk symbol args :: ops, _, _, h, _, ha, hv => by
      rw [visitOperators]
      split
      · refine (home_loadLocal l).bind ?_
        rintro x w₁ - ⟨rfl, hx⟩
        refine (home_addPlain (.empty _ h) hx).bind fun f w₂ hle₂ hf => ?_
        refine (home_visitArgs cfg args (ha _ List.mem_cons_self) hf).bind fun f w₃ hle₃ hf => ?_
        refine (home_addRxCall hf symbol _).bind fun f w₄ hle₄ hf => ?_
        have hle := hle₂.trans (hle₃.trans hle₄)
        refine (home_append (hv.mono hle) hf).bind fun v₅ w₅ hle₅ hv₅ => ?_
        split
        · split
          · exact home_returnNew m hv₅ rfl
          · refine (home_loadLocal l).bind ?_
            rintro x w₆ - ⟨rfl, hx⟩
            exact home_returnNew m hv₅ hx
        · exact home_visitOperators cfg m l ops (fun o ho => ha o (List.mem_cons_of_mem _ ho)) hv₅
      · exact .pure hv

end

end Gel
