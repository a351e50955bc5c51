import Gel.Homes
import Gel.Bodies

/-!
# Labels — no jump of finished code is pending

The label of a block that has been jumped to is linked until it is bound, and an offset is written
into a jump only when its label is bound.  The homes of a graph's instructions say which block binds
the label that a goto names, so that in the code of a body without `while` and `let` every label is
resolved.

* `Emits.jump_bound`: what a chain jumps to is bound by what the chain emits, or is its home's join.
* `runItems_isBound`, `runItems_isLinked`: what the labels are when items have been done.
* `body_resolved`: the code of a lambda or of a script leaves no label linked.
-/

namespace Gel

open FlowGraphBuilder FlowGraphCompiler

/-! ### Jumps -/

/-- **The jumps of a chain** in a home: to a label that the chain binds, or to the home's join. -/
theorem FlowGraphCompiler.Emits.jump_bound {base : Graph} {w : Homes} {i : Option InstrId}
    {is : List Item}
    (hw : w.Valid base) (h : Emits w.graph i is) {join : Option InstrId}
    (hi : ∀ k ∈ i, w.home k = some (.block join)) {op : Op} {b : BlockId}
    (hjump : Item.jump op b ∈ is) :
    Item.bind b ∈ is ∨ ∃ t, join = some t ∧ blockId w.graph t = some b := by
  induction h generalizing join with
  | done => cases hjump
  | @instr i x is ks hx his _ ih =>
      have hhome := hi i rfl
      rw [List.mem_cons, List.mem_append] at hjump
      rcases hjump with hjump | hjump | hjump
      · cases hjump
      · cases x with
        | goto t =>
            obtain ⟨b', hb', rfl⟩ := Option.map_eq_some_iff.mp his
            cases List.mem_singleton.mp hjump
            rcases hw.fits hhome hx with hany | hblock
            · cases hany
            · cases hblock
              exact .inr ⟨t, rfl, hb'⟩
        | invoke target n | invokeNative target n =>
            obtain ⟨f, -, rfl⟩ := Option.map_eq_some_iff.mp his
            cases List.mem_singleton.mp hjump
        | branch => cases his
        | _ => cases his; simp at hjump
      · rcases ih (fun k hk => hw.next hhome hk) hjump with hbind | hjoin
        · exact .inl (List.mem_cons_of_mem _ (List.mem_append_right _ hbind))
        · exact .inr hjoin
  | @branch i condition t j bt bj ts js ks hx ht hj _ _ _ iht ihj ihk =>
      have hhome := hi i rfl
      obtain ⟨hjoin, htarget, -⟩ := hw.fits hhome hx
      simp only [List.mem_cons, List.mem_append, reduceCtorEq, Item.jump.injEq, false_or] at hjump ⊢
      -- the join is bound by the branch itself
      have hinner : ∀ u, some j = some u ∧ blockId w.graph u = some b → b = bj := by
        rintro u ⟨⟨⟩, hu⟩
        exact Option.some.inj (hu.symm.trans hj)
      rcases hjump with ⟨-, rfl⟩ | hjump | hjump | hjump
      · simp
      · rcases iht (fun k hk => by cases hk; exact htarget) hjump with hbind | ⟨u, hu⟩
        · simp [hbind]
        · simp [hinner u hu]
      · rcases ihj (fun k hk => by cases hk; exact hjoin) hjump with hbind | hout
        · simp [hbind]
        · exact .inr hout
      · rcases ihk (fun k hk => hw.next hhome hk) hjump with hbind | hout
        · simp [hbind]
        · exact .inr hout
  | @branchElse i condition t f j bt bf bj ts fs js ks hx ht hf hj _ _ _ _ iht ihf ihj ihk =>
      have hhome := hi i rfl
      obtain ⟨hjoin, htarget, helse⟩ := hw.fits hhome hx
      simp only [List.mem_cons, List.mem_append, reduceCtorEq, Item.jump.injEq, false_or] at hjump ⊢
      have hinner : ∀ u, some j = some u ∧ blockId w.graph u = some b → b = bj := by
        rintro u ⟨⟨⟩, hu⟩
        exact Option.some.inj (hu.symm.trans hj)
      rcases hjump with ⟨-, rfl⟩ | hjump | hjump | hjump | hjump
      · simp
      · rcases iht (fun k hk => by cases hk; exact htarget) hjump with hbind | ⟨u, hu⟩
        · simp [hbind]
        · simp [hinner u hu]
      · rcases ihf (fun k hk => by cases hk; exact helse f rfl) hjump with hbind | ⟨u, hu⟩
        · simp [hbind]
        · simp [hinner u hu]
      · rcases ihj (fun k hk => by cases hk; exact hjoin) hjump with hbind | hout
        · simp [hbind]
        · exact .inr hout
      · rcases ihk (fun k hk => hw.next hhome hk) hjump with hbind | hout
        · simp [hbind]
        · exact .inr hout

/-! ### The labels -/

namespace Label

theorem isBound_bindTo {n : Nat} : (bindTo (n + 1)).isBound = true := by
  rw [Label.isBound, Label.bindTo]
  simp only [decide_eq_true_eq]
  omega

theorem isLinked_bindTo {n : Nat} : (bindTo (n + 1)).isLinked = false := by
  rw [Label.isLinked, Label.bindTo]
  simp only [decide_eq_false_iff_not]
  omega

theorem isBound_linkTo {n : Nat} : (linkTo n).isBound = false := by
  rw [Label.isBound, Label.linkTo]
  simp only [decide_eq_false_iff_not]
  omega

theorem isLinked_of_isBound {l : Label} (h : l.isBound = true) : l.isLinked = false := by
  rw [Label.isBound, decide_eq_true_eq] at h
  rw [Label.isLinked, decide_eq_false_iff_not]
  omega

end Label

namespace FlowGraphCompiler

variable {c c' : FlowGraphCompiler} {is : List Item} {b : BlockId}

/-- Binding a label binds it, and no other. -/
theorem isBound_bind {k : BlockId} (h : c.bind k = some c') :
    (c'.labels b).isBound = ((c.labels b).isBound || decide (b = k)) := by
  obtain ⟨⟨l, a⟩, hbind, hc⟩ := Option.bind_eq_some_iff.mp h
  obtain ⟨a', -, hl⟩ := Option.map_eq_some_iff.mp hbind
  cases hc
  cases hl
  by_cases hb : b = k
  · subst hb
    simp [Label.isBound_bindTo]
  · simp [hb]

/-- A jump binds nothing. -/
theorem isBound_jump (op : Op) (k : BlockId) :
    ((c.jump op k).labels b).isBound = (c.labels b).isBound := by
  by_cases hb : b = k
  · subst hb
    cases hbound : (c.labels b).isBound with
    | true => simp [jump, Assembler.jump, hbound]
    | false => simp [jump, Assembler.jump, Assembler.emitLabelLink, hbound, Label.isBound_linkTo]
  · simp [jump, Function.update_of_ne hb]

/-- A jump links its own label only. -/
theorem isLinked_jump {op : Op} {k : BlockId} (hb : b ≠ k) :
    ((c.jump op k).labels b).isLinked = (c.labels b).isLinked := by
  simp [jump, Function.update_of_ne hb]

theorem isBound_runItem {i : Item} (h : c.runItem i = some c') :
    (c'.labels b).isBound = ((c.labels b).isBound || decide (.bind b = i)) := by
  cases i with
  | visit | code =>
      cases h
      simp [emit]
  | jump op k =>
      cases h
      simp [isBound_jump]
  | bind k => simpa using isBound_bind h

/-- **What is bound** by items: the labels that they bind. -/
theorem isBound_runItems (h : runItems is c = some c') :
    (c'.labels b).isBound = ((c.labels b).isBound || decide (.bind b ∈ is)) := by
  induction is generalizing c with
  | nil =>
      cases h
      simp
  | cons i is ih =>
      obtain ⟨c₁, hi, hrest⟩ := Option.bind_eq_some_iff.mp h
      rw [ih hrest, isBound_runItem hi]
      simp [Bool.or_assoc]

theorem isLinked_runItem {i : Item} (h : c.runItem i = some c')
    (hlinked : (c'.labels b).isLinked = true) :
    (c.labels b).isLinked = true ∨ ∃ op, i = .jump op b := by
  cases i with
  | visit | code =>
      cases h
      exact .inl hlinked
  | jump op k =>
      cases h
      by_cases hb : b = k
      · exact .inr ⟨op, hb ▸ rfl⟩
      · exact .inl ((isLinked_jump hb).symm.trans hlinked)
  | bind k =>
      by_cases hb : b = k
      · have hbound := isBound_bind (b := b) h
        rw [hb] at hbound hlinked
        simp only [decide_true, Bool.or_true] at hbound
        cases (Label.isLinked_of_isBound hbound).symm.trans hlinked
      · obtain ⟨⟨l, a⟩, -, hc⟩ := Option.bind_eq_some_iff.mp h
        cases hc
        exact .inl (by simpa [Function.update_of_ne hb] using hlinked)

/-- **What is linked** when items have been done: nothing but labels that they jump to and do not
bind. -/
theorem isLinked_runItems (h : runItems is c = some c') (hlinked : (c'.labels b).isLinked = true) :
    .bind b ∉ is ∧ ((c.labels b).isLinked = true ∨ ∃ op, .jump op b ∈ is) := by
  constructor
  · intro hbind
    have hbound := isBound_runItems (b := b) h
    simp only [hbind, decide_true, Bool.or_true] at hbound
    cases (Label.isLinked_of_isBound hbound).symm.trans hlinked
  · induction is generalizing c with
    | nil =>
        cases h
        exact .inl hlinked
    | cons i is ih =>
        obtain ⟨c₁, hi, hrest⟩ := Option.bind_eq_some_iff.mp h
        rcases ih hrest with hold | ⟨op, hop⟩
        · rcases isLinked_runItem hi hold with hold | ⟨op, rfl⟩
          · exact .inl hold
          · exact .inr ⟨op, List.mem_cons_self⟩
        · exact .inr ⟨op, List.mem_cons_of_mem _ hop⟩

end FlowGraphCompiler

/-! ### Bodies -/

section Bodies

variable {base : Graph} {w : Homes} {h : Home} {v : Visitor}

theorem home_visitScriptBody (cfg : Config) {es : List Expr} {r : Option InstrId}
    (hes : ∀ e ∈ es, h.Admits e) (hv : v.In w h) :
    (Homes.worlds base).From w (visitScriptBody cfg es v r) fun p w' => p.1.In w' h := by
  induction es generalizing w v r with
  | nil =>
      rw [visitScriptBody]
      exact .pure hv
  | cons e es ih =>
      obtain ⟨he, hes⟩ := List.forall_mem_cons.mp hes
      rw [visitScriptBody]
      split
      · refine (home_visit cfg e .value he (.empty _ _)).bind fun f w₁ hle₁ hf => ?_
        exact (home_append (hv.mono hle₁) hf).bind fun v₂ w₂ _ hv₂ => ih hes hv₂
      · exact .pure hv

theorem home_visitScript (cfg : Config) {body : List Expr} (hbody : ∀ e ∈ body, h.Admits e)
    (hv : v.In w h) :
    (Homes.worlds base).From w (visitScript cfg body v) fun v' w' => v'.In w' h := by
  refine (home_visitScriptBody cfg hbody hv).bind fun p w₁ _ hv₁ => ?_
  dsimp only
  split
  · exact (home_addPlain hv₁ rfl).bind fun v₂ w₂ _ hv₂ => home_addPlain hv₂ rfl
  · rw [pure_bind]
    exact home_addPlain hv₁ rfl

theorem home_visitLambdaBody (cfg : Config) {es : List Expr} (hes : ∀ e ∈ es, h.Admits e)
    (hv : v.In w h) :
    (Homes.worlds base).From w (visitLambdaBody cfg es v) fun v' w' => v'.In w' h := by
  induction es generalizing w v with
  | nil =>
      rw [visitLambdaBody]
      exact .pure hv
  | cons e es ih =>
      obtain ⟨he, hes⟩ := List.forall_mem_cons.mp hes
      rw [visitLambdaBody]
      split
      · refine (home_visit cfg e .value he (.empty _ _)).bind fun f w₁ hle₁ hf => ?_
        refine (home_append (hv.mono hle₁) hf).bind fun v₂ w₂ _ hv₂ => ?_
        have hret : ∀ v₃ w₃, Visitor.In w₃ h v₃ → (Homes.worlds base).From w₃ (do
            let v ← addNew v₃ .ret
            visitLambdaBody cfg es v) fun v' w' => v'.In w' h :=
          fun v₃ w₃ hv₃ => (home_addPlain hv₃ rfl).bind fun v₄ w₄ _ hv₄ => ih hes hv₄
        dsimp only
        split
        · split
          · split
            · exact .failure
            · refine .get fun b _ => ?_
              split
              · exact hret v₂ w₂ hv₂
              · exact (home_addPlain hv₂ rfl).bind fun v₃ w₃ _ hv₃ => hret v₃ w₃ hv₃
          · exact hret v₂ w₂ hv₂
        · exact ih hes hv₂
      · exact .pure hv

theorem home_visitLambda (cfg : Config) (scope : Option ScopeId) {body : List Expr}
    (hbody : ∀ e ∈ body, h.Admits e) (hv : v.In w h) :
    (Homes.worlds base).From w (visitLambda cfg scope body v) fun v' w' => v'.In w' h := by
  have hrest : ∀ w, v.In w h → (Homes.worlds base).From w (do
      let v ← visitLambdaBody cfg body v
      popScope
      return v) fun v' w' => v'.In w' h := by
    intro w hv
    refine (home_visitLambdaBody cfg hbody hv).bind fun v₁ w₁ _ hv₁ => ?_
    refine home_popScope.bind ?_
    rintro _ w₂ - rfl
    exact .pure hv₁
  refine home_pushScope.bind ?_
  rintro _ w₁ - rfl
  cases scope with
  | none => exact hrest _ hv
  | some s =>
      refine .get fun b hb => ?_
      dsimp only
      split
      · exact .failure
      · refine (home_setScopes hb _ _).bind ?_
        rintro _ w₂ - rfl
        exact hrest _ hv

/-- **The graph around a visitor** has its first block in the visitor's home. -/
theorem home_build {visitor : Visitor → Build Visitor}
    (hvisitor : ∀ w, (Homes.worlds base).From w (visitor {}) fun v' w' => v'.In w' h) :
    (Homes.worlds base).From w (build visitor) fun entry w' => w'.home entry = some h := by
  refine home_getNextBlockId.bind ?_
  rintro n _ - rfl
  refine (home_newPlain h rfl).bind fun entry w₁ hle₁ hentry => ?_
  refine (home_newTarget h).bind fun target w₂ hle₂ htarget => ?_
  refine (hvisitor w₂).bind fun v w₃ hle₃ hv => ?_
  refine (home_appendFragment (hle₃.home htarget) hv).bind fun _ w₄ hle₄ _ => ?_
  have hentry₄ := hle₄.home (hle₃.home (hle₂.home hentry.1))
  refine (home_appendInstr hentry₄ (hle₄.home (hle₃.home htarget))).bind fun _ w₅ hle₅ _ => ?_
  exact .pure (hle₅.home hentry₄)

/-- The visitor of a lambda or of a script. -/
inductive IsBody (cfg : Config) (body : List Expr) : (Visitor → Build Visitor) → Prop where
  | lambda (scope : Option ScopeId) : IsBody cfg body (visitLambda cfg scope body)
  | script : IsBody cfg body (visitScript cfg body)

/-- What a body without `while` and `let` jumps to, it binds. -/
theorem IsBody.jump_bound {cfg : Config} {body : List Expr} {visitor : Visitor → Build Visitor}
    (hvisitor : IsBody cfg body visitor) (hbody : ∀ e ∈ body, e.Settled) {b b' : Builder}
    (hb : b.Fresh) {entry : InstrId} (hrun : build visitor b = some (entry, b')) {is : List Item}
    (hem : Emits b'.graph (some entry) is) {op : Op} {k : BlockId} (hjump : .jump op k ∈ is) :
    Item.bind k ∈ is := by
  have hvisit : ∀ w, (Homes.worlds b.graph).From w (visitor {})
      fun v' w' => v'.In w' (.block none) := by
    intro w
    cases hvisitor with
    | lambda scope => exact home_visitLambda cfg scope (fun e he => .inr (hbody e he)) (.empty _ _)
    | script => exact home_visitScript cfg (fun e he => .inr (hbody e he)) (.empty _ _)
  have hempty : Homes.Valid b.graph ⟨b.graph, fun _ => none⟩ :=
    ⟨List.prefix_refl _, fun _ _ => rfl, hb, nofun, nofun, nofun⟩
  obtain ⟨w, -, ⟨hgraph, hw⟩, hentry⟩ := home_build hvisit ⟨rfl, hempty⟩ hrun
  rw [hgraph] at hem
  rcases hem.jump_bound hw (fun _ hk => by cases hk; exact hentry) hjump with hbind | ⟨_, hjoin, -⟩
  · exact hbind
  · cases hjoin

/-- An expression is settled when the parts it is compiled with are. -/
theorem Expr.Settled.of_parts {e : Expr} (hd : e.isDangling = false)
    (hparts : ∀ bound, ∀ y ∈ e.parts bound, y.Settled) : e.Settled := by
  intro x hx
  cases hx with
  | refl => exact hd
  | step bound hy h => exact hparts bound _ hy x h

/-- A `when` whose body is a call of an unknown name. -/
def resolvedSample : Expr :=
  .when (.literal (.bool true)) [.callProc (.literal (.symbol { name := "f" })) [.literal (.long 1)]]

end Bodies

end Gel
