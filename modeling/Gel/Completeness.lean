import Gel.Termination

/-!
# Completeness — bodies that are left without a macro call

The expander finds the macro calls of a body that is `Shown`: they are operands, arguments or
actions, and none stands in another kind of expression, in the target of a call or in the value of
a `set!`.  A pass keeps that (`shown_placement`), and a pass without a result has left no macro call
(`Shown.free_of_clean`); so the loop ends without one (`expandAll_complete`).
-/

namespace Gel

open MacroExpander

namespace Expr

/-- No call in the expression resolves to a macro. -/
def MacroFree (x : MacroExpander) (e : Expr) : Prop := ∀ m, ¬e.Calls x m

mutual

theorem avoids_nil : ∀ e : Expr, e.Avoids []
  | .literal v => by cases v <;> simp [Avoids]
  | .binaryOp _ l r => ⟨l.avoids_nil, r.avoids_nil⟩
  | .callProc _ args => allAvoid_nil args
  | .setLocal _ e => e.avoids_nil
  | .when t as => ⟨t.avoids_nil, allAvoid_nil as⟩
  | .quoted _ | .unary .. | .begin _ | .while .. | .cond .. | .case .. | .localDef ..
  | .setField .. | .loadField .. | .import | .binding .. | .let .. | .letRx ..
  | .list _ | .throw _ | .instanceOf .. | .cast .. | .new .. | .newMap _
  | .loadInstanceMethod .. => trivial

theorem allAvoid_nil : ∀ es : List Expr, AllAvoid [] es
  | [] => trivial
  | e :: es => ⟨e.avoids_nil, allAvoid_nil es⟩

end

end Expr

namespace MacroExpander

section Shown

variable (macros : List Macro) (x : MacroExpander)

mutual

/-- All macro calls in the expression stand where the expander finds them, and have as many
arguments as their macros have parameters.  In a macro, a `set!` names none of the parameters
`ps`. -/
def Shown (ps : List String) : Expr → Prop
  | .binaryOp _ l r => Shown ps l ∧ Shown ps r
  | .callProc target args => target.MacroFree x ∧ AllShown ps args ∧
      ∀ m, x.macroOf target = some m →
        ∃ called, macros[m]? = some called ∧ called.args.length ≤ args.length
  | .setLocal _ value => value.MacroFree x ∧ value.Avoids ps
  | .when test actions => Shown ps test ∧ AllShown ps actions
  | e => e.MacroFree x

def AllShown (ps : List String) : List Expr → Prop
  | [] => True
  | e :: es => Shown ps e ∧ AllShown ps es

end

end Shown

/-- The macro calls of a body stand where the expander finds them, also in the macros that it uses;
and these have parameters of different names and a body. -/
structure Exposed (macros : List Macro) (x : MacroExpander) (es : List Expr) : Prop where
  body : AllShown macros x [] es
  macros : ∀ {m called}, Uses macros x es m → macros[m]? = some called →
    called.args.Nodup ∧ called.body ≠ [] ∧ AllShown macros x called.args called.body

theorem allShown_iff {macros : List Macro} {x : MacroExpander} {ps : List String} {es : List Expr} :
    AllShown macros x ps es ↔ ∀ e ∈ es, Shown macros x ps e := by
  induction es with
  | nil => simp [AllShown]
  | cons e es ih => simp [AllShown, ih]

section Weaken

variable {macros : List Macro} {x : MacroExpander} {ps : List String}

mutual

/-- What is shown in a macro is shown outside of it. -/
theorem Shown.weaken : ∀ {e : Expr}, Shown macros x ps e → Shown macros x [] e
  | .binaryOp .., h => ⟨h.1.weaken, h.2.weaken⟩
  | .callProc .., h => ⟨h.1, AllShown.weaken h.2.1, h.2.2⟩
  | .setLocal _ e, h => ⟨h.1, e.avoids_nil⟩
  | .when .., h => ⟨h.1.weaken, AllShown.weaken h.2⟩
  | .literal _, h | .quoted _, h | .unary .., h | .begin _, h | .while .., h | .cond .., h
  | .case .., h | .localDef .., h | .setField .., h | .loadField .., h | .import, h
  | .binding .., h | .let .., h | .letRx .., h | .list _, h | .throw _, h | .instanceOf .., h
  | .cast .., h | .new .., h | .newMap _, h | .loadInstanceMethod .., h => h

theorem AllShown.weaken : ∀ {es : List Expr}, AllShown macros x ps es → AllShown macros x [] es
  | [], _ => trivial
  | _ :: _, h => ⟨h.1.weaken, AllShown.weaken h.2⟩

end

variable (macros x) in
theorem shown_placement : Placement macros x fun ps e => Shown macros x (ps.getD []) e where
  weaken := Shown.weaken
  binaryOp := Iff.rfl
  args h := ⟨allShown_iff.mp h.2.1, h.2.2⟩
  callProc := by
    intro ps target args args' h hlen has
    refine ⟨h.1, allShown_iff.mpr has, ?_⟩
    rw [hlen]
    exact h.2.2
  setLocal h := .inl ⟨fun m hm => h.1 m hm.calls, h.2⟩
  when := and_congr Iff.rfl allShown_iff

end Weaken

/-! ### Bodies without macro calls -/

section Left

variable {macros : List Macro} {x : MacroExpander} {U : MacroId → Prop} {n : Nat}

/-- A call of a macro that has a body has a result. -/
theorem enter_ne_nil {m : MacroId} {args es : List Expr} (hne : ∀ {called},
      macros[m]? = some called → called.body ≠ [])
    (h : enter n x m args ⟨macros, false⟩ = some (es, ⟨macros, false⟩)) : es ≠ [] := by
  cases n with
  | zero => cases h
  | succ n =>
      obtain ⟨called, frame, vs, s', hc, hframe, hvs, hr⟩ := enter_succ.mp h
      obtain ⟨rfl, hs⟩ := Prod.mk.inj hr
      have hw : s'.written = false := (congrArg MacroStore.written hs).symm
      have hself := (visitAll_unwritten (enter_unwritten n) hvs hw).2 (List.cons_ne_nil _ _)
      obtain ⟨v, vs, rfl⟩ := List.exists_cons_of_ne_nil (l := vs) fun h => hne hc (by rw [← hself, h]; rfl)
      simp [Visited.splice_ne_nil]

mutual

/-- Where a pass has no result it has left the expression as it was, and no macro call is in it. -/
theorem Shown.free_of_clean (hx : x.frames = [])
    (hne : ∀ {m called}, U m → macros[m]? = some called → called.body ≠ []) : ∀ {e : Expr}
    {v : Visited}, Shown macros x [] e → (∀ m, e.Sees x m → U m) → Clean macros n x e v →
      v.hasResult = false → v.self = e ∧ e.MacroFree x
  | .literal _, v, _, _, h, _ => by
      cases h
      exact ⟨rfl, fun _ => id⟩
  | .binaryOp op l r, v, hs, hU, h, hr => by
      simp only [Clean, visit, Partial.bind_eq_some, Partial.pure_run] at h
      obtain ⟨vl, s₁, hl, vr, s₂, hvr, hv⟩ := h
      cases hv
      obtain ⟨rfl, -⟩ := visit_unwritten (enter_unwritten n) hvr rfl
      rw [Visited.hasResult_rebuilt, Bool.or_eq_false_iff] at hr
      obtain ⟨hsl, hfl⟩ := hs.1.free_of_clean hx hne (fun m hm => hU m (.inl hm)) hl hr.1
      obtain ⟨hsr, hfr⟩ := hs.2.free_of_clean hx hne (fun m hm => hU m (.inr hm)) hvr hr.2
      refine ⟨?_, fun m hm => hm.elim (hfl m) (hfr m)⟩
      rw [Visited.self_rebuilt, hsl, hsr]
  | .callProc target args, v, hs, hU, h, hr => by
      cases hm : x.macroOf target with
      | some m =>
          obtain ⟨es, hes, rfl⟩ := clean_call hm h
          refine absurd hr ?_
          have hnot := enter_ne_nil (fun hc => hne (hU m (.inl hm)) hc) hes
          simpa [Visited.hasResult, List.isEmpty_iff] using hnot
      | none =>
          rw [Clean, visit, hm] at h
          obtain ⟨vs, s₁, hvs, hv⟩ := Partial.bind_eq_some.mp h
          cases hv
          rw [Visited.hasResult_rebuilt] at hr
          obtain ⟨hself, hfree⟩ := AllShown.free_of_clean hx hne hs.2.1
            (fun m hm => hU m (.inr hm)) hvs hr
          refine ⟨?_, ?_⟩
          · rw [Visited.self_rebuilt, hself]
          · rintro m (hm' | hm' | hm')
            · rw [hm] at hm'
              cases hm'
            · exact hs.1 m hm'
            · exact hfree m hm'
  | .setLocal l value, v, hs, hU, h, hr => by
      have hb : Binds x (fun _ _ => True) U none x :=
        ⟨⟨rfl, rfl⟩, by simp [hx], by simp [hx], fun _ => hx⟩
      obtain ⟨vv, hvv, hself, hnone⟩ :
          ∃ vv, Clean macros n x value vv ∧ vv.self = value ∧ vv.hasResult = false :=
        still_run hx hb (fun m hm => hs.1 m hm.calls) hs.2
      have hrun := hvv.setLocal (y := l) fun _ => hnone
      cases hrun.symm.trans h
      refine ⟨?_, fun m hm => hs.1 m hm⟩
      rw [Visited.operand_eq_self hnone, hself]
  | .when test actions, v, hs, hU, h, hr => by
      simp only [Clean, visit, Partial.bind_eq_some, Partial.pure_run] at h
      obtain ⟨vt, s₁, ht, vs, s₂, hvs, hv⟩ := h
      cases hv
      obtain ⟨rfl, -⟩ := visitAll_unwritten (enter_unwritten n) hvs rfl
      rw [Visited.hasResult_rebuilt, Bool.or_eq_false_iff] at hr
      obtain ⟨hst, hft⟩ := hs.1.free_of_clean hx hne (fun m hm => hU m (.inl hm)) ht hr.1
      obtain ⟨hsa, hfa⟩ := AllShown.free_of_clean hx hne hs.2 (fun m hm => hU m (.inr hm)) hvs hr.2
      refine ⟨?_, fun m hm => hm.elim (hft m) (hfa m)⟩
      rw [Visited.self_rebuilt, hst, hsa]
  | .quoted _, _, hs, _, h, _ | .unary .., _, hs, _, h, _ | .begin _, _, hs, _, h, _
  | .while .., _, hs, _, h, _ | .cond .., _, hs, _, h, _ | .case .., _, hs, _, h, _
  | .localDef .., _, hs, _, h, _ | .setField .., _, hs, _, h, _ | .loadField .., _, hs, _, h, _
  | .import, _, hs, _, h, _ | .binding .., _, hs, _, h, _ | .let .., _, hs, _, h, _
  | .letRx .., _, hs, _, h, _ | .list _, _, hs, _, h, _ | .throw _, _, hs, _, h, _
  | .instanceOf .., _, hs, _, h, _ | .cast .., _, hs, _, h, _ | .new .., _, hs, _, h, _
  | .newMap _, _, hs, _, h, _ | .loadInstanceMethod .., _, hs, _, h, _ => by
      cases h
      exact ⟨rfl, hs⟩

theorem AllShown.free_of_clean (hx : x.frames = [])
    (hne : ∀ {m called}, U m → macros[m]? = some called → called.body ≠ []) : ∀ {es : List Expr}
    {vs : List Visited}, AllShown macros x [] es → (∀ m, Expr.AnySees x m es → U m) →
      AllClean macros n x es vs → vs.any Visited.hasResult = false →
      vs.map Visited.self = es ∧ ∀ m, ¬Expr.AnyCalls x m es
  | [], vs, _, _, h, _ => by
      cases h
      exact ⟨rfl, fun _ => id⟩
  | e :: es, vs, hs, hU, h, hr => by
      obtain ⟨v, vs, hv, hvs, rfl⟩ := allClean_cons h
      rw [List.any_cons, Bool.or_eq_false_iff] at hr
      obtain ⟨hself, hfree⟩ := hs.1.free_of_clean hx hne (fun m hm => hU m (.inl hm)) hv hr.1
      obtain ⟨hselfs, hfrees⟩ := AllShown.free_of_clean hx hne hs.2 (fun m hm => hU m (.inr hm))
        hvs hr.2
      refine ⟨?_, fun m hm => hm.elim (hfree m) (hfrees m)⟩
      rw [List.map_cons, hself, hselfs]

end

end Left

section Found

variable {macros : List Macro} {x : MacroExpander} {ps : List String} {m : MacroId}

mutual

/-- The macros of shown calls exist. -/
theorem Shown.found : ∀ {e : Expr}, Shown macros x ps e → e.Calls x m → m < macros.length
  | .binaryOp .., hs, hm => hm.elim hs.1.found hs.2.found
  | .callProc .., hs, hm => by
      rcases hm with hm | hm | hm
      · obtain ⟨called, hc, -⟩ := hs.2.2 m hm
        exact (List.getElem?_eq_some_iff.mp hc).1
      · exact absurd hm (hs.1 m)
      · exact AllShown.found hs.2.1 hm
  | .setLocal .., hs, hm => absurd hm (hs.1 m)
  | .when .., hs, hm => hm.elim hs.1.found (AllShown.found hs.2)
  | .literal _, hs, hm | .quoted _, hs, hm | .unary .., hs, hm | .begin _, hs, hm
  | .while .., hs, hm | .cond .., hs, hm | .case .., hs, hm | .localDef .., hs, hm
  | .setField .., hs, hm | .loadField .., hs, hm | .import, hs, hm | .binding .., hs, hm
  | .let .., hs, hm | .letRx .., hs, hm | .list _, hs, hm | .throw _, hs, hm
  | .instanceOf .., hs, hm | .cast .., hs, hm | .new .., hs, hm | .newMap _, hs, hm
  | .loadInstanceMethod .., hs, hm => absurd hm (hs m)

theorem AllShown.found : ∀ {es : List Expr}, AllShown macros x ps es → Expr.AnyCalls x m es →
    m < macros.length
  | [], _, hm => hm.elim
  | _ :: _, hs, hm => hm.elim hs.1.found (AllShown.found hs.2)

end

theorem Exposed.found {es : List Expr} (h : Exposed macros x es) (hm : Uses macros x es m) :
    m < macros.length := by
  cases hm with
  | here he hm => exact (allShown_iff.mp h.body _ he).found hm
  | there hm hc he hm' => exact (allShown_iff.mp (h.macros hm hc).2.2 _ he).found hm'

end Found

theorem expandAll_complete {macros : List Macro} {x : MacroExpander} {body : List Expr}
    (hx : x.frames = []) (hacyclic : Acyclic macros x body) (hexp : Exposed macros x body) :
    ∃ n k body', expandAll n x k body ⟨macros, false⟩ = some (body', ⟨macros, false⟩) ∧
      ∀ e ∈ body', e.MacroFree x := by
  obtain ⟨rank, hrank⟩ := hacyclic
  obtain ⟨n, hn⟩ := exists_rank_lt rank macros.length
  have hranked : Ranked macros x (fun ps e => Shown macros x (ps.getD []) e)
      (Uses macros x body) rank := by
    refine ⟨hx, fun {m called} hm hc => ?_⟩
    obtain ⟨hnodup, -, hshown⟩ := hexp.macros hm hc
    refine ⟨hnodup, allShown_iff.mp hshown, fun q hq => ?_⟩
    obtain ⟨e, he, hq⟩ := Expr.anySees_iff.mp hq
    exact ⟨.there hm hc he hq.calls, hrank hm hc he hq.calls⟩
  obtain ⟨k, body', hrun, hleft⟩ := hranked.ends (shown_placement macros x)
    (fun m hm => hn m (hexp.found hm))
    fun e he => ⟨allShown_iff.mp hexp.body e he, fun q hq => .here he hq.calls⟩
  refine ⟨n, k, body', hrun, fun e' he' => ?_⟩
  obtain ⟨e, v, he, hv, hr, rfl⟩ := hleft e' he'
  obtain ⟨hself, hfree⟩ := he.placed.free_of_clean hx (fun hm hc => (hexp.macros hm hc).2.1)
    he.uses hv hr
  rwa [hself]

theorem evenScript_exposed : Exposed kernelMacros kernelExpander evenScript where
  body := by
    refine ⟨⟨nofun, ⟨nofun, trivial⟩, fun m hm => ?_⟩, trivial⟩
    rw [macroOf_even] at hm
    cases hm
    exact ⟨_, rfl, le_rfl⟩
  macros := by
    rintro (- | - | m) called - hc
    · cases hc
      exact ⟨by decide, List.cons_ne_nil _ _, ⟨nofun, nofun⟩, trivial⟩
    · cases hc
      refine ⟨by decide, List.cons_ne_nil _ _, ⟨nofun, ⟨⟨nofun, nofun⟩, trivial⟩, fun m hm => ?_⟩,
        trivial⟩
      rw [macroOf_zero] at hm
      cases hm
      exact ⟨_, rfl, le_rfl⟩
    · cases hc

end MacroExpander

end Gel
