import Mathlib.Data.List.Basic
import Mathlib.Data.List.Induction

/-!
# Runs — finite runs of a labelled step relation

A step relation takes a state to a state and gives off a label; a run is a sequence of steps with
the list of their labels.  Nothing here is about a particular machine.

* `Run.trans`, `Run.append`: runs compose, and a run falls apart where its labels do.
* `Run.prefix_of_le`: of two runs of a deterministic system from one state, the longer one goes
  through the end of the shorter one.
* `Run.first_unique`: the first step with a given label leads to one state.
* `Run.along_iff`: a property that each step keeps under a condition, along a run.
* `Run.invariant`: what one step preserves, a run preserves.
-/

namespace Runs

variable {σ α : Type*} {step : σ → α → σ → Prop}

/-- A run from one state to another, with the labels of its steps. -/
inductive Run (step : σ → α → σ → Prop) : List α → σ → σ → Prop where
  | refl (s : σ) : Run step [] s s
  | head {a : α} {as : List α} {s t u : σ} (h : step s a t) (hs : Run step as t u) :
      Run step (a :: as) s u

/-- No state has two different steps. -/
def Deterministic (step : σ → α → σ → Prop) : Prop :=
  ∀ ⦃s a t b u⦄, step s a t → step s b u → a = b ∧ t = u

theorem Run.single {a : α} {s t : σ} (h : step s a t) : Run step [a] s t := .head h (.refl t)

theorem Run.trans {as bs : List α} {s t u : σ} (h : Run step as s t) (h' : Run step bs t u) :
    Run step (as ++ bs) s u := by
  induction h with
  | refl => exact h'
  | head hs _ ih => exact .head hs (ih h')

/-- A run falls apart where its labels do. -/
theorem Run.append {as bs : List α} {s u : σ} (h : Run step (as ++ bs) s u) :
    ∃ t, Run step as s t ∧ Run step bs t u := by
  induction as generalizing s with
  | nil => exact ⟨s, .refl s, h⟩
  | cons a as ih =>
      cases h with
      | head hs hrest =>
          obtain ⟨t, h₁, h₂⟩ := ih hrest
          exact ⟨t, .head hs h₁, h₂⟩

/-- The first step of a run. -/
theorem Run.cons {a : α} {as : List α} {s u : σ} (h : Run step (a :: as) s u) :
    ∃ t, step s a t ∧ Run step as t u := by
  cases h with
  | head hs hrest => exact ⟨_, hs, hrest⟩

/-- **Of two runs from one state, the longer goes through the end of the shorter.** -/
theorem Run.prefix_of_le (hd : Deterministic step) {as bs : List α} {s t u : σ}
    (h : Run step as s t) (h' : Run step bs s u) (hle : as.length ≤ bs.length) :
    ∃ cs, bs = as ++ cs ∧ Run step cs t u := by
  induction h generalizing bs with
  | refl => exact ⟨bs, rfl, h'⟩
  | head hs _ ih =>
      cases h' with
      | refl => cases hle
      | head hs' hrest =>
          obtain ⟨rfl, rfl⟩ := hd hs hs'
          obtain ⟨cs, rfl, hcs⟩ := ih hrest (Nat.le_of_succ_le_succ hle)
          exact ⟨cs, rfl, hcs⟩

/-- Two runs from one state: one of them goes through the end of the other. -/
theorem Run.prefix_or (hd : Deterministic step) {as bs : List α} {s t u : σ}
    (h : Run step as s t) (h' : Run step bs s u) :
    (∃ cs, bs = as ++ cs ∧ Run step cs t u) ∨ ∃ cs, as = bs ++ cs ∧ Run step cs u t := by
  rcases Nat.le_total as.length bs.length with hle | hle
  · exact .inl (h.prefix_of_le hd h' hle)
  · exact .inr (h'.prefix_of_le hd h hle)

/-- **The first step with a label is determined.** -/
theorem Run.first_unique (hd : Deterministic step) {as bs : List α} {a : α} {s t u : σ}
    (h : Run step (as ++ [a]) s t) (h' : Run step (bs ++ [a]) s u) (ha : a ∉ as) (hb : a ∉ bs) :
    t = u := by
  have key : ∀ {as bs : List α} {t u : σ}, Run step (as ++ [a]) s t → a ∉ bs →
      (∃ cs, bs ++ [a] = as ++ [a] ++ cs ∧ Run step cs t u) → t = u := by
    rintro as bs t u - hb ⟨cs, he, hcs⟩
    rcases List.eq_nil_or_concat cs with rfl | ⟨cs, c, rfl⟩
    · cases hcs
      rfl
    · -- the label would occur before the end
      rw [List.concat_eq_append, ← List.append_assoc] at he
      obtain ⟨rfl, -⟩ := List.append_inj' he rfl
      exact absurd (by simp) hb
  rcases h.prefix_or hd h' with hcs | hcs
  · exact key h hb hcs
  · exact (key h' ha hcs).symm

/-- The labels of a run determine its end when a label determines a step. -/
theorem Run.end_unique (hd : ∀ ⦃s a t u⦄, step s a t → step s a u → t = u) {as : List α} {s t u : σ}
    (h : Run step as s t) (h' : Run step as s u) : t = u := by
  induction h with
  | refl =>
      cases h'
      rfl
  | head hs _ ih =>
      obtain ⟨v, hv, hrest⟩ := h'.cons
      exact ih (hd hs hv ▸ hrest)

/-- **A property that each step keeps or loses by a condition holds along a run if and only if the
condition does.** -/
theorem Run.along_iff (hd : ∀ ⦃s a t u⦄, step s a t → step s a u → t = u) {P : σ → Prop}
    {C : σ → α → Prop} (hP : ∀ ⦃s a t⦄, P s → step s a t → (P t ↔ C s a)) {as : List α} {s t : σ}
    (h : Run step as s t) (hs : P s) :
    (∀ bs u, bs <+: as → Run step bs s u → P u) ↔
      ∀ bs b u, bs ++ [b] <+: as → Run step bs s u → C u b := by
  constructor
  · intro hall bs b u hbs hu
    obtain ⟨cs, rfl⟩ := hbs
    obtain ⟨v, hv, -⟩ := h.append
    obtain ⟨w, hw, hlast⟩ := hv.append
    obtain ⟨x, hx, hend⟩ := hlast.cons
    cases hend
    have huw : u = w := hu.end_unique hd hw
    have hbefore := hall bs u ⟨[b] ++ cs, by simp⟩ hu
    exact (hP hbefore (huw ▸ hx)).mp (hall _ _ ⟨cs, rfl⟩ hv)
  · intro hall bs
    induction bs using List.reverseRecOn with
    | nil =>
        rintro u - hu
        cases hu
        exact hs
    | append_singleton bs b ih =>
        intro u hbs hu
        obtain ⟨v, hv, hlast⟩ := hu.append
        obtain ⟨x, hx, hend⟩ := hlast.cons
        cases hend
        exact (hP (ih v ((List.prefix_append bs [b]).trans hbs) hv) hx).mpr (hall bs b v hbs hv)

/-- **What one step preserves, a run preserves.** -/
theorem Run.invariant {P : σ → Prop} (hP : ∀ ⦃s a t⦄, P s → step s a t → P t) {as : List α}
    {s t : σ} (h : Run step as s t) (hs : P s) : P t := by
  induction h with
  | refl => exact hs
  | head h _ ih => exact ih (hP hs h)

end Runs
