import Mathlib.Data.Option.Basic

/-!
# Partial — stateful computations that may have no result

What the operations of `StateT σ Option` do from a state: `bind_run` and `bind_run_none` run a
sequence forwards, `bind_eq_some` takes a run of one apart.

`Leads R x` says that every run of `x` goes from a state to one that is `R`-related to it; for a
preorder `R` it holds of a sequence when it holds of the parts.  `Yields P x` says that every result
of `x` satisfies `P`.
-/

namespace Partial

variable {σ α β : Type} {x : StateT σ Option α} {f : α → StateT σ Option β} {s s' : σ} {a : α}

theorem bind_run (h : x s = some (a, s')) : (x >>= f) s = f a s' := by
  change (x s).bind _ = _
  rw [h]
  rfl

theorem bind_run_none (h : x s = none) : (x >>= f) s = none := by
  change (x s).bind _ = _
  rw [h]
  rfl

theorem get_bind (f : σ → StateT σ Option β) (s : σ) :
    ((get : StateT σ Option σ) >>= f) s = f s s := rfl

theorem pure_run (a : α) (s : σ) : (pure a : StateT σ Option α) s = some (a, s) := rfl

theorem set_run (s s' : σ) : (set s' : StateT σ Option PUnit) s = some (⟨⟩, s') := rfl

theorem bind_eq_some {r : β × σ} :
    (x >>= f) s = some r ↔ ∃ a s', x s = some (a, s') ∧ f a s' = some r := by
  change (x s).bind _ = _ ↔ _
  rw [Option.bind_eq_some_iff]
  exact ⟨fun ⟨⟨a, s'⟩, h, h'⟩ => ⟨a, s', h, h'⟩, fun ⟨a, s', h, h'⟩ => ⟨(a, s'), h, h'⟩⟩

/-- A computation without a state. -/
theorem lift_eq_some {o : Option α} {r : α × σ} :
    (liftM o : StateT σ Option α) s = some r ↔ o = some r.1 ∧ r.2 = s := by
  obtain ⟨a, s'⟩ := r
  cases o with
  | none =>
      change (none : Option (α × σ)) = _ ↔ _
      simp
  | some b =>
      change some (b, s) = _ ↔ _
      simp [eq_comm]

theorem lift_bind_eq_some {o : Option α} {r : β × σ} :
    ((liftM o : StateT σ Option α) >>= f) s = some r ↔ ∃ a, o = some a ∧ f a s = some r := by
  cases o with
  | none =>
      change (none : Option (β × σ)) = _ ↔ _
      simp
  | some a =>
      change f a s = _ ↔ _
      simp

section Leads

variable {R : σ → σ → Prop}

/-- Every run ends in a state related to the one it starts from. -/
def Leads (R : σ → σ → Prop) (x : StateT σ Option α) : Prop :=
  ∀ ⦃s a s'⦄, x s = some (a, s') → R s s'

theorem Leads.bind (htrans : ∀ {s t u}, R s t → R t u → R s u) (hx : Leads R x)
    (hf : ∀ a, Leads R (f a)) : Leads R (x >>= f) := by
  intro s b s' h
  obtain ⟨a, t, h₁, h₂⟩ := bind_eq_some.mp h
  exact htrans (hx h₁) (hf a h₂)

theorem Leads.pure (hrefl : ∀ s, R s s) (a : α) : Leads R (pure a) := by
  intro s b s' h
  cases h
  exact hrefl s

theorem Leads.get (hrefl : ∀ s, R s s) : Leads R (get : StateT σ Option σ) := by
  intro s b s' h
  cases h
  exact hrefl s

theorem Leads.failure : Leads R (failure : StateT σ Option α) := by
  intro s b s' h
  cases h

theorem Leads.lift (hrefl : ∀ s, R s s) (o : Option α) : Leads R (liftM o : StateT σ Option α) := by
  intro s b s' h
  obtain ⟨-, rfl⟩ := lift_eq_some.mp h
  exact hrefl s'

theorem Leads.modify {g : σ → σ} (hg : ∀ s, R s (g s)) :
    Leads R (modify g : StateT σ Option PUnit) := by
  intro s b s' h
  cases h
  exact hg s

end Leads

section Yields

variable {P : α → Prop} {Q : β → Prop}

/-- Every run has a result with the property. -/
def Yields (P : α → Prop) (x : StateT σ Option α) : Prop := ∀ ⦃s a s'⦄, x s = some (a, s') → P a

theorem Yields.bind (hx : Yields P x) (hf : ∀ a, P a → Yields Q (f a)) : Yields Q (x >>= f) := by
  intro s b s' h
  obtain ⟨a, t, h₁, h₂⟩ := bind_eq_some.mp h
  exact hf a (hx h₁) h₂

/-- Nothing is known of the first result. -/
theorem Yields.behind (hf : ∀ a, Yields Q (f a)) : Yields Q (x >>= f) := by
  intro s b s' h
  obtain ⟨a, t, -, h₂⟩ := bind_eq_some.mp h
  exact hf a h₂

theorem Yields.pure (h : P a) : Yields P (pure a : StateT σ Option α) := by
  intro s b s' hrun
  cases hrun
  exact h

theorem Yields.failure : Yields P (failure : StateT σ Option α) := by
  intro s b s' h
  cases h

end Yields

end Partial
