import Gel.Support.Partial

/-!
# Worlds — what is known of a state and only grows

A world is what is known of the state of a computation that may have no result; one comes from a
world to greater ones only.  `𝓦.From w x Q` says that from every state of the world `w`, whenever
`x` returns, the state it leaves is one of a greater world, and its result is in `Q` there.

* `From.bind`: a sequence takes the second part from the world that the first one leaves.
* `From.quiet`: a computation that no world notices.
-/

/-- Worlds of type `W`, their order, and the states of each. -/
structure Worlds (σ W : Type) where
  le : W → W → Prop
  holds : W → σ → Prop
  refl : ∀ w, le w w
  trans : ∀ {u v w}, le u v → le v w → le u w

namespace Worlds

variable {σ W α β : Type} {𝓦 : Worlds σ W} {w : W} {x : StateT σ Option α} {P Q : α → W → Prop}

/-- From a state of `w`, every run of `x` leaves a state of a greater world, with a result in
`Q`. -/
def From (𝓦 : Worlds σ W) (w : W) (x : StateT σ Option α) (Q : α → W → Prop) : Prop :=
  ∀ ⦃s a s'⦄, 𝓦.holds w s → x s = some (a, s') → ∃ w', 𝓦.le w w' ∧ 𝓦.holds w' s' ∧ Q a w'

namespace From

theorem pure {a : α} (h : Q a w) : 𝓦.From w (pure a) Q := by
  intro s b s' hs hrun
  cases hrun
  exact ⟨w, 𝓦.refl w, hs, h⟩

theorem failure : 𝓦.From w (failure : StateT σ Option α) Q := by
  intro s a s' _ hrun
  cases hrun

theorem bind {f : α → StateT σ Option β} {Q : β → W → Prop} (hx : 𝓦.From w x P)
    (hf : ∀ a w', 𝓦.le w w' → P a w' → 𝓦.From w' (f a) Q) : 𝓦.From w (x >>= f) Q := by
  intro s b s' hs hrun
  obtain ⟨a, t, hx', hf'⟩ := Partial.bind_eq_some.mp hrun
  obtain ⟨w₁, hle₁, ht, hP⟩ := hx hs hx'
  obtain ⟨w₂, hle₂, hs', hQ⟩ := hf a w₁ hle₁ hP ht hf'
  exact ⟨w₂, 𝓦.trans hle₁ hle₂, hs', hQ⟩

/-- What follows a `get` may use that it starts in the state it has got. -/
theorem get {f : σ → StateT σ Option β} {Q : β → W → Prop}
    (hf : ∀ s, 𝓦.holds w s → 𝓦.From w (f s) Q) : 𝓦.From w (get >>= f) Q := by
  intro s b s' hs hrun
  exact hf s hs hs hrun

/-- Nothing that a world says depends on what the computation does. -/
theorem quiet (hx : ∀ ⦃s a s'⦄, x s = some (a, s') → 𝓦.holds w s → 𝓦.holds w s') :
    𝓦.From w x fun _ w' => w' = w := by
  intro s a s' hs hrun
  exact ⟨w, 𝓦.refl w, hx hrun hs, rfl⟩

theorem weaken (h : 𝓦.From w x P) (hPQ : ∀ a w', 𝓦.le w w' → P a w' → Q a w') :
    𝓦.From w x Q := by
  intro s a s' hs hrun
  obtain ⟨w', hle, hs', hP⟩ := h hs hrun
  exact ⟨w', hle, hs', hPQ a w' hle hP⟩

end From

end Worlds
