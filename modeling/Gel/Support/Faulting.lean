import Mathlib.Order.Defs.Unbundled
import Mathlib.Data.List.Basic

/-!
# Faulting — stateful computations that may fail

What the operations of `StateT σ (Except ε)` do from a state, and relations that every run of a
computation stays in.

* `bind_run`, `bind_eq_ok`: a sequence run forwards, and a run of one taken apart.
* `Steps R x`: whenever `x` returns, the state it was run from and the state it leaves are related.
  For a preorder it follows the structure of the computation.
* `Ensures P x Q`: from a state in `P`, whenever `x` returns, its result and state are in `Q`.
-/

namespace Faulting

variable {σ ε α β : Type} {x : StateT σ (Except ε) α} {f : α → StateT σ (Except ε) β}
  {s s' : σ} {a : α}

/-- A result of a sequence is one of its second part, from a result of its first. -/
theorem result_bind_eq_ok {y : Except ε α} {g : α → Except ε β} {b : β} :
    y >>= g = .ok b ↔ ∃ a, y = .ok a ∧ g a = .ok b := by
  cases y with
  | error e => exact ⟨nofun, nofun⟩
  | ok a =>
      refine ⟨fun h => ⟨a, rfl, h⟩, fun ⟨a', ha, h⟩ => ?_⟩
      cases ha
      exact h

theorem result_map_eq_ok {y : Except ε α} {g : α → β} {b : β} :
    g <$> y = .ok b ↔ ∃ a, y = .ok a ∧ g a = b := by
  cases y <;> simp [Functor.map, Except.map]

theorem result_mapM_ok_iff {g : α → Except ε β} {l : List α} :
    (∃ r, l.mapM g = .ok r) ↔ ∀ x ∈ l, ∃ y, g x = .ok y := by
  induction l with
  | nil => simp [Pure.pure, Except.pure]
  | cons x l ih =>
      rw [List.forall_mem_cons, ← ih, List.mapM_cons]
      rcases g x with e | y
      · simp [Bind.bind, Except.bind]
      · rcases l.mapM g with e | r <;> simp [Bind.bind, Except.bind, Pure.pure, Except.pure]

theorem result_mapM_eq_ok {g : α → Except ε β} {k : α → β} {l : List α}
    (h : ∀ x ∈ l, g x = .ok (k x)) : l.mapM g = .ok (l.map k) := by
  induction l with
  | nil => rfl
  | cons x l ih =>
      rw [List.forall_mem_cons] at h
      rw [List.mapM_cons, h.1, ih h.2]
      rfl

theorem bind_run (h : x s = .ok (a, s')) : (x >>= f) s = f a s' := by
  change (x s).bind _ = _
  rw [h]
  rfl

theorem bind_run_error {e : ε} (h : x s = .error e) : (x >>= f) s = .error e := by
  change (x s).bind _ = _
  rw [h]
  rfl

theorem bind_eq_ok {r : β × σ} :
    (x >>= f) s = .ok r ↔ ∃ a s', x s = .ok (a, s') ∧ f a s' = .ok r := by
  change (x s).bind _ = _ ↔ _
  cases h : x s with
  | error e => simp [Except.bind]
  | ok y =>
      obtain ⟨a, t⟩ := y
      constructor
      · intro h
        exact ⟨a, t, rfl, h⟩
      · rintro ⟨a', t', h, h'⟩
        cases h
        exact h'

theorem pure_run (a : α) (s : σ) : (pure a : StateT σ (Except ε) α) s = .ok (a, s) := rfl

theorem get_run (s : σ) : (get : StateT σ (Except ε) σ) s = .ok (s, s) := rfl

theorem set_run (s s' : σ) : (set s' : StateT σ (Except ε) PUnit) s = .ok (⟨⟩, s') := rfl

theorem modify_run (g : σ → σ) (s : σ) :
    (modify g : StateT σ (Except ε) PUnit) s = .ok (⟨⟩, g s) := rfl

theorem map_run {g : α → β} (h : x s = .ok (a, s')) : (g <$> x) s = .ok (g a, s') := by
  change (x s).bind _ = _
  rw [h]
  rfl

theorem map_eq_ok {g : α → β} {b : β} :
    (g <$> x) s = .ok (b, s') ↔ ∃ a, x s = .ok (a, s') ∧ g a = b := by
  change (x s).bind _ = _ ↔ _
  cases h : x s with
  | error e => simp [Except.bind]
  | ok y =>
      obtain ⟨a, t⟩ := y
      constructor
      · intro h
        cases h
        exact ⟨a, rfl, rfl⟩
      · rintro ⟨a', h, rfl⟩
        cases h
        rfl

/-- A computation without a state. -/
theorem lift_eq_ok {y : Except ε α} : (liftM y : StateT σ (Except ε) α) s = .ok (a, s') ↔
    y = .ok a ∧ s' = s := by
  cases y with
  | error e =>
      change (Except.error e : Except ε (α × σ)) = _ ↔ _
      simp
  | ok b =>
      change (Except.ok (b, s) : Except ε (α × σ)) = _ ↔ _
      simp [eq_comm]

theorem lift_run {y : Except ε α} (h : y = .ok a) :
    (liftM y : StateT σ (Except ε) α) s = .ok (a, s) :=
  lift_eq_ok.mpr ⟨h, rfl⟩

/-! ### Relations -/

/-- Whenever `x` returns, the states before and after are related. -/
def Steps (R : σ → σ → Prop) (x : StateT σ (Except ε) α) : Prop :=
  ∀ ⦃s a s'⦄, x s = .ok (a, s') → R s s'

namespace Steps

variable {R : σ → σ → Prop}

theorem throw (e : ε) : Steps R (throw e : StateT σ (Except ε) α) := by
  intro s a s' h
  cases h

theorem map {g : α → β} (hx : Steps R x) : Steps R (g <$> x) := by
  intro s b s' h
  obtain ⟨a, h, -⟩ := map_eq_ok.mp h
  exact hx h

theorem modify {g : σ → σ} (h : ∀ s, R s (g s)) :
    Steps R (modify g : StateT σ (Except ε) PUnit) := by
  intro s a s' hs
  cases hs
  exact h s

theorem modifyGet {g : σ → α × σ} (h : ∀ s, R s (g s).2) :
    Steps R (modifyGet g : StateT σ (Except ε) α) := by
  intro s a s' hs
  obtain rfl : (g s).2 = s' := congrArg Prod.snd (Except.ok.inj hs)
  exact h s

/-- A computation that reads its state and then runs: what it does may use the state. -/
theorem getBind {f : σ → StateT σ (Except ε) α}
    (h : ∀ s a s', f s s = .ok (a, s') → R s s') : Steps R (MonadState.get >>= f) := by
  intro s a s' hs
  exact h s a s' hs

variable [IsPreorder σ R]

theorem pure (a : α) : Steps R (pure a : StateT σ (Except ε) α) := by
  intro s a' s' h
  cases h
  exact refl_of R s

theorem bind (hx : Steps R x) (hf : ∀ a, Steps R (f a)) : Steps R (x >>= f) := by
  intro s b s' h
  obtain ⟨a, t, h₁, h₂⟩ := bind_eq_ok.mp h
  exact trans_of R (hx h₁) (hf a h₂)

theorem get : Steps R (get : StateT σ (Except ε) σ) := by
  intro s a s' h
  cases h
  exact refl_of R s

theorem lift (y : Except ε α) : Steps R (liftM y : StateT σ (Except ε) α) := by
  intro s a s' h
  obtain ⟨-, rfl⟩ := lift_eq_ok.mp h
  exact refl_of R s'

theorem mapM {l : List α} (hf : ∀ a, Steps R (f a)) : Steps R (l.mapM f) := by
  induction l with
  | nil =>
      rw [List.mapM_nil]
      exact pure _
  | cons a l ih =>
      rw [List.mapM_cons]
      exact bind (hf a) fun _ => bind ih fun _ => pure _

end Steps

/-! ### Pre- and postconditions -/

/-- Partial correctness. -/
def Ensures (P : σ → Prop) (x : StateT σ (Except ε) α) (Q : α → σ → Prop) : Prop :=
  ∀ ⦃s a s'⦄, P s → x s = .ok (a, s') → Q a s'

namespace Ensures

variable {P P' : σ → Prop} {Q Q' : α → σ → Prop} {S : β → σ → Prop}

theorem pure (h : ∀ {s}, P s → Q a s) : Ensures P (pure a : StateT σ (Except ε) α) Q := by
  intro s a' s' hs hx
  cases hx
  exact h hs

theorem bind (hx : Ensures P x Q) (hf : ∀ a, Ensures (Q a) (f a) S) : Ensures P (x >>= f) S := by
  intro s b s' hs h
  obtain ⟨a, t, h₁, h₂⟩ := bind_eq_ok.mp h
  exact hf a (hx hs h₁) h₂

theorem map {g : α → β} (hx : Ensures P x fun a s => S (g a) s) : Ensures P (g <$> x) S := by
  intro s b s' hs h
  obtain ⟨a, ha, rfl⟩ := map_eq_ok.mp h
  exact hx hs ha

theorem throw (e : ε) : Ensures P (throw e : StateT σ (Except ε) α) Q := by
  intro s a s' _ h
  cases h

theorem modify {g : σ → σ} {Q : σ → Prop} (h : ∀ {s}, P s → Q (g s)) :
    Ensures P (modify g : StateT σ (Except ε) PUnit) fun _ => Q := by
  intro s a s' hs hx
  cases hx
  exact h hs

theorem of_pre (hx : Ensures P x Q) (h : ∀ {s}, P' s → P s) : Ensures P' x Q :=
  fun _ _ _ hs hx' => hx (h hs) hx'

end Ensures

end Faulting
