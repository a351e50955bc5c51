import Gel.Machine

/-!
# Legs — runs cut at their jumps

A leg of a run executes the operations from one position up to another and then the operation that
lies there, a jump.  `Follows` is a run through given legs, one after the other.

* `Leg.stay`, `Leg.forward`, `Leg.back`: where the jump of a leg leads.
* `Leg.unique`: a leg leads to one place.
-/

namespace Gel

open Interpreter Layout

/-- Executing what lies from `lo` to `hi` and then the operation at `hi` leads to `q`. -/
def Leg (host : Host) (call : CallWithNArgs) (a : Activation) (lo hi : Nat) (s : List Value)
    (m : Memory) (q : Nat) (s' : List Value) (m' : Memory) : Prop :=
  ∃ s₁ m₁, Passes host call a lo s m hi s₁ m₁ ∧
    Steps host call a.region (a.state hi s₁ m₁) hi (a.state q s' m')

section Legs

variable {host : Host} {call : CallWithNArgs} {a : Activation} {m m₁ m₂ : Memory}
  {s s₁ s₂ : List Value} {lo hi q q₁ q₂ : Nat} {op : Op} {b : BlockId} {xs ys zs ws : List Item}

/-- A jump that does not jump, wherever it would lead. -/
theorem Loaded.step_stay {rt : Runtime} (h : Loaded (xs ++ .jump op b :: ys) a.region m)
    (hop : op ∈ Bytecode.jumpOps)
    (hjump : ∀ target, jump a.region op target (a.state (size xs + 9) s m) = .ok rt) :
    Steps host call a.region (a.state (size xs) s m) (size xs) rt := by
  obtain ⟨w, -, -, -, hdec⟩ := h.decode_jump hop
  refine ⟨rfl, ?_⟩
  rw [step, Loaded.fetch_of_decode hdec]
  simp only [reduceCtorEq, if_false, exec]
  exact (congrArg (Outcome.running <$> ·) (hjump _)).trans rfl

theorem Leg.stay (s' : List Value) (m' : Memory)
    (hp : Passes host call a lo s m (size xs) s₁ m₁)
    (h : Loaded (xs ++ .jump op b :: ys) a.region m₁) (hop : op ∈ Bytecode.jumpOps)
    (hjump : ∀ target, jump a.region op target (a.state (size xs + 9) s₁ m₁)
      = .ok (a.state (size xs + 9) s' m')) :
    Leg host call a lo (size xs) s m (size xs + 9) s' m' :=
  ⟨s₁, m₁, hp, h.step_stay hop hjump⟩

theorem Leg.forward (s' : List Value) (m' : Memory)
    (hp : Passes host call a lo s m (size xs) s₁ m₁)
    (h : Loaded (xs ++ .jump op b :: (zs ++ .bind b :: ws)) a.region m₁)
    (hop : op ∈ Bytecode.jumpOps) (hxs : Item.bind b ∉ xs) (hzs : Item.bind b ∉ zs)
    (hjump : ∀ target, jump a.region op target (a.state (size xs + 9) s₁ m₁)
      = (a.state (size xs + 9) s' m').jumpTo a.region target) :
    Leg host call a lo (size xs) s m (size (xs ++ .jump op b :: zs)) s' m' := by
  refine ⟨s₁, m₁, hp, h.step_forward hop hxs hzs ?_⟩
  rw [hjump, Activation.jumpTo_state _ _ _ _ rfl]

theorem Leg.back (s' : List Value) (m' : Memory)
    (hp : Passes host call a lo s m (size xs) s₁ m₁)
    (h : Loaded (xs ++ .jump op b :: ys) a.region m₁)
    (hop : op ∈ Bytecode.jumpOps) (hb : track b xs = .bound q) (hq : q ≤ size xs)
    (hjump : ∀ target, jump a.region op target (a.state (size xs + 9) s₁ m₁)
      = (a.state (size xs + 9) s' m').jumpTo a.region target) :
    Leg host call a lo (size xs) s m (q + 1) s' m' := by
  refine ⟨s₁, m₁, hp, h.step_back hop hb hq ?_⟩
  rw [hjump, Activation.jumpTo_state _ _ _ _ rfl]

/-- A leg that leads on is a run through the code. -/
theorem Leg.passes (h : Leg host call a lo hi s m q s₂ m₂) (hq : hi < q) :
    Passes host call a lo s m q s₂ m₂ := by
  obtain ⟨s₁, m₁, hp, hs⟩ := h
  exact hp.trans (.single hs hq)

/-- **A leg leads to one place.** -/
theorem Leg.unique (h : Leg host call a lo hi s m q₁ s₁ m₁)
    (h' : Leg host call a lo hi s m q₂ s₂ m₂) : q₁ = q₂ ∧ s₁ = s₂ ∧ m₁ = m₂ := by
  obtain ⟨t₁, n₁, ⟨ps, hrun, hps⟩, hs⟩ := h
  obtain ⟨t₂, n₂, ⟨ps', hrun', hps'⟩, hs'⟩ := h'
  have hstate : a.state q₁ s₁ m₁ = a.state q₂ s₂ m₂ :=
    (hrun.trans (.single hs)).first_unique (steps_deterministic host call a.region)
      (hrun'.trans (.single hs')) (fun hm => absurd (hps _ hm).2 (Nat.lt_irrefl _))
      fun hm => absurd (hps' _ hm).2 (Nat.lt_irrefl _)
  simpa [Activation.state, and_comm, and_assoc, and_left_comm] using hstate

end Legs

end Gel
