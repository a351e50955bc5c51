import Mathlib.Logic.Function.Basic

/-!
# Window — a range of a memory as a list

`window m base n`: the contents of the `n` cells from `base` on.

* `window_update_mem`, `window_update_of_notMem`: a write inside and outside the window.
* `window_writeAll`, `window_writeAll_of_disjoint`: writing a list from `base` on, and elsewhere.
-/

variable {α : Type} {m m' : Nat → α} {base n i a : Nat} {v : α}

/-- The contents of `n` cells. -/
def window (m : Nat → α) (base n : Nat) : List α := (List.range n).map fun i => m (base + i)

/-- The cell is one of the window. -/
def InWindow (base n a : Nat) : Prop := base ≤ a ∧ a < base + n

instance : Decidable (InWindow base n a) := inferInstanceAs (Decidable (_ ∧ _))

@[simp]
theorem length_window : (window m base n).length = n := by simp [window]

@[simp]
theorem getElem_window (h : i < (window m base n).length) :
    (window m base n)[i] = m (base + i) := by
  simp [window]

theorem window_succ : window m base (n + 1) = m base :: window m (base + 1) n := by
  rw [window, List.range_succ_eq_map, List.map_cons, List.map_map, window]
  simp only [Function.comp_def, Nat.add_zero, Nat.succ_eq_add_one, Nat.add_comm, Nat.add_left_comm]

theorem getElem?_window (h : i < n) : (window m base n)[i]? = some (m (base + i)) := by
  simp [window, h]

theorem inWindow_add (h : i < n) : InWindow base n (base + i) :=
  ⟨Nat.le_add_right base i, Nat.add_lt_add_left h base⟩

theorem exists_of_inWindow (h : InWindow base n a) : ∃ i, i < n ∧ a = base + i :=
  ⟨a - base, Nat.sub_lt_left_of_lt_add h.1 h.2, (Nat.add_sub_cancel' h.1).symm⟩

/-- A window shows its cells only. -/
theorem window_congr (h : ∀ a, InWindow base n a → m a = m' a) :
    window m base n = window m' base n := by
  rw [window, window, List.map_inj_left]
  intro i hi
  exact h _ (inWindow_add (List.mem_range.mp hi))

theorem mem_window {x : α} : x ∈ window m base n ↔ ∃ a, InWindow base n a ∧ m a = x := by
  rw [window, List.mem_map]
  constructor
  · rintro ⟨i, hi, rfl⟩
    exact ⟨base + i, inWindow_add (List.mem_range.mp hi), rfl⟩
  · rintro ⟨a, ha, rfl⟩
    obtain ⟨i, hi, rfl⟩ := exists_of_inWindow ha
    exact ⟨i, List.mem_range.mpr hi, rfl⟩

/-- A write to a cell of the window; a position behind it is none of the list either. -/
theorem window_update_mem :
    window (Function.update m (base + i) v) base n = (window m base n).set i v := by
  apply List.ext_getElem
  · simp
  intro k hk hk'
  rw [getElem_window, List.getElem_set, getElem_window]
  by_cases hik : i = k
  · subst hik
    simp
  · rw [if_neg hik, Function.update_of_ne]
    exact fun h => hik (Nat.add_left_cancel h).symm

/-- A write to another cell. -/
theorem window_update_of_notMem (h : ¬ InWindow base n a) :
    window (Function.update m a v) base n = window m base n := by
  refine window_congr fun b hb => Function.update_of_ne ?_ _ _
  rintro rfl
  exact h hb

/-- Write a list from `base` on. -/
def writeAll (m : Nat → α) (base : Nat) : List α → Nat → α
  | [] => m
  | v :: vs => writeAll (Function.update m base v) (base + 1) vs

/-- Only the window of the list is written. -/
theorem writeAll_of_notMem {vs : List α} : ∀ {m : Nat → α} {base : Nat},
    ¬ InWindow base vs.length a → writeAll m base vs a = m a := by
  induction vs with
  | nil =>
      intro m base h
      rfl
  | cons v vs ih =>
      intro m base h
      have hne : a ≠ base := by
        rintro rfl
        exact h ⟨Nat.le_refl a, Nat.lt_add_of_pos_right (Nat.succ_pos _)⟩
      rw [writeAll, ih, Function.update_of_ne hne]
      rintro ⟨hle, hlt⟩
      refine h ⟨Nat.le_of_succ_le hle, ?_⟩
      rwa [List.length_cons, Nat.add_comm vs.length, ← Nat.add_assoc]

/-- What is written is what the window shows. -/
theorem window_writeAll {vs : List α} : ∀ {m : Nat → α} {base : Nat},
    window (writeAll m base vs) base vs.length = vs := by
  induction vs with
  | nil =>
      intro m base
      rfl
  | cons v vs ih =>
      intro m base
      rw [writeAll, List.length_cons, window_succ, ih, writeAll_of_notMem, Function.update_self]
      exact fun h => Nat.not_succ_le_self base h.1

/-- A list written elsewhere. -/
theorem window_writeAll_of_disjoint {vs : List α}
    (h : base + n ≤ a ∨ a + vs.length ≤ base) :
    window (writeAll m a vs) base n = window m base n := by
  apply window_congr
  intro b hb
  apply writeAll_of_notMem
  intro hin
  rcases h with h | h
  · exact Nat.lt_irrefl b (Nat.lt_of_lt_of_le hb.2 (Nat.le_trans h hin.1))
  · exact Nat.lt_irrefl b (Nat.lt_of_lt_of_le hin.2 (Nat.le_trans h hb.1))
