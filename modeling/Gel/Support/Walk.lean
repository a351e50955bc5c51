import Mathlib.Data.List.Induction

/-!
# Walk — words through a graph of labelled edges

`walk edge r w` follows the edges with the letters of `w` from the node `r`.  In a tree every node
is reached by one word at most.

* `walk_addLeaf`: a new leaf is reached by its own word, and every other word goes where it went.
* `IsTree.addLeaf`: a tree with a new leaf is a tree.
-/

namespace LabelledGraph

variable {P κ : Type}

/-- Follow the letters of a word. -/
def walk (edge : P → κ → Option P) : P → List κ → Option P
  | p, [] => some p
  | p, c :: cs => (edge p c).bind fun q => walk edge q cs

/-- The edges, and one from `p` to `q`. -/
def addEdge [DecidableEq P] [DecidableEq κ] (edge : P → κ → Option P) (p : P) (c : κ) (q : P) :
    P → κ → Option P := fun p' c' => if p' = p ∧ c' = c then some q else edge p' c'

/-- Every node is reached from `r` by one word at most. -/
def IsTree (edge : P → κ → Option P) (r : P) : Prop :=
  ∀ ⦃w w' p⦄, walk edge r w = some p → walk edge r w' = some p → w = w'

section

variable {edge edge' : P → κ → Option P} {r p q : P} {c : κ} {w₀ : List κ}

theorem walk_append (p : P) (w w' : List κ) :
    walk edge p (w ++ w') = (walk edge p w).bind fun q => walk edge q w' := by
  induction w generalizing p with
  | nil => rfl
  | cons d w ih => simp [walk, ih, Option.bind_assoc]

theorem walk_snoc (p : P) (w : List κ) (d : κ) :
    walk edge p (w ++ [d]) = (walk edge p w).bind fun q => edge q d := by
  rw [walk_append]
  congr 1
  funext q
  simp [walk]

theorem walk_congr (h : ∀ p c, edge' p c = edge p c) (p : P) (w : List κ) :
    walk edge' p w = walk edge p w := by
  obtain rfl : edge' = edge := funext fun p => funext fun c => h p c
  rfl

variable [DecidableEq P] [DecidableEq κ]

/-- **A new leaf**, where no edge was. -/
theorem walk_addLeaf (ht : IsTree edge r) (hp : walk edge r w₀ = some p) (hnone : edge p c = none)
    (hleaf : ∀ d, edge q d = none) (hq : ∀ w, walk edge r w ≠ some q) (w : List κ) :
    walk (addEdge edge p c q) r w = if w = w₀ ++ [c] then some q else walk edge r w := by
  induction w using List.reverseRecOn with
  | nil =>
      have hne : [] ≠ w₀ ++ [c] := by simp
      rw [if_neg hne]
      rfl
  | append_singleton u d ih =>
      rw [walk_snoc, walk_snoc, ih]
      by_cases hu : u = w₀ ++ [c]
      · -- the new leaf has no edges, and nothing was behind it
        have hqp : ¬ (q = p ∧ d = c) := by
          rintro ⟨rfl, -⟩
          exact hq _ hp
        have hne : u ++ [d] ≠ w₀ ++ [c] := by
          intro h
          have hw : u = w₀ := (List.append_inj' h rfl).1
          rw [hw] at hu
          simp at hu
        have hbehind : walk edge r u = none := by
          rw [hu, walk_snoc, hp]
          exact hnone
        rw [if_pos hu, if_neg hne, hbehind]
        simp [addEdge, hqp, hleaf]
      · rw [if_neg hu]
        cases hx : walk edge r u with
        | none =>
            have hne : u ++ [d] ≠ w₀ ++ [c] := by
              intro h
              rw [(List.append_inj' h rfl).1, hp] at hx
              cases hx
            rw [if_neg hne]
            rfl
        | some x =>
            by_cases hxd : x = p ∧ d = c
            · obtain ⟨rfl, rfl⟩ := hxd
              have hw : u = w₀ := ht hx hp
              simp [addEdge, hw]
            · have hne : u ++ [d] ≠ w₀ ++ [c] := by
                intro h
                obtain ⟨hw, hd⟩ := List.append_inj' h rfl
                rw [hw, hp] at hx
                exact hxd ⟨(Option.some.inj hx).symm, List.singleton_inj.mp hd⟩
              rw [if_neg hne]
              simp [addEdge, hxd]

theorem IsTree.addLeaf (ht : IsTree edge r) (hp : walk edge r w₀ = some p) (hnone : edge p c = none)
    (hleaf : ∀ d, edge q d = none) (hq : ∀ w, walk edge r w ≠ some q) :
    IsTree (addEdge edge p c q) r := by
  intro w w' x h h'
  rw [walk_addLeaf ht hp hnone hleaf hq] at h h'
  by_cases hw : w = w₀ ++ [c] <;> by_cases hw' : w' = w₀ ++ [c]
  · rw [hw, hw']
  · rw [if_pos hw] at h
    rw [if_neg hw'] at h'
    exact absurd (h'.trans h.symm) (hq w')
  · rw [if_neg hw] at h
    rw [if_pos hw'] at h'
    exact absurd (h.trans h'.symm) (hq w)
  · rw [if_neg hw] at h
    rw [if_neg hw'] at h'
    exact ht h h'

end

end LabelledGraph
