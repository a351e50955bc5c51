import Mathlib.Data.List.Induction

/-!
# Trie — a map from words to values, one letter at a time

A node holds the value of the word that ends there, if one does, and its children by letter.  The
first child of a letter counts.

* `find_insert`: an insertion changes the value of its own word and of no other.
* `find_ofList`: in a trie made of a list, a word has the value the list registers last for it.
-/

inductive Trie (κ α : Type) where
  | node (value : Option α) (children : List (κ × Trie κ α))

namespace Trie

variable {κ α : Type} [DecidableEq κ]

def empty : Trie κ α := node none []

/-- The value of the word that ends here. -/
def value : Trie κ α → Option α
  | node v _ => v

def children : Trie κ α → List (κ × Trie κ α)
  | node _ cs => cs

def child? (t : Trie κ α) (k : κ) : Option (Trie κ α) := t.children.lookup k

def insert : List κ → α → Trie κ α → Trie κ α
  | [], a, node _ cs => node (some a) cs
  | k :: ks, a, node v cs => node v ((k, insert ks a ((cs.lookup k).getD empty)) :: cs)

/-- The node a word leads to. -/
def descend : Option (Trie κ α) → List κ → Option (Trie κ α)
  | t, [] => t
  | t, k :: ks => descend (t.bind (child? · k)) ks

/-- The value of a word. -/
def find (t : Trie κ α) (ks : List κ) : Option α := (descend (some t) ks).bind value

/-- The words of a list with their values; a later one replaces an earlier one. -/
def ofList (l : List (List κ × α)) : Trie κ α := l.foldl (fun t e => insert e.1 e.2 t) empty

@[simp] theorem descend_none (ks : List κ) : descend (none : Option (Trie κ α)) ks = none := by
  induction ks with
  | nil => rfl
  | cons k ks ih => simpa [descend] using ih

theorem descend_append (t : Option (Trie κ α)) (ks ls : List κ) :
    descend t (ks ++ ls) = descend (descend t ks) ls := by
  induction ks generalizing t with
  | nil => rfl
  | cons k ks ih => simpa [descend] using ih _

@[simp] theorem find_empty (ks : List κ) : (empty : Trie κ α).find ks = none := by
  cases ks with
  | nil => rfl
  | cons k ks => simp [find, descend, child?, empty, children]

theorem find_cons (t : Trie κ α) (k : κ) (ks : List κ) :
    t.find (k :: ks) = ((t.child? k).getD empty).find ks := by
  cases h : t.child? k with
  | none =>
      have he := find_empty (α := α) ks
      simp only [find] at he
      simp [find, descend, h, he]
  | some c => simp [find, descend, h]

theorem find_insert (ks ls : List κ) (a : α) (t : Trie κ α) :
    (t.insert ks a).find ls = if ls = ks then some a else t.find ls := by
  induction ks generalizing t ls with
  | nil =>
      obtain ⟨v, cs⟩ := t
      cases ls with
      | nil => rfl
      | cons l ls => rw [find_cons, find_cons, if_neg (List.cons_ne_nil l ls)]; rfl
  | cons k ks ih =>
      obtain ⟨v, cs⟩ := t
      cases ls with
      | nil => rfl
      | cons l ls =>
          rw [find_cons, find_cons]
          by_cases hl : l = k
          · subst hl
            simp [insert, child?, children, ih]
          · have hb : (l == k) = false := by simpa using hl
            simp [insert, child?, children, List.lookup_cons, hb, hl]

theorem find_ofList (l : List (List κ × α)) (ks : List κ) :
    (ofList l).find ks = l.reverse.lookup ks := by
  induction l using List.reverseRecOn with
  | nil => simp [ofList]
  | append_singleton l e ih =>
      obtain ⟨w, a⟩ := e
      rw [ofList, List.foldl_append, List.foldl_cons, List.foldl_nil, find_insert, ← ofList, ih,
        List.reverse_append]
      by_cases hk : ks = w
      · simp [hk]
      · have hb : (ks == w) = false := by simpa using hk
        simp [List.lookup_cons, hb, hk]

end Trie
