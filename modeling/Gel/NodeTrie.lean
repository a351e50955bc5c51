import Gel.Lexer
import Gel.Support.Walk
import Gel.Object

/-!
# NodeTrie — tries of nodes with an array of children

`trie.h` and `KeywordTrie`: nodes with a pointer for each letter of the alphabet, an end-of-word
flag that says whether a word ends there, and its value.  Here the nodes are cells, and a pointer is
the position of one.

* `Represents`: the nodes reached from the root form a tree, and the words that end in it are those
  of a map.
* `search_run`: after any calls of `Insert` and `SearchOrCreate` the searches answer as a map does.
* `search_keywords`: the trie that the keywords are inserted in answers as `keywords` does.
-/

namespace Gel

open LabelledGraph

/-- A `Node*`. -/
abbrev NodePtr := Nat

/-- `trie::Node`, of an alphabet of `n` letters. -/
structure TrieNode (n : Nat) (α : Type) where
  children : Fin n → Option NodePtr := fun _ => none
  epsilon : Bool := false
  value : α

/-- `new Node()`. -/
def TrieNode.new (n : Nat) {α : Type} (null : α) : TrieNode n α := { value := null }

/-- The nodes that have been allocated. -/
abbrev TrieNodes (n : Nat) (α : Type) := List (TrieNode n α)

namespace TrieNodes

variable {n : Nat} {α σ : Type}

/-- What a pointer points to. -/
def deref (h : TrieNodes n α) (p : NodePtr) : Except Fault (TrieNode n α) :=
  match h[p]? with
  | some x => .ok x
  | none => .error .undefined

/-- `children.at(c)`. -/
def childAt (x : TrieNode n α) (c : Char) : Except Fault (Option NodePtr) :=
  if hc : c.toNat < n then .ok (x.children ⟨c.toNat, hc⟩) else .error (.thrown "array::at")

/-- `children.at(c) = q`. -/
def setChild (x : TrieNode n α) (c : Char) (q : NodePtr) : TrieNode n α :=
  { x with children := fun i => if i.val = c.toNat then some q else x.children i }

/-- `current->children.at(c) = new Node()`. -/
def addChild (null : α) (h : TrieNodes n α) (current : NodePtr) (x : TrieNode n α) (c : Char) :
    TrieNodes n α := (h ++ [TrieNode.new n null]).set current (setChild x c h.length)

/-- The loop of `Insert` and `SearchOrCreate`: the node of a word, with the nodes that are missing on
the way. -/
def walkOrCreate (null : α) : List Char → NodePtr → TrieNodes n α →
    Except Fault (NodePtr × TrieNodes n α)
  | [], current, h => .ok (current, h)
  | c :: cs, current, h => do
      let x ← h.deref current
      match ← childAt x c with
      | some q => walkOrCreate null cs q h
      | none => walkOrCreate null cs h.length (h.addChild null current x c)

/-- `trie::Insert`. -/
def insert (null : α) (root : NodePtr) (key : List Char) (value : α) (h : TrieNodes n α) :
    Except Fault (TrieNodes n α) := do
  let (current, h) ← h.walkOrCreate null key root
  let x ← h.deref current
  return h.set current { x with value, epsilon := true }

/-- `trie::SearchOrCreate`; the supplier may change the rest of the world. -/
def searchOrCreate (null : α) (root : NodePtr) (key : List Char)
    (supplier : List Char → σ → α × σ) (h : TrieNodes n α) (s : σ) :
    Except Fault (α × TrieNodes n α × σ) := do
  let (current, h) ← h.walkOrCreate null key root
  let x ← h.deref current
  if !x.epsilon then
    let (value, s) := supplier key s
    return (value, h.set current { x with value, epsilon := true }, s)
  else return (x.value, h, s)

/-- `trie::Search`: whether the word was found, and `*result`. -/
def search (null : α) : List Char → NodePtr → TrieNodes n α → Except Fault (Bool × α)
  | [], current, h => do
      let x ← h.deref current
      if !x.epsilon then return (false, null) else return (true, x.value)
  | c :: cs, current, h => do
      let x ← h.deref current
      match ← childAt x c with
      | none => return (false, null)
      | some q => search null cs q h

/-! ### Words -/

/-- The edge of a letter. -/
def edge (h : TrieNodes n α) (p : NodePtr) (c : Char) : Option NodePtr :=
  h[p]?.bind fun x => if hc : c.toNat < n then x.children ⟨c.toNat, hc⟩ else none

/-- The value of the word that ends at a node. -/
def answer (h : TrieNodes n α) (p : NodePtr) : Option α :=
  h[p]?.bind fun x => if x.epsilon then some x.value else none

/-- The value of a word. -/
def find (h : TrieNodes n α) (root : NodePtr) (w : List Char) : Option α :=
  (walk h.edge root w).bind h.answer

/-- Letters of the alphabet. -/
def Spells (n : Nat) (w : List Char) : Prop := ∀ c ∈ w, c.toNat < n

instance (n : Nat) (w : List Char) : Decidable (Spells n w) :=
  decidable_of_iff _ (@List.all_iff_forall_prop _ (fun c => c.toNat < n) _ w)

/-- The nodes form a tree from the root on. -/
structure Rooted (h : TrieNodes n α) (root : NodePtr) : Prop where
  tree : IsTree h.edge root
  inside : ∀ {w p}, walk h.edge root w = some p → p < h.length

/-- The trie stands for a map. -/
structure Represents (h : TrieNodes n α) (root : NodePtr) (m : List Char → Option α) : Prop where
  rooted : h.Rooted root
  find : ∀ w, h.find root w = m w

variable {h h' : TrieNodes n α} {root p q : NodePtr} {c : Char} {w cs : List Char} {x : TrieNode n α}
  {null value : α} {m : List Char → Option α}

theorem deref_eq_ok (hx : h[p]? = some x) : h.deref p = .ok x := by
  rw [deref, hx]

theorem edge_eq (hx : h[p]? = some x) (hc : c.toNat < n) :
    h.edge p c = x.children ⟨c.toNat, hc⟩ := by
  rw [edge, hx]
  exact dif_pos hc

theorem childAt_eq (hx : h[p]? = some x) (hc : c.toNat < n) :
    childAt x c = .ok (h.edge p c) := by
  rw [edge_eq hx hc]
  exact dif_pos hc

/-! ### A missing node -/

theorem getElem?_addChild (hp : p < h.length) (q : NodePtr) :
    (h.addChild null p x c)[q]? = if q = p then some (setChild x c h.length)
      else if q = h.length then some (.new n null) else h[q]? := by
  have hlen : p < (h ++ [TrieNode.new n null]).length := by
    rw [List.length_append]
    exact Nat.lt_add_right _ hp
  rw [TrieNodes.addChild, List.getElem?_set]
  by_cases hq : q = p
  · rw [if_pos hq, if_pos hq.symm, if_pos hlen]
  · rw [if_neg hq, if_neg (Ne.symm hq)]
    by_cases hnew : q = h.length
    · rw [if_pos hnew, hnew, List.getElem?_append_right (Nat.le_refl _), Nat.sub_self]
      rfl
    · rw [if_neg hnew]
      rcases Nat.lt_or_gt_of_ne hnew with hlt | hgt
      · rw [List.getElem?_append_left hlt]
      · rw [List.getElem?_eq_none (Nat.le_of_lt hgt), List.getElem?_eq_none]
        rw [List.length_append]
        exact hgt

theorem edge_addChild (hx : h[p]? = some x) (hc : c.toNat < n) (q : NodePtr) (d : Char) :
    (h.addChild null p x c).edge q d = addEdge h.edge p c h.length q d := by
  have hp : p < h.length := (List.getElem?_eq_some_iff.mp hx).1
  have hchar : ∀ d : Char, d.toNat = c.toNat ↔ d = c := fun d =>
    ⟨fun h => Char.ext (UInt32.toNat_inj.mp h), fun h => h ▸ rfl⟩
  rw [edge, getElem?_addChild hp, addEdge]
  by_cases hq : q = p
  · rw [if_pos hq, Option.bind_some, hq]
    by_cases hd : d = c
    · rw [if_pos ⟨rfl, hd⟩, dif_pos (hd ▸ hc), setChild]
      exact if_pos (congrArg Char.toNat hd)
    · rw [if_neg fun hpd => hd hpd.2, edge, hx, Option.bind_some]
      by_cases hdn : d.toNat < n
      · rw [dif_pos hdn, dif_pos hdn, setChild]
        exact if_neg fun hcd => hd ((hchar d).mp hcd)
      · rw [dif_neg hdn, dif_neg hdn]
  · have hne : ¬ (q = p ∧ d = c) := fun hpd => hq hpd.1
    rw [if_neg hq, if_neg hne]
    by_cases hnew : q = h.length
    · rw [if_pos hnew, edge, hnew, List.getElem?_eq_none (Nat.le_refl _)]
      simp [TrieNode.new]
    · rw [if_neg hnew, edge]

theorem answer_addChild (hx : h[p]? = some x) (q : NodePtr) :
    (h.addChild null p x c).answer q = h.answer q := by
  have hp : p < h.length := (List.getElem?_eq_some_iff.mp hx).1
  rw [answer, getElem?_addChild hp, answer]
  by_cases hq : q = p
  · rw [if_pos hq, hq, hx]
    rfl
  · rw [if_neg hq]
    by_cases hnew : q = h.length
    · rw [if_pos hnew, hnew, List.getElem?_eq_none (Nat.le_refl _)]
      rfl
    · rw [if_neg hnew]

/-- The node of a word. -/
theorem Rooted.node (hr : h.Rooted root) (hw : walk h.edge root w = some p) : ∃ x, h[p]? = some x :=
  ⟨_, List.getElem?_eq_getElem (hr.inside hw)⟩

/-- No word leads to a node that has not been allocated. -/
theorem Rooted.not_fresh (hr : h.Rooted root) (w : List Char) :
    walk h.edge root w ≠ some h.length := fun hw => Nat.lt_irrefl _ (hr.inside hw)

theorem edge_fresh (h : TrieNodes n α) (d : Char) : h.edge h.length d = none := by
  rw [edge, List.getElem?_eq_none (Nat.le_refl _)]
  rfl

/-- Where the words lead with a node for one more letter. -/
theorem walk_addChild (hr : h.Rooted root) (hw : walk h.edge root w = some p) (hx : h[p]? = some x)
    (hc : c.toNat < n) (hnone : h.edge p c = none) (w' : List Char) :
    walk (h.addChild null p x c).edge root w'
      = if w' = w ++ [c] then some h.length else walk h.edge root w' := by
  rw [walk_congr (edge_addChild hx hc)]
  exact walk_addLeaf hr.tree hw hnone (edge_fresh h) hr.not_fresh w'

/-- **A missing node** changes the value of no word. -/
theorem Represents.addChild (hm : h.Represents root m) (hw : walk h.edge root w = some p)
    (hx : h[p]? = some x) (hc : c.toNat < n) (hnone : h.edge p c = none) :
    (h.addChild null p x c).Represents root m := by
  refine ⟨⟨?_, ?_⟩, ?_⟩
  · intro u u' y hu hu'
    rw [walk_congr (edge_addChild hx hc)] at hu hu'
    exact hm.rooted.tree.addLeaf hw hnone (edge_fresh h) hm.rooted.not_fresh hu hu'
  · intro u y hu
    have hlen : (h.addChild null p x c).length = h.length + 1 := by
      simp [TrieNodes.addChild]
    rw [walk_addChild hm.rooted hw hx hc hnone] at hu
    rw [hlen]
    split at hu
    · cases hu
      exact Nat.lt_succ_self _
    · exact Nat.lt_succ_of_lt (hm.rooted.inside hu)
  · intro u
    rw [← hm.find, TrieNodes.find, TrieNodes.find, walk_addChild hm.rooted hw hx hc hnone]
    have hanswer : (h.addChild null p x c).answer = h.answer := funext (answer_addChild hx)
    rw [hanswer]
    split
    next hu =>
      have hold : walk h.edge root u = none := by
        rw [hu, walk_snoc, hw]
        exact hnone
      have hfresh : h.answer h.length = none := by
        rw [answer, List.getElem?_eq_none (Nat.le_refl _)]
        rfl
      rw [hold, Option.bind_some, hfresh]
      rfl
    next => rfl

/-- **The loop** reaches the node of the word, and changes the value of no word. -/
theorem walkOrCreate_eq (null : α) (hm : h.Represents root m) (hw : walk h.edge root w = some p)
    (hs : Spells n cs) : ∃ q h', h.walkOrCreate null cs p = .ok (q, h') ∧ h'.Represents root m ∧
      walk h'.edge root (w ++ cs) = some q := by
  induction cs generalizing h p w with
  | nil => exact ⟨p, h, rfl, hm, by rwa [List.append_nil]⟩
  | cons c cs ih =>
      have hc : c.toNat < n := hs c List.mem_cons_self
      have hcs : Spells n cs := fun d hd => hs d (List.mem_cons_of_mem c hd)
      obtain ⟨x, hx⟩ := hm.rooted.node hw
      have hsplit : w ++ c :: cs = (w ++ [c]) ++ cs := by simp
      rw [walkOrCreate, deref_eq_ok hx, hsplit]
      simp only [Bind.bind, Except.bind, childAt_eq hx hc]
      cases hedge : h.edge p c with
      | some q =>
          refine ih hm ?_ hcs
          rw [walk_snoc, hw]
          exact hedge
      | none =>
          refine ih (hm.addChild hw hx hc hedge) ?_ hcs
          exact (walk_addChild hm.rooted hw hx hc hedge _).trans (if_pos rfl)

theorem Represents.walkOrCreate (null : α) (hm : h.Represents root m) (hs : Spells n w) :
    ∃ q h', h.walkOrCreate null w root = .ok (q, h') ∧ h'.Represents root m ∧
      walk h'.edge root w = some q := by
  have hstart : walk h.edge root [] = some root := rfl
  exact walkOrCreate_eq null hm hstart hs

/-! ### A value -/

/-- The nodes when a word has been given a value. -/
def mark (h : TrieNodes n α) (p : NodePtr) (x : TrieNode n α) (value : α) : TrieNodes n α :=
  h.set p { x with value, epsilon := true }

theorem edge_mark (hx : h[p]? = some x) (q : NodePtr) (d : Char) :
    (mark h p x value).edge q d = h.edge q d := by
  have hp : p < h.length := (List.getElem?_eq_some_iff.mp hx).1
  rw [edge, mark, List.getElem?_set, edge]
  by_cases hq : p = q
  · rw [if_pos hq, if_pos hp, ← hq, hx]
    rfl
  · rw [if_neg hq]

theorem answer_mark (hx : h[p]? = some x) (q : NodePtr) :
    (mark h p x value).answer q = if q = p then some value else h.answer q := by
  have hp : p < h.length := (List.getElem?_eq_some_iff.mp hx).1
  rw [answer, mark, List.getElem?_set]
  by_cases hq : q = p
  · rw [if_pos hq.symm, if_pos hp, if_pos hq]
    rfl
  · rw [if_neg (Ne.symm hq), if_neg hq, answer]

/-- **A value** is that of its word, and of no other. -/
theorem Represents.mark (hm : h.Represents root m) (hw : walk h.edge root w = some p)
    (hx : h[p]? = some x) (value : α) :
    (mark h p x value).Represents root (Function.update m w (some value)) := by
  have hwalk : ∀ u, walk (TrieNodes.mark h p x value).edge root u = walk h.edge root u :=
    walk_congr (edge_mark hx) root
  refine ⟨⟨?_, ?_⟩, ?_⟩
  · intro u u' y hu hu'
    rw [hwalk] at hu hu'
    exact hm.rooted.tree hu hu'
  · intro u y hu
    rw [hwalk] at hu
    rw [TrieNodes.mark, List.length_set]
    exact hm.rooted.inside hu
  · intro u
    rw [TrieNodes.find, hwalk]
    by_cases hu : u = w
    · rw [hu, hw, Function.update_self, Option.bind_some, answer_mark hx, if_pos rfl]
    · rw [Function.update_of_ne hu, ← hm.find, TrieNodes.find]
      cases hy : walk h.edge root u with
      | none => rfl
      | some y =>
          have hyp : y ≠ p := by
            rintro rfl
            exact hu (hm.rooted.tree hy hw)
          rw [Option.bind_some, Option.bind_some, answer_mark hx, if_neg hyp]

/-! ### The operations -/

theorem Represents.epsilon (hm : h.Represents root m) (hw : walk h.edge root w = some p)
    (hx : h[p]? = some x) : m w = if x.epsilon then some x.value else none := by
  rw [← hm.find, TrieNodes.find, hw, Option.bind_some, answer, hx]
  rfl

/-- **`Insert`** stores the value of its word. -/
theorem Represents.insert (null : α) (hm : h.Represents root m) (hs : Spells n w) (value : α) :
    ∃ h', h.insert null root w value = .ok h' ∧
      h'.Represents root (Function.update m w (some value)) := by
  obtain ⟨q, h₁, hrun, hm₁, hw⟩ := hm.walkOrCreate null hs
  obtain ⟨x, hx⟩ := hm₁.rooted.node hw
  refine ⟨_, ?_, hm₁.mark hw hx value⟩
  simp only [TrieNodes.insert, hrun, Bind.bind, Except.bind, deref_eq_ok hx]
  rfl

/-- **`SearchOrCreate`** returns the value there is, or stores the one the supplier gives. -/
theorem Represents.searchOrCreate (null : α) (hm : h.Represents root m) (hs : Spells n w)
    (supplier : List Char → σ → α × σ) (s : σ) :
    (∀ v, m w = some v → ∃ h', h.searchOrCreate null root w supplier s = .ok (v, h', s) ∧
      h'.Represents root m) ∧
    (m w = none → ∃ h', h.searchOrCreate null root w supplier s
        = .ok ((supplier w s).1, h', (supplier w s).2) ∧
      h'.Represents root (Function.update m w (some (supplier w s).1))) := by
  obtain ⟨q, h₁, hrun, hm₁, hw⟩ := hm.walkOrCreate null hs
  obtain ⟨x, hx⟩ := hm₁.rooted.node hw
  have heps := hm₁.epsilon hw hx
  refine ⟨fun v hv => ⟨h₁, ?_, hm₁⟩, fun hnone => ⟨_, ?_, hm₁.mark hw hx (supplier w s).1⟩⟩
  · rw [hv] at heps
    split at heps
    next he =>
      cases heps
      simp only [TrieNodes.searchOrCreate, hrun, Bind.bind, Except.bind, deref_eq_ok hx, he]
      rfl
    next => cases heps
  · rw [hnone] at heps
    split at heps
    next => cases heps
    next he =>
      rw [Bool.not_eq_true] at he
      simp only [TrieNodes.searchOrCreate, hrun, Bind.bind, Except.bind, deref_eq_ok hx, he]
      rfl

/-- **`Search`** returns the value there is. -/
theorem Represents.search (null : α) (hm : h.Represents root m) (hw : walk h.edge root w = some p)
    (hs : Spells n cs) :
    h.search null cs p = .ok ((m (w ++ cs)).isSome, (m (w ++ cs)).getD null) := by
  induction cs generalizing p w with
  | nil =>
      obtain ⟨x, hx⟩ := hm.rooted.node hw
      rw [List.append_nil, hm.epsilon hw hx]
      simp only [TrieNodes.search, deref_eq_ok hx, Bind.bind, Except.bind]
      cases x.epsilon <;> rfl
  | cons c cs ih =>
      have hc : c.toNat < n := hs c List.mem_cons_self
      have hcs : Spells n cs := fun d hd => hs d (List.mem_cons_of_mem c hd)
      obtain ⟨x, hx⟩ := hm.rooted.node hw
      have hsplit : w ++ c :: cs = (w ++ [c]) ++ cs := by simp
      have hsnoc : walk h.edge root (w ++ [c]) = h.edge p c := by
        rw [walk_snoc, hw]
        rfl
      simp only [TrieNodes.search, deref_eq_ok hx, Bind.bind, Except.bind, childAt_eq hx hc]
      rw [hsplit]
      cases hedge : h.edge p c with
      | some q =>
          rw [hedge] at hsnoc
          exact ih hsnoc hcs
      | none =>
          have hnone : m ((w ++ [c]) ++ cs) = none := by
            rw [← hm.find, TrieNodes.find, walk_append, hsnoc, hedge]
            rfl
          rw [hnone]
          rfl

/-- The trie of one node. -/
def empty (n : Nat) (null : α) : TrieNodes n α := [.new n null]

theorem represents_empty (n : Nat) (null : α) : (empty n null).Represents 0 fun _ => none := by
  have hedge : ∀ p c, (empty n null).edge p c = none := by
    intro p c
    rcases p with _ | p
    · simp [edge, empty, TrieNode.new]
    · rfl
  have hroot : ∀ {w p}, walk (empty n null).edge 0 w = some p → w = [] ∧ p = 0 := by
    intro w p hw
    cases w with
    | nil =>
        cases hw
        exact ⟨rfl, rfl⟩
    | cons c w =>
        rw [walk, hedge] at hw
        cases hw
  refine ⟨⟨?_, ?_⟩, ?_⟩
  · intro w w' p hw hw'
    rw [(hroot hw).1, (hroot hw').1]
  · intro w p hw
    rw [(hroot hw).2]
    exact Nat.zero_lt_one
  · intro w
    rw [TrieNodes.find]
    cases hw : walk (empty n null).edge 0 w with
    | none => rfl
    | some p =>
        rw [(hroot hw).2]
        rfl

end TrieNodes

/-! ### Runs -/

/-- The calls that change a trie. -/
inductive TrieOp (σ α : Type) where
  | insert (key : List Char) (value : α)
  | searchOrCreate (key : List Char) (supplier : List Char → σ → α × σ)

namespace TrieOp

variable {n : Nat} {α σ : Type}

def key : TrieOp σ α → List Char
  | insert key _ => key
  | searchOrCreate key _ => key

/-- A call, on the nodes and the rest of the world. -/
def run (null : α) (root : NodePtr) : TrieNodes n α × σ → TrieOp σ α →
    Except Fault (TrieNodes n α × σ)
  | (h, s), insert key value => do return (← h.insert null root key value, s)
  | (h, s), searchOrCreate key supplier => do
      let (_, h, s) ← h.searchOrCreate null root key supplier s
      return (h, s)

/-- What a call does to a map: an insertion stores its value, and where the key is absent the value
that the supplier gives is stored. -/
def apply : (List Char → Option α) × σ → TrieOp σ α → (List Char → Option α) × σ
  | (m, s), insert key value => (Function.update m key (some value), s)
  | (m, s), searchOrCreate key supplier =>
      match m key with
      | some _ => (m, s)
      | none => (Function.update m key (some (supplier key s).1), (supplier key s).2)

theorem apply_of_isSome {m : List Char → Option α} {w : List Char} {v : α} (h : m w = some v) (s : σ)
    (supplier : List Char → σ → α × σ) : apply (m, s) (.searchOrCreate w supplier) = (m, s) := by
  rw [apply, h]

theorem apply_of_isNone {m : List Char → Option α} {w : List Char} (h : m w = none) (s : σ)
    (supplier : List Char → σ → α × σ) : apply (m, s) (.searchOrCreate w supplier)
      = (Function.update m w (some (supplier w s).1), (supplier w s).2) := by
  rw [apply, h]

/-- Another key keeps its value. -/
theorem apply_of_ne {op : TrieOp σ α} {k : List Char} (hk : k ≠ op.key)
    (m : (List Char → Option α) × σ) : (apply m op).1 k = m.1 k := by
  obtain ⟨m, s⟩ := m
  cases op with
  | insert key value => exact Function.update_of_ne hk _ _
  | searchOrCreate key supplier =>
      cases hm : m key with
      | some v => rw [apply_of_isSome hm]
      | none =>
          rw [apply_of_isNone hm]
          exact Function.update_of_ne hk _ _

/-- **A call** does to the trie what it does to the map. -/
theorem run_eq (null : α) {root : NodePtr} {h : TrieNodes n α} {m : List Char → Option α}
    (hm : h.Represents root m) (s : σ) {op : TrieOp σ α} (hs : TrieNodes.Spells n op.key) :
    ∃ h', op.run null root (h, s) = .ok (h', (apply (m, s) op).2) ∧
      h'.Represents root (apply (m, s) op).1 := by
  cases op with
  | insert key value =>
      have hkey : TrieNodes.Spells n key := hs
      obtain ⟨h', hrun, hm'⟩ := hm.insert null hkey value
      refine ⟨h', ?_, hm'⟩
      simp only [run, hrun, Bind.bind, Except.bind]
      rfl
  | searchOrCreate key supplier =>
      have hkey : TrieNodes.Spells n key := hs
      obtain ⟨hfound, habsent⟩ := hm.searchOrCreate null hkey supplier s
      cases hv : m key with
      | some v =>
          obtain ⟨h', hrun, hm'⟩ := hfound v hv
          rw [apply_of_isSome hv]
          refine ⟨h', ?_, hm'⟩
          simp only [run, hrun, Bind.bind, Except.bind]
          rfl
      | none =>
          obtain ⟨h', hrun, hm'⟩ := habsent hv
          rw [apply_of_isNone hv]
          refine ⟨h', ?_, hm'⟩
          simp only [run, hrun, Bind.bind, Except.bind]
          rfl

/-- **A run** does to the trie what it does to the map. -/
theorem runs_eq (null : α) {root : NodePtr} {ops : List (TrieOp σ α)} {h : TrieNodes n α}
    {m : List Char → Option α} (hm : h.Represents root m) (s : σ)
    (hs : ∀ op ∈ ops, TrieNodes.Spells n op.key) :
    ∃ h', ops.foldlM (run null root) (h, s) = .ok (h', (ops.foldl apply (m, s)).2) ∧
      h'.Represents root (ops.foldl apply (m, s)).1 := by
  induction ops generalizing h m s with
  | nil => exact ⟨h, rfl, hm⟩
  | cons op ops ih =>
      obtain ⟨h₁, hrun, hm₁⟩ := run_eq null hm s (hs op List.mem_cons_self)
      obtain ⟨h', hruns, hm'⟩ := ih hm₁ (apply (m, s) op).2 fun op' hop =>
        hs op' (List.mem_cons_of_mem op hop)
      refine ⟨h', ?_, hm'⟩
      rw [List.foldlM_cons, hrun]
      exact hruns

/-- The map and the world after the calls, from an empty trie. -/
def after (ops : List (TrieOp σ α)) (s : σ) : (List Char → Option α) × σ :=
  ops.foldl apply (fun _ => none, s)

/-- What a map answers after the calls: it has the keys stored, each with the value inserted last or,
where none was inserted, the one that the supplier gave when the key was absent. -/
structure Answers (ops : List (TrieOp σ α)) (s : σ) (m : List Char → Option α) : Prop where
  stored : ∀ k, (m k).isSome = true ↔ ∃ op ∈ ops, op.key = k
  inserted : ∀ ops₁ ops₂ k v, ops = ops₁ ++ insert k v :: ops₂ → (∀ v', insert k v' ∉ ops₂) →
    m k = some v
  supplied : ∀ ops₁ ops₂ k supplier, ops = ops₁ ++ searchOrCreate k supplier :: ops₂ →
    (∀ op ∈ ops₁, op.key ≠ k) → (∀ v', insert k v' ∉ ops₂) →
    m k = some (supplier k (after ops₁ s).2).1
  /-- The supplier is not called for a key that is stored. -/
  uncalled : ∀ ops₁ ops₂ k supplier, ops = ops₁ ++ searchOrCreate k supplier :: ops₂ →
    (∃ op ∈ ops₁, op.key = k) →
    (after (ops₁ ++ [searchOrCreate k supplier]) s).2 = (after ops₁ s).2

theorem apply_isSome (m : (List Char → Option α) × σ) (op : TrieOp σ α) (k : List Char) :
    ((apply m op).1 k).isSome = true ↔ (m.1 k).isSome = true ∨ op.key = k := by
  by_cases hk : k = op.key
  · subst hk
    obtain ⟨m, s⟩ := m
    have hsome : ((apply (m, s) op).1 op.key).isSome = true := by
      cases op with
      | insert key value =>
          change (Function.update m key (some value) key).isSome = true
          rw [Function.update_self]
          rfl
      | searchOrCreate key supplier =>
          cases hm : m key with
          | some v =>
              rw [apply_of_isSome hm]
              change (m key).isSome = true
              rw [hm]
              rfl
          | none =>
              rw [apply_of_isNone hm]
              change (Function.update m key _ key).isSome = true
              rw [Function.update_self]
              rfl
    simp [hsome]
  · rw [apply_of_ne hk]
    simp [Ne.symm hk]

theorem foldl_isSome (ops : List (TrieOp σ α)) (m : (List Char → Option α) × σ) (k : List Char) :
    ((ops.foldl apply m).1 k).isSome = true ↔ (m.1 k).isSome = true ∨ ∃ op ∈ ops, op.key = k := by
  induction ops generalizing m with
  | nil => simp
  | cons op ops ih =>
      rw [List.foldl_cons, ih, apply_isSome]
      simp [or_assoc]

/-- A value stays where its key is not inserted again. -/
theorem foldl_keeps {k : List Char} {v : α} {ops : List (TrieOp σ α)}
    (hins : ∀ v', insert k v' ∉ ops) {m : (List Char → Option α) × σ} (hm : m.1 k = some v) :
    (ops.foldl apply m).1 k = some v := by
  induction ops generalizing m with
  | nil => exact hm
  | cons op ops ih =>
      refine ih (fun v' hmem => hins v' (List.mem_cons_of_mem op hmem)) ?_
      by_cases hk : k = op.key
      · cases op with
        | insert key value =>
            obtain rfl : k = key := hk
            exact absurd List.mem_cons_self (hins value)
        | searchOrCreate key supplier =>
            obtain rfl : k = key := hk
            obtain ⟨m, s⟩ := m
            rw [apply_of_isSome hm]
            exact hm
      · rw [apply_of_ne hk]
        exact hm

theorem after_isSome (ops : List (TrieOp σ α)) (s : σ) (k : List Char) :
    ((after ops s).1 k).isSome = true ↔ ∃ op ∈ ops, op.key = k := by
  rw [after, foldl_isSome]
  simp

theorem after_append (ops₁ ops₂ : List (TrieOp σ α)) (s : σ) :
    after (ops₁ ++ ops₂) s = ops₂.foldl apply (after ops₁ s) := List.foldl_append

theorem answers_after (ops : List (TrieOp σ α)) (s : σ) : Answers ops s (after ops s).1 := by
  refine ⟨after_isSome ops s, ?_, ?_, ?_⟩
  · rintro ops₁ ops₂ k v rfl hins
    rw [after_append, List.foldl_cons]
    refine foldl_keeps hins ?_
    exact Function.update_self _ _ _
  · rintro ops₁ ops₂ k supplier rfl hnew hins
    have habsent : (after ops₁ s).1 k = none := by
      rw [← Option.not_isSome_iff_eq_none, after_isSome]
      rintro ⟨op, hop, hkey⟩
      exact hnew op hop hkey
    rw [after_append, List.foldl_cons]
    refine foldl_keeps hins ?_
    exact (congrArg (·.1 k) (apply_of_isNone habsent _ supplier)).trans (Function.update_self _ _ _)
  · rintro ops₁ ops₂ k supplier rfl hstored
    obtain ⟨v, hv⟩ := Option.isSome_iff_exists.mp ((after_isSome ops₁ s k).mpr hstored)
    rw [after_append]
    exact congrArg Prod.snd (apply_of_isSome hv _ supplier)

/-- **Tries are finite maps.**  After any calls of `Insert` and `SearchOrCreate` on words of the
alphabet, from an empty trie, a search finds exactly the keys stored, with the value inserted last or
supplied first; the suppliers have been called where their key was absent, and only there. -/
theorem search_run (n : Nat) (null : α) (ops : List (TrieOp σ α)) (s : σ)
    (hs : ∀ op ∈ ops, TrieNodes.Spells n op.key) :
    ∃ h m, ops.foldlM (run null 0) (TrieNodes.empty n null, s) = .ok (h, (after ops s).2) ∧
      Answers ops s m ∧ ∀ k, TrieNodes.Spells n k →
        h.search null k 0 = .ok ((m k).isSome, (m k).getD null) := by
  obtain ⟨h, hruns, hm⟩ := runs_eq null (TrieNodes.represents_empty n null) s hs
  have hroot : walk h.edge 0 [] = some 0 := rfl
  exact ⟨h, _, hruns, answers_after ops s, fun k hk => hm.search null hroot hk⟩

/-- A key, an extension of it whose value counts the calls of its supplier, and the key again. -/
def sample : List (TrieOp Nat Nat) :=
  [insert ['a'] 1, searchOrCreate ['a', 'b'] fun w s => (w.length, s + 1), insert ['a'] 7]

theorem search_run_sample :
    ∃ h m, sample.foldlM (run 0 0) (TrieNodes.empty 127 0, 0) = .ok (h, (after sample 0).2) ∧
      Answers sample 0 m ∧ ∀ k, TrieNodes.Spells 127 k →
        h.search 0 k 0 = .ok ((m k).isSome, (m k).getD 0) :=
  search_run 127 0 sample 0 (List.all_iff_forall_prop.mp (by decide))

end TrieOp

/-! ### The trie of the keywords -/

namespace KeywordTrie

def kAlphabetSize : Nat := 127

/-- `KeywordTrie::Insert`. -/
def insert (root : NodePtr) (key : List Char) (kind : Token.Kind)
    (h : TrieNodes kAlphabetSize Token.Kind) : Except Fault (TrieNodes kAlphabetSize Token.Kind) :=
  h.insert .invalid root key kind

/-- `KeywordTrie::Search`. -/
def search (root : NodePtr) (key : List Char) (h : TrieNodes kAlphabetSize Token.Kind) :
    Except Fault (Bool × Token.Kind) := h.search .invalid key root

/-- Words inserted one after the other. -/
theorem represents_insertAll {root : NodePtr} {l : List (List Char × Token.Kind)}
    {h : TrieNodes kAlphabetSize Token.Kind} {t : Trie Char Token.Kind}
    (hm : h.Represents root t.find) (hs : ∀ e ∈ l, TrieNodes.Spells kAlphabetSize e.1) :
    ∃ h', l.foldlM (fun h e => insert root e.1 e.2 h) h = .ok h' ∧
      h'.Represents root (l.foldl (fun t e => t.insert e.1 e.2) t).find := by
  induction l generalizing h t with
  | nil => exact ⟨h, rfl, hm⟩
  | cons e l ih =>
      obtain ⟨h₁, hrun, hm₁⟩ := hm.insert .invalid (hs e List.mem_cons_self) e.2
      have hfind : Function.update t.find e.1 (some e.2) = (t.insert e.1 e.2).find := by
        funext w
        rw [Trie.find_insert]
        by_cases hw : w = e.1
        · rw [if_pos hw, hw, Function.update_self]
        · rw [if_neg hw, Function.update_of_ne hw]
      rw [hfind] at hm₁
      obtain ⟨h', hruns, hm'⟩ := ih hm₁ fun d hd => hs d (List.mem_cons_of_mem e hd)
      refine ⟨h', ?_, hm'⟩
      rw [List.foldlM_cons, insert, hrun]
      exact hruns

/-- **The keywords**: the lexer's trie answers as the nodes do. -/
theorem search_keywords :
    ∃ h, (keywordList.map fun e => (e.1.toList, e.2)).foldlM (fun h e => insert 0 e.1 e.2 h)
        (TrieNodes.empty kAlphabetSize .invalid) = .ok h ∧
      ∀ w, TrieNodes.Spells kAlphabetSize w →
        search 0 w h = .ok ((keywords.find w).isSome, (keywords.find w).getD .invalid) := by
  have hempty : (fun _ => none : List Char → Option Token.Kind)
      = (Trie.empty : Trie Char Token.Kind).find := by
    funext w
    rw [Trie.find_empty]
  have hstart := TrieNodes.represents_empty kAlphabetSize Token.Kind.invalid
  rw [hempty] at hstart
  have hspells : ∀ e ∈ keywordList.map fun e => (e.1.toList, e.2),
      TrieNodes.Spells kAlphabetSize e.1 := List.all_iff_forall_prop.mp (by decide)
  obtain ⟨h, hruns, hm⟩ := represents_insertAll hstart hspells
  have hm : h.Represents 0 keywords.find := hm
  have hroot : walk h.edge 0 [] = some 0 := rfl
  exact ⟨h, hruns, fun w hw => hm.search Token.Kind.invalid hroot hw⟩

end KeywordTrie

end Gel
