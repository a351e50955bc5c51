import Gel.MacroExpander
import Gel.Support.Runs
import Mathlib.Algebra.Group.Nat.Defs
import Mathlib.Data.List.Nodup
import Mathlib.Data.List.Range

/-!
# ScopeIndex — slots and the indices of their variables

Compiled code names a variable by `LocalVariable::GetIndex` and the interpreter looks that number
up as a position, so a scope has to keep index and position equal.  A variable gets its index when
it is made, from the size its owner has then; `LocalScope` never assigns one.

* `indexed_step`: which operations keep index and position equal.
* `indexed_run`: the runs in which they stay equal.
-/

namespace Gel

namespace Scopes

/-- `LocalVariable::New(owner, index, name, value)`. -/
def newLocalAt (m : Scopes) (index : UInt64) (name : String) (value : Option Value := none) :
    LocalId × Scopes :=
  (m.locals.length, { m with locals := m.locals ++ [{ name, index, value }] })

/-- `LocalScope::Union`, of which `union` is the case with a parent: the variables of the scopes, one
list after the other. -/
def unionIn (m : Scopes) (ss : List ScopeId) (parent : Option ScopeId) : ScopeId × Scopes :=
  (m.scopes.length, { m with scopes := m.scopes ++ [{ parent, locals := ss.flatMap m.localsOf }] })

example (m : Scopes) (ss : List ScopeId) (p : ScopeId) : m.union ss p = m.unionIn ss (some p) := rfl

/-- The variables of a scope, in the order of their positions. -/
def slots (m : Scopes) (s : ScopeId) : List LocalVariable :=
  (m.localsOf s).filterMap fun l => m.locals[l]?

/-- The variable at each position of a scope has that index, names are pairwise distinct, and a
lookup without recursion finds the variable of a name. -/
structure IndexedAt (m : Scopes) (s : ScopeId) : Prop where
  index : (m.slots s).map (fun x => x.index.toNat) = List.range (m.numberOfLocals s)
  names : ((m.slots s).map LocalVariable.name).Nodup
  lookup : ∀ (i : Nat) l x, m.getLocalAt s i = some l → m.locals[l]? = some x →
    m.lookupHere s x.name = some l

/-- Every scope is indexed. -/
def Indexed (m : Scopes) : Prop := ∀ s, m.IndexedAt s

/-- A vector of variables has a size that fits a `uint64_t`. -/
def Fits (m : Scopes) : Prop := ∀ s, m.numberOfLocals s < 2 ^ 64

end Scopes

/-- What is done to variables and scopes. -/
inductive ScopeOp where
  | newScope (parent : Option ScopeId)
  | newLocal (owner : ScopeId) (name : String) (value : Option Value)
  | newLocalAt (index : UInt64) (name : String) (value : Option Value)
  | setValue (l : LocalId) (value : Option Value)
  | addLocal (s : ScopeId) (l : LocalId)
  | addValue (s : ScopeId) (name : String) (value : Option Value)
  | addScope (s rhs : ScopeId)
  | union (ss : List ScopeId) (parent : Option ScopeId)

namespace ScopeOp

def apply (m : Scopes) : ScopeOp → Scopes
  | newScope parent => (m.newScope parent).2
  | newLocal owner name value => (m.newLocal owner name value).2
  | newLocalAt index name value => (m.newLocalAt index name value).2
  | setValue l value => m.setValue l value
  | addLocal s l => (m.addLocal s l).2
  | addValue s name value => (m.addValue s name value).2
  | addScope s rhs => (m.addScope s rhs).2
  | union ss parent => (m.unionIn ss parent).2

/-- The scope and the variable an operation changes or adds exist. -/
def Live (m : Scopes) : ScopeOp → Prop
  | addLocal s l => s < m.scopes.length ∧ l < m.locals.length
  | addValue s _ _ => s < m.scopes.length
  | addScope s _ => s < m.scopes.length
  | _ => True

/-- An added variable is refused, or has the size of the scope for its index; of the scopes of a
union, at most one has variables. -/
def Keeps (m : Scopes) : ScopeOp → Prop
  | addLocal s l => ∀ x, m.locals[l]? = some x →
      m.has s x.name = true ∨ x.index.toNat = m.numberOfLocals s
  | union ss _ => (ss.filter fun s => m.numberOfLocals s != 0).length ≤ 1
  | _ => True

instance decidableLive (m : Scopes) : (op : ScopeOp) → Decidable (op.Live m)
  | addLocal s l => inferInstanceAs (Decidable (s < m.scopes.length ∧ l < m.locals.length))
  | addValue s _ _ => inferInstanceAs (Decidable (s < m.scopes.length))
  | addScope s _ => inferInstanceAs (Decidable (s < m.scopes.length))
  | newScope _ | newLocal .. | newLocalAt .. | setValue .. | union .. => .isTrue trivial

/-- A step of a run: an operation on variables and scopes that exist, whose result fits. -/
def Step (m : Scopes) (op : ScopeOp) (m' : Scopes) : Prop :=
  op.Live m ∧ m' = op.apply m ∧ m'.Fits

theorem step_unique ⦃m : Scopes⦄ ⦃op : ScopeOp⦄ ⦃n k : Scopes⦄ (hn : Step m op n)
    (hk : Step m op k) : n = k := hn.2.1.trans hk.2.1.symm

end ScopeOp

/-! ### Keys -/

/-- Indices that count from zero, and distinct names. -/
def WellIndexed (ks : List (UInt64 × String)) : Prop :=
  ks.map (fun k => k.1.toNat) = List.range ks.length ∧ (ks.map Prod.snd).Nodup

theorem wellIndexed_nil : WellIndexed [] := ⟨rfl, List.nodup_nil⟩

/-- One key more. -/
theorem wellIndexed_concat {ks : List (UInt64 × String)} {k : UInt64 × String}
    (h : WellIndexed ks) (hname : k.2 ∉ ks.map Prod.snd) :
    WellIndexed (ks ++ [k]) ↔ k.1.toNat = ks.length := by
  obtain ⟨hindex, hnames⟩ := h
  simp only [WellIndexed, List.map_append, List.map_cons, List.map_nil, List.length_append,
    List.length_cons, List.length_nil, Nat.zero_add, List.range_succ, hindex]
  have hnodup : (ks.map Prod.snd ++ [k.2]).Nodup :=
    List.Nodup.append hnames (List.nodup_singleton _) (by simpa using hname)
  simp [hnodup]

namespace Scopes

variable {m : Scopes} {s t : ScopeId} {l : LocalId} {x : LocalVariable} {name : String}

/-- What an operation on values leaves alone: the indices and names of a scope. -/
def keys (m : Scopes) (s : ScopeId) : List (UInt64 × String) :=
  (m.slots s).map fun x => (x.index, x.name)

/-- Every variable of a scope exists. -/
def Closed (m : Scopes) : Prop := ∀ s, ∀ l ∈ m.localsOf s, l < m.locals.length

/-- As many variables as positions: none is missing. -/
theorem forall_lt_of_slots_length (h : (m.slots s).length = m.numberOfLocals s) :
    ∀ l ∈ m.localsOf s, l < m.locals.length := by
  intro l hl
  rw [slots, numberOfLocals, List.filterMap_length_eq_length] at h
  exact (List.getElem?_eq_some_iff.mp (Option.eq_some_of_isSome (h l hl))).1

theorem slots_eq_map (h : ∀ l ∈ m.localsOf s, l < m.locals.length) :
    (m.slots s).map some = (m.localsOf s).map fun l => m.locals[l]? := by
  rw [slots, List.map_filterMap_some_eq_filter_map_isSome, List.filter_eq_self]
  intro x hx
  obtain ⟨l, hl, rfl⟩ := List.mem_map.mp hx
  simpa using h l hl

theorem slots_length (h : ∀ l ∈ m.localsOf s, l < m.locals.length) :
    (m.slots s).length = m.numberOfLocals s := by
  have heq := congrArg List.length (slots_eq_map h)
  simpa [numberOfLocals] using heq

theorem slots_getElem? (h : ∀ l ∈ m.localsOf s, l < m.locals.length) (i : Nat) :
    (m.slots s)[i]? = (m.getLocalAt s i).bind fun l => m.locals[l]? := by
  have heq := congrArg (fun xs => xs[i]?) (slots_eq_map h)
  simp only [List.getElem?_map] at heq
  rw [getLocalAt]
  cases hl : (m.localsOf s)[i]? with
  | none =>
      rw [hl] at heq
      simpa using heq
  | some l =>
      rw [hl] at heq
      cases hx : (m.slots s)[i]? with
      | none => simp [hx] at heq
      | some x => simpa [hx] using heq

/-- What a lookup without recursion finds. -/
theorem lookupHere_eq_some (h : m.lookupHere s name = some l) :
    l ∈ m.localsOf s ∧ ∃ x, m.locals[l]? = some x ∧ x.name = name := by
  rw [lookupHere] at h
  have hfound := List.find?_some h
  cases hx : m.locals[l]? with
  | none => simp [hx] at hfound
  | some x => exact ⟨List.mem_of_find?_eq_some h, x, rfl, by simpa [hx] using hfound⟩

theorem has_iff : m.has s name = true ↔ name ∈ (m.slots s).map LocalVariable.name := by
  constructor
  · intro h
    obtain ⟨l, hl⟩ := Option.isSome_iff_exists.mp h
    obtain ⟨hmem, x, hx, rfl⟩ := lookupHere_eq_some hl
    exact List.mem_map_of_mem (List.mem_filterMap.mpr ⟨l, hmem, hx⟩)
  · intro h
    obtain ⟨x, hx, rfl⟩ := List.mem_map.mp h
    obtain ⟨l, hmem, hl⟩ := List.mem_filterMap.mp hx
    rw [has, lookupHere, List.find?_isSome]
    exact ⟨l, hmem, by simp [hl]⟩

/-- With distinct names, a lookup finds the variable of each position. -/
theorem lookupHere_of_nodup (hc : ∀ l ∈ m.localsOf s, l < m.locals.length)
    (h : ((m.slots s).map LocalVariable.name).Nodup) {i : Nat} (hl : m.getLocalAt s i = some l)
    (hx : m.locals[l]? = some x) : m.lookupHere s x.name = some l := by
  have hslot : (m.slots s)[i]? = some x := by rw [slots_getElem? hc, hl]; exact hx
  have hhas : m.has s x.name = true := has_iff.mpr (List.mem_map_of_mem (List.mem_of_getElem? hslot))
  obtain ⟨k, hk⟩ := Option.isSome_iff_exists.mp hhas
  obtain ⟨hmem, y, hy, hname⟩ := lookupHere_eq_some hk
  obtain ⟨j, hj⟩ := List.mem_iff_getElem?.mp hmem
  have hslot' : (m.slots s)[j]? = some y := by rw [slots_getElem? hc, getLocalAt, hj]; exact hy
  -- one name, one position
  have hij : i = j := by
    refine (List.getElem?_inj (by simpa using (List.getElem?_eq_some_iff.mp hslot).1) h).mp ?_
    rw [List.getElem?_map, List.getElem?_map, hslot, hslot', Option.map_some, Option.map_some, hname]
  rw [getLocalAt, hij, hj] at hl
  rw [hk, hl]

theorem keys_length (hc : ∀ l ∈ m.localsOf s, l < m.locals.length) :
    (m.keys s).length = m.numberOfLocals s := by
  rw [keys, List.length_map, slots_length hc]

theorem indexedAt_iff : m.IndexedAt s ↔
    (∀ l ∈ m.localsOf s, l < m.locals.length) ∧ WellIndexed (m.keys s) := by
  have hindex : (m.keys s).map (fun k => k.1.toNat) = (m.slots s).map fun x => x.index.toNat := by
    rw [keys, List.map_map]
    rfl
  have hnames : (m.keys s).map Prod.snd = (m.slots s).map LocalVariable.name := by
    rw [keys, List.map_map]
    rfl
  constructor
  · intro h
    have hlen : (m.slots s).length = m.numberOfLocals s := by
      simpa using congrArg List.length h.index
    have hc := forall_lt_of_slots_length hlen
    exact ⟨hc, by rw [hindex, keys_length hc]; exact h.index, by rw [hnames]; exact h.names⟩
  · rintro ⟨hc, hall, hnodup⟩
    rw [hnames] at hnodup
    refine ⟨?_, hnodup, fun i l x => lookupHere_of_nodup hc hnodup⟩
    rw [← hindex, hall, keys_length hc]

theorem indexed_iff : m.Indexed ↔ m.Closed ∧ ∀ s, WellIndexed (m.keys s) := by
  simp only [Indexed, Closed, indexedAt_iff, forall_and]

/-! ### What operations do to keys -/

/-- The index and the name of a variable. -/
def keyOf (m : Scopes) (l : LocalId) : Option (UInt64 × String) :=
  m.locals[l]?.map fun x => (x.index, x.name)

theorem keys_eq (m : Scopes) (s : ScopeId) : m.keys s = (m.localsOf s).filterMap m.keyOf := by
  rw [keys, slots, List.map_filterMap]
  rfl

/-- Operations that leave scopes, indices and names alone keep scopes indexed. -/
theorem Indexed.of_same {n : Scopes} (h : m.Indexed) (hlocals : ∀ t, n.localsOf t = m.localsOf t)
    (hlen : m.locals.length ≤ n.locals.length)
    (hkeys : ∀ l < m.locals.length, n.keyOf l = m.keyOf l) : n.Indexed := by
  obtain ⟨hc, hall⟩ := indexed_iff.mp h
  refine indexed_iff.mpr ⟨fun t l hl => ?_, fun t => ?_⟩
  · rw [hlocals] at hl
    exact (hc t l hl).trans_le hlen
  · have hkeys' : n.keys t = m.keys t := by
      rw [keys_eq, keys_eq, hlocals]
      exact List.filterMap_congr fun l hl => hkeys l (hc t l hl)
    rw [hkeys']
    exact hall t

theorem localsOf_newScope (m : Scopes) (parent : Option ScopeId) (t : ScopeId) :
    (m.newScope parent).2.localsOf t = m.localsOf t := by
  simp only [localsOf, newScope]
  rcases Nat.lt_trichotomy t m.scopes.length with ht | rfl | ht
  · rw [List.getElem?_append_left ht]
  · simp
  · rw [List.getElem?_eq_none (by simpa using Nat.succ_le_of_lt ht), List.getElem?_eq_none ht.le]

theorem keyOf_append (xs : List LocalVariable) (hl : l < m.locals.length) :
    ({ m with locals := m.locals ++ xs } : Scopes).keyOf l = m.keyOf l := by
  rw [keyOf, keyOf, List.getElem?_append_left hl]

theorem Indexed.newScope (h : m.Indexed) (parent : Option ScopeId) :
    (m.newScope parent).2.Indexed :=
  h.of_same (localsOf_newScope m parent) le_rfl fun _ _ => rfl

theorem Indexed.newLocalAt (h : m.Indexed) (index : UInt64) (name : String) (v : Option Value) :
    (m.newLocalAt index name v).2.Indexed :=
  h.of_same (fun _ => rfl) (by simp [Scopes.newLocalAt]) fun _ hl => keyOf_append _ hl

theorem Indexed.setValue (h : m.Indexed) (l : LocalId) (v : Option Value) :
    (m.setValue l v).Indexed := by
  refine h.of_same (fun _ => rfl) (by simp [Scopes.setValue]) fun k _ => ?_
  rw [keyOf, keyOf, Scopes.setValue, List.getElem?_modify]
  by_cases hk : l = k
  · simp [hk, Function.comp_def]
  · simp [hk]

theorem localsOf_push (hs : s < m.scopes.length) (l : LocalId) (t : ScopeId) :
    (m.push s l).localsOf t = if t = s then m.localsOf s ++ [l] else m.localsOf t := by
  simp only [localsOf, push, List.getElem?_modify]
  by_cases ht : t = s
  · subst ht
    simp [List.getElem?_eq_getElem hs]
  · simp [ht, Ne.symm ht]

/-- A variable with a new name at the end of a scope: its index has to be the scope's size. -/
theorem indexed_push (h : m.Indexed) (hs : s < m.scopes.length) (hx : m.locals[l]? = some x)
    (hname : m.has s x.name = false) :
    (m.push s l).Indexed ↔ x.index.toNat = m.numberOfLocals s := by
  obtain ⟨hc, hall⟩ := indexed_iff.mp h
  have hl : l < m.locals.length := (List.getElem?_eq_some_iff.mp hx).1
  have hclosed : (m.push s l).Closed := by
    intro t k hk
    rw [localsOf_push hs] at hk
    split at hk
    · rcases List.mem_append.mp hk with hk | hk
      · exact hc s k hk
      · rw [List.mem_singleton.mp hk]
        exact hl
    · exact hc t k hk
  have hkey : m.keyOf l = some (x.index, x.name) := by rw [keyOf, hx, Option.map_some]
  have hkeys : ∀ t, (m.push s l).keys t =
      if t = s then m.keys s ++ [(x.index, x.name)] else m.keys t := by
    intro t
    rw [keys_eq, localsOf_push hs, keys_eq, keys_eq]
    split
    · rw [List.filterMap_append]
      exact congrArg _ (List.filterMap_cons_some hkey)
    · rfl
  have hfresh : x.name ∉ (m.keys s).map Prod.snd := by
    intro hmem
    rw [keys, List.map_map] at hmem
    have hhas := has_iff.mpr hmem
    rw [hname] at hhas
    cases hhas
  have hend : WellIndexed (m.keys s ++ [(x.index, x.name)]) ↔ x.index.toNat = m.numberOfLocals s := by
    rw [wellIndexed_concat (hall s) hfresh, keys_length (hc s)]
  rw [indexed_iff, ← hend]
  constructor
  · rintro ⟨-, hpushed⟩
    have hs' := hpushed s
    rwa [hkeys, if_pos rfl] at hs'
  · refine fun hs' => ⟨hclosed, fun t => ?_⟩
    rw [hkeys]
    split
    · exact hs'
    · exact hall t

/-! ### Names and values -/

theorem localsOf_prefix_push (m : Scopes) (s : ScopeId) (l : LocalId) (t : ScopeId) :
    m.localsOf t <+: (m.push s l).localsOf t := by
  by_cases hs : s < m.scopes.length
  · rw [localsOf_push hs]
    split
    · rename_i ht
      rw [ht]
      exact List.prefix_append ..
    · exact List.prefix_refl _
  · have hsame : (m.push s l).localsOf t = m.localsOf t := by
      rw [push, List.modify_eq_self (Nat.le_of_not_lt hs)]
    exact ⟨[], by rw [List.append_nil, hsame]⟩

theorem numberOfLocals_addLocal_le (m : Scopes) (s : ScopeId) (l : LocalId) (t : ScopeId) :
    m.numberOfLocals t ≤ (m.addLocal s l).2.numberOfLocals t := by
  rw [addLocal]
  split
  · exact le_rfl
  · exact (localsOf_prefix_push m s l t).length_le

theorem numberOfLocals_addValue_le (m : Scopes) (s : ScopeId) (name : String) (v : Option Value)
    (t : ScopeId) : m.numberOfLocals t ≤ (m.addValue s name v).2.numberOfLocals t := by
  rw [addValue]
  split
  · exact numberOfLocals_addLocal_le (m.newLocal s name v).2 s _ t
  · split <;> exact le_rfl

theorem numberOfLocals_addAll_le (m : Scopes) (s : ScopeId) (ls : List LocalId) (t : ScopeId) :
    m.numberOfLocals t ≤ (m.addAll s ls).2.numberOfLocals t := by
  induction ls generalizing m with
  | nil => exact le_rfl
  | cons l ls ih =>
      rw [addAll]
      split
      · exact ih m
      · split
        · exact ih m
        · exact (numberOfLocals_addValue_le m s _ _ t).trans (ih _)

theorem length_addLocal (m : Scopes) (s : ScopeId) (l : LocalId) :
    (m.addLocal s l).2.scopes.length = m.scopes.length := by
  rw [addLocal]
  split
  · rfl
  · exact List.length_modify ..

theorem length_addValue (m : Scopes) (s : ScopeId) (name : String) (v : Option Value) :
    (m.addValue s name v).2.scopes.length = m.scopes.length := by
  rw [addValue]
  split
  · exact length_addLocal (m.newLocal s name v).2 s _
  · split <;> rfl

/-- A new variable of the scope, at its end. -/
theorem addValue_new (m : Scopes) (s : ScopeId) (name : String) (v : Option Value)
    (h : m.Closed) (hnone : m.lookupHere s name = none) :
    let n := (m.newLocal s name v).2
    m.addValue s name v = (true, n.push s m.locals.length) ∧ n.has s name = false ∧
      n.locals[m.locals.length]? = some { name, index := .ofNat (m.numberOfLocals s), value := v } := by
  have hnew : (m.newLocal s name v).2.locals[m.locals.length]? =
      some { name, index := .ofNat (m.numberOfLocals s), value := v } := by simp [newLocal]
  have hhas : (m.newLocal s name v).2.has s name = false := by
    rw [has, lookupHere, Option.isSome_eq_false_iff, Option.isNone_iff_eq_none, List.find?_eq_none]
    intro l hl
    have hlt : l < m.locals.length := h s l hl
    rw [lookupHere, List.find?_eq_none] at hnone
    have hother := hnone l hl
    simpa [newLocal, List.getElem?_append_left hlt] using hother
  refine ⟨?_, hhas, hnew⟩
  rw [addValue, hnone]
  simp only [addLocal]
  rw [if_neg]
  · rfl
  · change ¬ ((m.newLocal s name v).2.locals[m.locals.length]?.map LocalVariable.name).any _ = true
    rw [hnew]
    simp [hhas]

theorem Indexed.addValue (h : m.Indexed) (hs : s < m.scopes.length) (v : Option Value)
    (hfits : (m.addValue s name v).2.numberOfLocals s < 2 ^ 64) :
    (m.addValue s name v).2.Indexed := by
  cases hfound : m.lookupHere s name with
  | none =>
      obtain ⟨heq, hname, hnew⟩ := addValue_new m s name v (indexed_iff.mp h).1 hfound
      have hlt := (numberOfLocals_addValue_le m s name v s).trans_lt hfits
      rw [heq]
      refine (indexed_push (h.newLocalAt _ _ _) hs hnew hname).mpr ?_
      exact Nat.mod_eq_of_lt hlt
  | some l =>
      rw [Scopes.addValue, hfound]
      dsimp only
      split
      · exact h
      · exact h.setValue l v

theorem Indexed.addAll (h : m.Indexed) (hs : s < m.scopes.length) (ls : List LocalId)
    (hfits : (m.addAll s ls).2.numberOfLocals s < 2 ^ 64) : (m.addAll s ls).2.Indexed := by
  induction ls generalizing m with
  | nil => exact h
  | cons l ls ih =>
      rw [Scopes.addAll] at hfits ⊢
      split
      · exact ih h hs (by rename_i hl; rw [hl] at hfits; exact hfits)
      · rename_i x hl
        rw [hl] at hfits
        dsimp only at hfits
        split
        · rename_i hx
          exact ih h hs (by rw [if_pos hx] at hfits; exact hfits)
        · rename_i hx
          rw [if_neg hx] at hfits
          have hfirst := (numberOfLocals_addAll_le _ s ls s).trans_lt hfits
          exact ih (h.addValue hs x.value hfirst) (by rw [length_addValue]; exact hs) hfits

/-! ### Unions -/

theorem localsOf_unionIn (m : Scopes) (ss : List ScopeId) (parent : Option ScopeId) (t : ScopeId) :
    (m.unionIn ss parent).2.localsOf t =
      if t = m.scopes.length then ss.flatMap m.localsOf else m.localsOf t := by
  simp only [localsOf, unionIn]
  rcases Nat.lt_trichotomy t m.scopes.length with ht | rfl | ht
  · rw [List.getElem?_append_left ht, if_neg ht.ne]
  · simp
  · rw [List.getElem?_eq_none (by simpa using Nat.succ_le_of_lt ht), List.getElem?_eq_none ht.le,
      if_neg ht.ne']

/-- A list of keys after another one starts at zero again. -/
theorem not_wellIndexed_append {ks js : List (UInt64 × String)} (hks : ks ≠ [])
    (hj : js ≠ []) (h : WellIndexed js) (rest : List (UInt64 × String)) :
    ¬ WellIndexed (ks ++ (js ++ rest)) := by
  rintro ⟨hindex, -⟩
  obtain ⟨j, js, rfl⟩ := List.exists_cons_of_ne_nil hj
  have hzero : j.1.toNat = 0 := by
    have hhead := congrArg (fun xs => xs[0]?) h.1
    simpa using hhead
  have hat := congrArg (fun xs => xs[ks.length]?) hindex
  simp [hzero] at hat
  exact hks (List.length_eq_zero_iff.mp hat.symm)

/-- The keys of a union come from the scopes that have variables. -/
theorem flatMap_keys (m : Scopes) (ss : List ScopeId) :
    ss.flatMap m.keys = (ss.filter fun s => m.numberOfLocals s != 0).flatMap m.keys := by
  induction ss with
  | nil => rfl
  | cons s ss ih =>
      rw [List.flatMap_cons, List.filter_cons, ih]
      split
      · rw [List.flatMap_cons]
      · rename_i hs
        have hnil : m.localsOf s = [] := by simpa [numberOfLocals] using hs
        rw [keys_eq, hnil]
        rfl

theorem indexed_unionIn (h : m.Indexed) (ss : List ScopeId) (parent : Option ScopeId) :
    (m.unionIn ss parent).2.Indexed ↔ (ss.filter fun s => m.numberOfLocals s != 0).length ≤ 1 := by
  obtain ⟨hc, hall⟩ := indexed_iff.mp h
  have hclosed : (m.unionIn ss parent).2.Closed := by
    intro t l hl
    rw [localsOf_unionIn] at hl
    split at hl
    · obtain ⟨s, -, hs⟩ := List.mem_flatMap.mp hl
      exact hc s l hs
    · exact hc t l hl
  have hkeys : ∀ t, (m.unionIn ss parent).2.keys t =
      if t = m.scopes.length then (ss.filter fun s => m.numberOfLocals s != 0).flatMap m.keys
      else m.keys t := by
    intro t
    rw [keys_eq, localsOf_unionIn, ← flatMap_keys]
    split
    · rw [List.filterMap_flatMap]
      exact List.flatMap_congr fun s _ => (keys_eq m s).symm
    · exact (keys_eq m t).symm
  have hne : ∀ s ∈ ss.filter fun s => m.numberOfLocals s != 0, m.keys s ≠ [] := by
    intro s hs hnil
    have hlen := keys_length (hc s)
    rw [hnil] at hlen
    simp [← hlen] at hs
  have hunion : WellIndexed ((ss.filter fun s => m.numberOfLocals s != 0).flatMap m.keys) ↔
      (ss.filter fun s => m.numberOfLocals s != 0).length ≤ 1 := by
    rcases hss : ss.filter fun s => m.numberOfLocals s != 0 with _ | ⟨s, _ | ⟨t, rest⟩⟩
    · simp [wellIndexed_nil]
    · simpa using hall s
    · rw [hss] at hne
      have hnot := not_wellIndexed_append (hne s (.head _)) (hne t (.tail _ (.head _))) (hall t)
        (rest.flatMap m.keys)
      simpa using hnot
  rw [indexed_iff, ← hunion]
  constructor
  · rintro ⟨-, hnew⟩
    have hlast := hnew m.scopes.length
    rwa [hkeys, if_pos rfl] at hlast
  · refine fun hnew => ⟨hclosed, fun t => ?_⟩
    rw [hkeys]
    split
    · exact hnew
    · exact hall t

theorem indexed_empty : ({} : Scopes).Indexed := by
  refine indexed_iff.mpr ⟨fun _ _ hl => by simp [localsOf] at hl, fun s => ?_⟩
  simp [keys_eq, localsOf, wellIndexed_nil]

end Scopes

/-! ### Runs -/

open Runs

/-- **One operation.**  It keeps every scope indexed if and only if the variable it adds is refused or
has the size of the scope for its index, and its union is of at most one scope with variables. -/
theorem indexed_step {m n : Scopes} {op : ScopeOp} (h : m.Indexed) (hstep : op.Step m n) :
    n.Indexed ↔ op.Keeps m := by
  obtain ⟨hlive, rfl, hfits⟩ := hstep
  cases op with
  | newScope parent => exact iff_of_true (h.newScope parent) trivial
  | newLocal owner name v => exact iff_of_true (h.newLocalAt _ name v) trivial
  | newLocalAt index name v => exact iff_of_true (h.newLocalAt index name v) trivial
  | setValue l v => exact iff_of_true (h.setValue l v) trivial
  | addValue s name v => exact iff_of_true (h.addValue hlive v (hfits s)) trivial
  | addScope s rhs => exact iff_of_true (h.addAll hlive _ (hfits s)) trivial
  | union ss parent => exact Scopes.indexed_unionIn h ss parent
  | addLocal s l =>
      obtain ⟨hs, hl⟩ := hlive
      have hx := List.getElem?_eq_getElem hl
      simp only [ScopeOp.apply, ScopeOp.Keeps, Scopes.addLocal, hx, Option.map_some, Option.any_some,
        Option.some.injEq, forall_eq']
      by_cases hname : m.has s m.locals[l].name = true
      · simp only [hname, if_true, true_or, iff_true]
        exact h
      · rw [if_neg hname, Scopes.indexed_push h hs hx (by simpa using hname)]
        simp [hname]

/-- **Scope indices.**  Along a run from no scopes, the index of every variable is its position in
every scope, names are distinct and lookups find them, if and only if each step adds variables
whose index is the size of the scope and unites at most one scope with variables. -/
theorem indexed_run {ops : List ScopeOp} {m : Scopes} (h : Run ScopeOp.Step ops {} m) :
    (∀ pre n, pre <+: ops → Run ScopeOp.Step pre {} n → n.Indexed) ↔
      ∀ pre op n, pre ++ [op] <+: ops → Run ScopeOp.Step pre {} n → op.Keeps n :=
  h.along_iff ScopeOp.step_unique (fun _ _ _ => indexed_step) Scopes.indexed_empty

namespace ScopeIndex.Sample

/-- `LocalVariable::New` twice for one scope, and `Add` of both. -/
def twoNews : List ScopeOp :=
  [.newScope none, .newLocal 0 "a" none, .newLocal 0 "b" none, .addLocal 0 0, .addLocal 0 1]

/-- `Add(name, value)` twice. -/
def twoValues : List ScopeOp := [.newScope none, .addValue 0 "a" none, .addValue 0 "b" none]

theorem fits_of_scopes {m : Scopes} (h : ∀ x ∈ m.scopes, x.locals.length < 2 ^ 64) : m.Fits := by
  intro s
  rw [Scopes.numberOfLocals, Scopes.localsOf]
  cases hs : m.scopes[s]? with
  | none => simp
  | some x => exact h x (List.mem_of_getElem? hs)

theorem twoValues_run : Run ScopeOp.Step twoValues {} (twoValues.foldl ScopeOp.apply {}) :=
  .head ⟨trivial, rfl, fits_of_scopes (by decide)⟩ <|
  .head ⟨by decide, rfl, fits_of_scopes (by decide)⟩ <|
  .head ⟨by decide, rfl, fits_of_scopes (by decide)⟩ <| .refl _

theorem twoNews_run : Run ScopeOp.Step twoNews {} (twoNews.foldl ScopeOp.apply {}) :=
  .head ⟨trivial, rfl, fits_of_scopes (by decide)⟩ <|
  .head ⟨trivial, rfl, fits_of_scopes (by decide)⟩ <|
  .head ⟨trivial, rfl, fits_of_scopes (by decide)⟩ <|
  .head ⟨by decide, rfl, fits_of_scopes (by decide)⟩ <|
  .head ⟨by decide, rfl, fits_of_scopes (by decide)⟩ <| .refl _

end ScopeIndex.Sample

open ScopeIndex.Sample in
theorem indexed_twoValues : (twoValues.foldl ScopeOp.apply {}).Indexed := by
  refine (indexed_run twoValues_run).mpr ?_ twoValues _ (List.prefix_refl _) twoValues_run
  intro pre op n hpre _
  have hop : op ∈ twoValues := hpre.subset (by simp)
  rcases hop with _ | ⟨_, _ | ⟨_, _ | ⟨_, ⟨⟩⟩⟩⟩ <;> exact trivial

open ScopeIndex.Sample in
/-- Two variables made for one scope before either is added have one index. -/
theorem not_indexed_twoNews :
    ¬ ∀ ops m, Run ScopeOp.Step ops {} m → m.Indexed := by
  intro h
  have hindex := (h twoNews _ twoNews_run 0).index
  exact absurd hindex (by decide)

end Gel
