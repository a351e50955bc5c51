import Gel.LocalScope
import Mathlib.Data.List.Nodup
import Mathlib.Data.List.Range

/-!
# ScopeIterator — the variables of a scope and of its parents

`LocalScope::RecursiveIterator` starts at the first variable of a scope and goes on to the parent
at the end of a scope.  `Next` moves to the parent without setting the index back, and `HasNext`
answers that there is a next variable whenever there is a parent.

* `climb`: what the iterator returns from a list of scopes, one list of variables each.
* `collect_eq`: the iterator returns what `climb` says.
* `collect_all_iff`: it returns every variable exactly when no scope but the root has one.
-/

namespace Gel

namespace Scopes

variable {m : Scopes} {s t : ScopeId} {ss ts : List ScopeId}

/-- The scopes from `s` up to the root, by `GetParent`. -/
inductive Ancestry (m : Scopes) : ScopeId → List ScopeId → Prop
  | root {s : ScopeId} (hs : s < m.scopes.length) (h : m.parentOf s = none) : Ancestry m s [s]
  | child {s p : ScopeId} {ss : List ScopeId} (h : m.parentOf s = some p) (hp : Ancestry m p ss) :
      Ancestry m s (s :: ss)

namespace Ancestry

theorem lt_length (h : m.Ancestry s ss) : s < m.scopes.length := by
  cases h with
  | root hs _ => exact hs
  | child h _ =>
      rw [parentOf, Option.bind_eq_some_iff] at h
      obtain ⟨x, hx, -⟩ := h
      exact (List.getElem?_eq_some_iff.mp hx).1

theorem unique (h : m.Ancestry s ss) (h' : m.Ancestry s ts) : ss = ts := by
  induction h generalizing ts with
  | root _ hn =>
      cases h' with
      | root => rfl
      | child hp _ => rw [hn] at hp; cases hp
  | child hp _ ih =>
      cases h' with
      | root _ hn => rw [hn] at hp; cases hp
      | child hp' h' =>
          rw [hp] at hp'
          cases hp'
          rw [ih h']

theorem of_mem (h : m.Ancestry s ss) (ht : t ∈ ss) : ∃ ts, m.Ancestry t ts ∧ ts <:+ ss := by
  induction h with
  | root hs hn =>
      obtain rfl := List.mem_singleton.mp ht
      exact ⟨_, .root hs hn, List.suffix_rfl⟩
  | @child s p ss hp h ih =>
      rcases List.mem_cons.mp ht with rfl | ht
      · exact ⟨_, .child hp h, List.suffix_rfl⟩
      · obtain ⟨ts, hts, hsuf⟩ := ih ht
        exact ⟨ts, hts, hsuf.trans (List.suffix_cons s ss)⟩

/-- No scope is its own ancestor. -/
theorem nodup (h : m.Ancestry s ss) : ss.Nodup := by
  induction h with
  | root => exact List.nodup_singleton _
  | @child s p ss hp h ih =>
      refine List.nodup_cons.mpr ⟨fun hmem => ?_, ih⟩
      obtain ⟨ts, hts, hsuf⟩ := h.of_mem hmem
      have heq : s :: ss = ts := (Ancestry.child hp h).unique hts
      have hlen := hsuf.length_le
      rw [← heq, List.length_cons] at hlen
      exact absurd hlen (Nat.not_succ_le_self _)

theorem length_le (h : m.Ancestry s ss) : ss.length ≤ m.scopes.length := by
  have hsub : ss ⊆ List.range m.scopes.length := by
    intro t ht
    obtain ⟨ts, hts, -⟩ := h.of_mem ht
    exact List.mem_range.mpr hts.lt_length
  have hle := h.nodup.length_le_of_subset hsub
  rwa [List.length_range] at hle

end Ancestry

end Scopes

/-- `LocalScope::RecursiveIterator`: the scope it is in and the index of the next variable. -/
structure RecursiveIterator where
  scope : ScopeId
  index : Nat := 0
  deriving DecidableEq, Repr

namespace RecursiveIterator

/-- `RecursiveIterator::HasNext`. -/
def hasNext (m : Scopes) (it : RecursiveIterator) : Bool :=
  it.index < m.numberOfLocals it.scope || (m.parentOf it.scope).isSome

/-- The loop of `RecursiveIterator::Next`, up at most `n` parents; the index stays. -/
def hop (m : Scopes) (index : Nat) : Nat → ScopeId → ScopeId
  | 0, s => s
  | n + 1, s =>
      if (m.localsOf s).isEmpty || m.numberOfLocals s ≤ index then
        match m.parentOf s with
        | some p => hop m index n p
        | none => s
      else s

/-- `RecursiveIterator::Next`; a chain of parents is no longer than the number of scopes. -/
def next (m : Scopes) (it : RecursiveIterator) : Except Fault (LocalId × RecursiveIterator) :=
  let s := hop m it.index m.scopes.length it.scope
  match m.getLocalAt s it.index with
  | some l => .ok (l, { scope := s, index := it.index + 1 })
  | none => .error .undefined

/-- `Next` while `HasNext()` holds, at most `n` times. -/
def collect (m : Scopes) : Nat → RecursiveIterator → Except Fault (List LocalId)
  | 0, _ => .error .timeout
  | n + 1, it =>
      if it.hasNext m then
        match it.next m with
        | .ok (l, it) => (l :: ·) <$> collect m n it
        | .error e => .error e
      else .ok []

variable {m : Scopes} {s : ScopeId} {ss : List ScopeId} {it : RecursiveIterator} {i n k : Nat}

/-- A run that ends in `n` rounds ends in the same way in more. -/
theorem collect_mono {r : Except Fault (List LocalId)} (h : collect m n it = r)
    (hr : r ≠ .error .timeout) (hk : n ≤ k) : collect m k it = r := by
  induction n generalizing it k r with
  | zero => exact absurd h.symm hr
  | succ n ih =>
      obtain ⟨k, rfl⟩ := Nat.exists_eq_add_of_lt hk
      rw [collect] at h ⊢
      by_cases hnext : it.hasNext m = true
      · rw [if_pos hnext] at h ⊢
        cases hit : it.next m with
        | error e =>
            rw [hit] at h
            exact h
        | ok r' =>
            obtain ⟨l, it'⟩ := r'
            rw [hit] at h
            dsimp only at h ⊢
            rw [ih rfl (fun ht => hr ?_) (Nat.le_add_right n k)]
            · exact h
            · rw [← h, ht]
              rfl
      · rwa [if_neg hnext] at h ⊢

/-! ### What it returns -/

section Climb

variable {α : Type} {vs l : List α} {vss : List (List α)}

/-- What is returned from the scopes of a chain when a next variable is asked for at an index:
the scopes that the index is past are left out, and behind a scope the index is its size. -/
def climb : Nat → List (List α) → Option (List α)
  | _, [] => none
  | i, [vs] => if i < vs.length then some (vs.drop i) else none
  | i, vs :: ws :: vss =>
      if i < vs.length then (vs.drop i ++ ·) <$> climb vs.length (ws :: vss)
      else climb i (ws :: vss)

/-- At an index past the first, a variable is left out. -/
theorem length_climb_lt (hi : 0 < i) (h : climb i vss = some l) : l.length < vss.flatten.length := by
  induction vss generalizing i l with
  | nil => cases h
  | cons vs vss ih =>
      cases vss with
      | nil =>
          rw [climb] at h
          split at h
          · cases h
            simp only [List.length_drop, List.flatten_cons, List.flatten_nil, List.append_nil]
            omega
          · cases h
      | cons ws vss =>
          rw [climb] at h
          rw [List.flatten_cons, List.length_append]
          split at h
          · rename_i hlt
            obtain ⟨l', hl', rfl⟩ := Option.map_eq_some_iff.mp h
            have hrest := ih (hi.trans hlt) hl'
            simp only [List.length_append, List.length_drop]
            omega
          · exact (ih hi h).trans_le (Nat.le_add_left _ _)

/-- From the first index everything is returned exactly when the last scope is the first one that
has something. -/
theorem climb_zero_iff (vs : List α) (vss : List (List α)) :
    climb 0 (vs :: vss) = some (vs :: vss).flatten ↔
      (∀ ws ∈ (vs :: vss).dropLast, ws = []) ∧ (vs :: vss).flatten ≠ [] := by
  induction vss generalizing vs with
  | nil =>
      rcases vs with - | ⟨v, vs⟩
      · simp [climb]
      · simp [climb]
  | cons ws vss ih =>
      rcases vs with - | ⟨v, vs⟩
      · have hskip : climb 0 ([] :: ws :: vss) = climb 0 (ws :: vss) := rfl
        rw [hskip, List.flatten_cons, List.nil_append, ih, List.dropLast_cons_cons,
          List.forall_mem_cons]
        simp
      · refine iff_of_false (fun h => ?_) (fun h => ?_)
        · rw [climb, if_pos (List.length_pos_of_ne_nil (List.cons_ne_nil v vs))] at h
          obtain ⟨l, hl, heq⟩ := Option.map_eq_some_iff.mp h
          rw [List.drop_zero, List.flatten_cons, List.append_cancel_left_eq] at heq
          have hlt := length_climb_lt (Nat.zero_lt_succ _) hl
          rw [heq] at hlt
          exact Nat.lt_irrefl _ hlt
        · have hnil := h.1 (v :: vs) (by rw [List.dropLast_cons_cons]; exact List.mem_cons_self)
          cases hnil

end Climb

/-- The scope the loop of `Next` ends in. -/
def stop (m : Scopes) (i : Nat) : List ScopeId → ScopeId → ScopeId
  | [], s => s
  | t :: ts, s => if i < m.numberOfLocals s then s else stop m i ts t

theorem hop_eq (h : m.Ancestry s ss) (hn : ss.length ≤ n + 1) : hop m i n s = stop m i ss.tail s := by
  induction h generalizing n with
  | root _ hnone =>
      cases n with
      | zero => rfl
      | succ n => rw [hop, hnone]; exact ite_self _
  | @child s p ss hp h ih =>
      rw [List.length_cons, Nat.add_le_add_iff_right] at hn
      cases n with
      | zero =>
          have hpos : 0 < ss.length := by cases h <;> exact Nat.zero_lt_succ _
          omega
      | succ n =>
          have htail : stop m i ss s = if i < m.numberOfLocals s then s else stop m i ss.tail p := by
            cases h <;> rfl
          rw [hop, hp, List.tail_cons, htail, ← ih hn]
          by_cases hi : i < m.numberOfLocals s
          · have hne : (m.localsOf s).isEmpty = false := by
              rw [List.isEmpty_eq_false_iff_exists_mem]
              exact List.exists_mem_of_length_pos (Nat.zero_lt_of_lt hi)
            rw [if_pos hi, hne]
            simp [hi]
          · rw [if_neg hi]
            simp [Nat.not_lt.mp hi]

/-- The result of `climb`; where it has none, `Next` reads past the end of the root. -/
def returned (m : Scopes) (i : Nat) (ss : List ScopeId) : Except Fault (List LocalId) :=
  match climb i (ss.map m.localsOf) with
  | some l => .ok l
  | none => .error .undefined

/-- The rest of a scope is returned first. -/
theorem collect_within (hi : i ≤ m.numberOfLocals s) (n : Nat) :
    collect m (m.numberOfLocals s - i + n) { scope := s, index := i } =
      ((m.localsOf s).drop i ++ ·) <$> collect m n { scope := s, index := m.numberOfLocals s } := by
  induction hk : m.numberOfLocals s - i generalizing i with
  | zero =>
      obtain rfl : i = m.numberOfLocals s := by omega
      rw [Nat.zero_add, Scopes.numberOfLocals, List.drop_length]
      cases collect m n { scope := s, index := (m.localsOf s).length } <;> rfl
  | succ k ih =>
      have hlt : i < m.numberOfLocals s := by omega
      have hstop : hop m i m.scopes.length s = s := by
        cases m.scopes.length with
        | zero => rfl
        | succ n =>
            have hne : (m.localsOf s).isEmpty = false := by
              rw [List.isEmpty_eq_false_iff_exists_mem]
              exact List.exists_mem_of_length_pos (Nat.zero_lt_of_lt hlt)
            rw [hop, hne]
            simp [hlt]
      have hget : m.getLocalAt s i = some ((m.localsOf s).get ⟨i, hlt⟩) :=
        List.getElem?_eq_getElem hlt
      have hnext : next m { scope := s, index := i } =
          .ok ((m.localsOf s).get ⟨i, hlt⟩, { scope := s, index := i + 1 }) := by
        rw [next, hstop, hget]
      have hhas : hasNext m { scope := s, index := i } = true := by simp [hasNext, hlt]
      rw [Nat.add_right_comm, collect, if_pos hhas, hnext]
      dsimp only
      rw [ih hlt (by omega), List.drop_eq_getElem_cons hlt]
      cases collect m n { scope := s, index := m.numberOfLocals s } <;> rfl

theorem returned_root (m : Scopes) (i : Nat) (s : ScopeId) : returned m i [s] =
    if i < m.numberOfLocals s then .ok ((m.localsOf s).drop i) else .error .undefined := by
  rw [returned, List.map_singleton, climb, Scopes.numberOfLocals]
  by_cases hi : i < (m.localsOf s).length
  · rw [if_pos hi, if_pos hi]
  · rw [if_neg hi, if_neg hi]

theorem returned_child (m : Scopes) (i : Nat) (s p : ScopeId) (ss : List ScopeId) :
    returned m i (s :: p :: ss) =
      if i < m.numberOfLocals s then
        ((m.localsOf s).drop i ++ ·) <$> returned m (m.numberOfLocals s) (p :: ss)
      else returned m i (p :: ss) := by
  simp only [returned, List.map_cons, climb, Scopes.numberOfLocals]
  by_cases hi : i < (m.localsOf s).length
  · rw [if_pos hi, if_pos hi]
    cases climb (m.localsOf s).length (m.localsOf p :: ss.map m.localsOf) <;> rfl
  · rw [if_neg hi, if_neg hi]

/-- What `Next` at a variable and the rounds behind it return. -/
def onward (m : Scopes) (n : Nat) (s : ScopeId) (i : Nat) : Except Fault (List LocalId) :=
  match m.getLocalAt s i with
  | some l => (l :: ·) <$> collect m n { scope := s, index := i + 1 }
  | none => .error .undefined

/-- `Next` at the first variable of a scope that is still to be returned. -/
theorem next_within (h : i < m.numberOfLocals s) {r : Except Fault (List LocalId)}
    (hrest : ((m.localsOf s).drop (i + 1) ++ ·) <$>
      collect m k { scope := s, index := m.numberOfLocals s } = r)
    (hr : r ≠ .error .timeout) (hn : m.numberOfLocals s - (i + 1) + k ≤ n) :
    onward m n s i = ((m.localsOf s).get ⟨i, h⟩ :: ·) <$> r := by
  have hget : m.getLocalAt s i = some ((m.localsOf s).get ⟨i, h⟩) := List.getElem?_eq_getElem h
  rw [onward, hget]
  dsimp only
  rw [collect_mono ((collect_within (Nat.succ_le_of_lt h) k).trans hrest) hr hn]

/-- What `Next` and the rounds behind it return. -/
theorem next_eq (h : m.Ancestry s ss) (i : Nat) : ∃ k, ∀ n, k ≤ n →
    onward m n (stop m i ss.tail s) i = returned m i ss := by
  induction h generalizing i with
  | @root s hs hnone =>
      refine ⟨m.numberOfLocals s - (i + 1) + 1, fun n hn => ?_⟩
      have hend : collect m 1 { scope := s, index := m.numberOfLocals s } = .ok [] := by
        simp [collect, hasNext, hnone]
      have hstop : stop m i [s].tail s = s := rfl
      rw [hstop, returned_root]
      by_cases hi : i < m.numberOfLocals s
      · have hrest : ((m.localsOf s).drop (i + 1) ++ ·) <$>
            collect m 1 { scope := s, index := m.numberOfLocals s } =
              .ok ((m.localsOf s).drop (i + 1)) := by
          rw [hend]
          exact congrArg Except.ok (List.append_nil _)
        rw [next_within hi hrest (by simp) hn, if_pos hi, List.drop_eq_getElem_cons hi]
        rfl
      · have hget : m.getLocalAt s i = none := List.getElem?_eq_none (Nat.not_lt.mp hi)
        rw [if_neg hi, onward, hget]
  | @child s p ss hp h ih =>
      obtain ⟨ts, rfl⟩ : ∃ ts, ss = p :: ts := by cases h <;> exact ⟨_, rfl⟩
      have hstop (j : Nat) : stop m j (s :: p :: ts).tail s =
          if j < m.numberOfLocals s then s else stop m j (p :: ts).tail p := rfl
      rw [hstop, returned_child]
      by_cases hi : i < m.numberOfLocals s
      · rw [if_pos hi, if_pos hi]
        -- behind the scope the index is its size, at which `Next` goes on to the parent
        obtain ⟨k, hk⟩ := ih (m.numberOfLocals s)
        refine ⟨m.numberOfLocals s - (i + 1) + (k + 1), fun n hn => ?_⟩
        have hhas : hasNext m { scope := s, index := m.numberOfLocals s } = true := by
          simp [hasNext, hp]
        have hhop : hop m (m.numberOfLocals s) m.scopes.length s =
            stop m (m.numberOfLocals s) (p :: ts).tail p := by
          rw [hop_eq (.child hp h) ((Scopes.Ancestry.child hp h).length_le.trans (Nat.le_succ _)),
            hstop, if_neg (Nat.lt_irrefl _)]
        have hmore : collect m (k + 1) { scope := s, index := m.numberOfLocals s } =
            returned m (m.numberOfLocals s) (p :: ts) := by
          rw [collect, if_pos hhas, ← hk k le_rfl, next, onward]
          dsimp only
          rw [hhop]
          cases m.getLocalAt (stop m (m.numberOfLocals s) (p :: ts).tail p)
            (m.numberOfLocals s) <;> rfl
        rw [next_within hi (congrArg _ hmore) ?_ hn, List.drop_eq_getElem_cons hi]
        · cases returned m (m.numberOfLocals s) (p :: ts) <;> rfl
        · rw [returned]
          cases climb (m.numberOfLocals s) ((p :: ts).map m.localsOf) <;>
            simp [Functor.map, Except.map]
      · rw [if_neg hi, if_neg hi]
        exact ih i

/-- **The iteration from the first variable** of a chain of scopes. -/
theorem collect_eq (h : m.Ancestry s ss) : ∃ k, ∀ n, k ≤ n →
    collect m n { scope := s } =
      if ss.length = 1 ∧ m.localsOf s = [] then .ok [] else returned m 0 ss := by
  obtain ⟨k, hk⟩ := next_eq h 0
  refine ⟨k + 1, fun n hn => ?_⟩
  obtain ⟨n, rfl⟩ := Nat.exists_eq_add_of_le' (Nat.le_trans (Nat.le_add_left 1 k) hn)
  have hhas : hasNext m { scope := s } = true ↔ ¬(ss.length = 1 ∧ m.localsOf s = []) := by
    cases h with
    | root hs hnone => simp [hasNext, hnone, Scopes.numberOfLocals, List.length_pos_iff]
    | child hp h => cases h <;> simp [hasNext, hp]
  rw [collect]
  by_cases hb : hasNext m { scope := s } = true
  · rw [if_pos hb, if_neg (hhas.mp hb), ← hk n (Nat.le_of_succ_le_succ hn), next, onward]
    dsimp only
    rw [hop_eq h (h.length_le.trans (Nat.le_succ _))]
    cases m.getLocalAt (stop m 0 ss.tail s) 0 <;> rfl
  · rw [if_neg hb, if_pos (not_not.mp fun hne => hb (hhas.mpr hne))]

/-- Every variable of the scopes is returned once, in order. -/
def CollectsAll (m : Scopes) (s : ScopeId) (ss : List ScopeId) : Prop :=
  ∃ n, collect m n { scope := s } = .ok (ss.flatMap m.localsOf)

/-- **Recursive iteration.**  It returns every variable of the chain exactly when no scope below
the root has one, and the root has one if there is a scope below it. -/
theorem collectsAll_iff (h : m.Ancestry s ss) : CollectsAll m s ss ↔
    (∀ t ∈ ss.dropLast, m.localsOf t = []) ∧ (ss.length = 1 ∨ ∃ t ∈ ss, m.localsOf t ≠ []) := by
  obtain ⟨k, hk⟩ := collect_eq h
  have hrun : CollectsAll m s ss ↔
      (if ss.length = 1 ∧ m.localsOf s = [] then .ok [] else returned m 0 ss) =
        .ok (ss.flatMap m.localsOf) := by
    constructor
    · rintro ⟨n, hn⟩
      rw [← hk (max k n) (le_max_left k n)]
      exact collect_mono hn (by simp) (le_max_right k n)
    · intro heq
      exact ⟨k, (hk k le_rfl).trans heq⟩
  have hsome : (∃ t ∈ ss, m.localsOf t ≠ []) ↔ (ss.map m.localsOf).flatten ≠ [] := by
    simp [List.flatten_eq_nil_iff]
  rw [hrun, hsome]
  by_cases hone : ss.length = 1 ∧ m.localsOf s = []
  · rw [if_pos hone]
    obtain ⟨hlen, hnil⟩ := hone
    cases h with
    | root => simp [hnil]
    | child hp h => cases h <;> simp at hlen
  · rw [if_neg hone]
    have hclimb : returned m 0 ss = .ok (ss.flatMap m.localsOf) ↔
        climb 0 (ss.map m.localsOf) = some (ss.map m.localsOf).flatten := by
      rw [returned, List.flatMap_def]
      cases climb 0 (ss.map m.localsOf) <;> simp
    obtain ⟨ts, rfl⟩ : ∃ ts, ss = s :: ts := by cases h <;> exact ⟨_, rfl⟩
    rw [hclimb, List.map_cons, climb_zero_iff, ← List.map_cons, ← List.map_dropLast,
      List.forall_mem_map]
    refine and_congr_right fun _ => ⟨.inr, ?_⟩
    rintro (hlen | hsome)
    · obtain rfl : ts = [] := by simpa using hlen
      have hne : m.localsOf s ≠ [] := fun hnil => hone ⟨rfl, hnil⟩
      simpa using hne
    · exact hsome

namespace Sample

/-- A scope with the variables of `inner` in a root with one variable. -/
def scopes (inner : List LocalId) : Scopes where
  locals := [{ name := "x", index := 0 }, { name := "y", index := 0 }]
  scopes := [{ parent := none, locals := [0] }, { parent := some 0, locals := inner }]

theorem ancestry (inner : List LocalId) : (scopes inner).Ancestry 1 [1, 0] :=
  .child rfl (.root (Nat.zero_lt_succ _) rfl)

end Sample

theorem collectsAll_empty_in_root : CollectsAll (Sample.scopes []) 1 [1, 0] :=
  (collectsAll_iff (Sample.ancestry [])).mpr
    ⟨by simp [Scopes.localsOf, Sample.scopes], .inr ⟨0, by simp, by simp [Scopes.localsOf, Sample.scopes]⟩⟩

/-- One variable in each scope: behind the inner one `Next` reads the root at index 1. -/
theorem not_collectsAll_one_each : ¬ ∀ (m : Scopes) (s : ScopeId) (ss : List ScopeId),
    m.Ancestry s ss → CollectsAll m s ss := by
  intro h
  obtain ⟨n, hn⟩ := h (Sample.scopes [1]) 1 [1, 0] (Sample.ancestry [1])
  have hpast : collect (Sample.scopes [1]) 2 { scope := 1 } = .error .undefined := rfl
  have hall := collect_mono hn (by simp) (le_max_left n 2)
  rw [collect_mono hpast (by simp) (le_max_right n 2)] at hall
  cases hall

end RecursiveIterator

end Gel
