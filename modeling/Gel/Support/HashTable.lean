import Mathlib.Data.List.Pairwise
import Mathlib.Data.Set.Basic

/-!
# HashTable — tables of keys with a hash and a comparison

A table calls a hash and a comparison of its user.  The comparison may fail.  What is known of a
table is what it does on keys on which the comparison is an equivalence and the hash agrees with
it (`Compatible`); `insertAll_ok` and `find_insertAll` follow for tables built from a list.

* `chained`: the table with one chain.
-/

variable {κ ν ε : Type}

/-- On the keys in `K` the comparison is an equivalence, and equal keys have one hash. -/
structure Compatible (hash : κ → UInt64) (eq : κ → κ → Except ε Bool) (K : Set κ) : Prop where
  total : ∀ a ∈ K, ∀ b ∈ K, ∃ e, eq a b = .ok e
  refl : ∀ a ∈ K, eq a a = .ok true
  symm : ∀ a ∈ K, ∀ b ∈ K, eq a b = .ok true → eq b a = .ok true
  trans : ∀ a ∈ K, ∀ b ∈ K, ∀ c ∈ K, eq a b = .ok true → eq b c = .ok true → eq a c = .ok true
  hash : ∀ a ∈ K, ∀ b ∈ K, eq a b = .ok true → hash a = hash b

/-- A comparison that decides an equivalence on the keys. -/
theorem Compatible.of_equivalence {hash : κ → UInt64} {eq : κ → κ → Except ε Bool} {K : Set κ}
    {R : κ → κ → Prop} (hR : Equivalence R)
    (heq : ∀ a ∈ K, ∀ b ∈ K, ∃ e, eq a b = .ok e ∧ (e = true ↔ R a b))
    (hhash : ∀ a b, R a b → hash a = hash b) : Compatible hash eq K := by
  have hiff : ∀ a ∈ K, ∀ b ∈ K, eq a b = .ok true ↔ R a b := by
    intro a ha b hb
    obtain ⟨e, he, hiff⟩ := heq a ha b hb
    rw [he, Except.ok.injEq, hiff]
  refine ⟨?_, ?_, ?_, ?_, ?_⟩
  · intro a ha b hb
    obtain ⟨e, he, -⟩ := heq a ha b hb
    exact ⟨e, he⟩
  · intro a ha
    exact (hiff a ha a ha).mpr (hR.refl a)
  · intro a ha b hb h
    exact (hiff b hb a ha).mpr (hR.symm ((hiff a ha b hb).mp h))
  · intro a ha b hb c hc hab hbc
    exact (hiff a ha c hc).mpr (hR.trans ((hiff a ha b hb).mp hab) ((hiff b hb c hc).mp hbc))
  · intro a ha b hb h
    exact hhash a b ((hiff a ha b hb).mp h)

/-- A hash table; a table with a key equal to the one of a new entry does not take the entry. -/
structure HashTable (hash : κ → UInt64) (eq : κ → κ → Except ε Bool) (ν : Type) where
  Storage : Type
  entries : Storage → List (κ × ν)
  empty : Storage
  insert : Storage → κ × ν → Except ε Storage
  find : Storage → κ → Except ε (Option (κ × ν))
  entries_empty : entries empty = []
  entries_insert : ∀ {s p s'}, insert s p = .ok s' → ∀ e ∈ entries s', e ∈ entries s ∨ e = p
  insert_ok : ∀ {K}, Compatible hash eq K → ∀ {s p}, (∀ e ∈ entries s, e.1 ∈ K) → p.1 ∈ K →
    ∃ s', insert s p = .ok s' ∧ (∀ e ∈ entries s, e ∈ entries s') ∧
      ((∀ e ∈ entries s, eq p.1 e.1 ≠ .ok true) → p ∈ entries s')
  found : ∀ {s k e}, find s k = .ok (some e) → e ∈ entries s ∧ eq k e.1 = .ok true
  find_ok : ∀ {K}, Compatible hash eq K → ∀ {s k}, (∀ e ∈ entries s, e.1 ∈ K) → k ∈ K →
    ∃ r, find s k = .ok r ∧ (r = none → ∀ e ∈ entries s, eq k e.1 ≠ .ok true)

namespace HashTable

variable {hash : κ → UInt64} {eq : κ → κ → Except ε Bool} (t : HashTable hash eq ν)

/-- Insert the entries in turn. -/
def insertAll : List (κ × ν) → t.Storage → Except ε t.Storage
  | [], s => .ok s
  | p :: ps, s => t.insert s p >>= insertAll ps

/-- A table built from a list has no other entries. -/
theorem entries_insertAll {ps : List (κ × ν)} : ∀ {s s' : t.Storage}, t.insertAll ps s = .ok s' →
    ∀ e ∈ t.entries s', e ∈ t.entries s ∨ e ∈ ps := by
  induction ps with
  | nil =>
      intro s s' h e he
      cases h
      exact .inl he
  | cons p ps ih =>
      intro s s' h e he
      rw [insertAll] at h
      rcases hp : t.insert s p with x | s₁
      · rw [hp] at h
        cases h
      rw [hp] at h
      rcases ih h e he with he | he
      · rcases t.entries_insert hp e he with he | rfl
        · exact .inl he
        · exact .inr List.mem_cons_self
      · exact .inr (List.mem_cons_of_mem p he)

/-- No two of the entries have equal keys. -/
def DistinctKeys (eq : κ → κ → Except ε Bool) (ps : List (κ × ν)) : Prop :=
  ps.Pairwise fun p q => eq p.1 q.1 ≠ .ok true ∧ eq q.1 p.1 ≠ .ok true

variable {t} {K : Set κ} (hK : Compatible hash eq K)

include hK

/-- Entries with compatible keys are inserted, and each of their keys is in the table. -/
theorem insertAll_ok {ps : List (κ × ν)} : ∀ {s : t.Storage}, (∀ e ∈ t.entries s, e.1 ∈ K) →
    (∀ p ∈ ps, p.1 ∈ K) → ∃ s', t.insertAll ps s = .ok s' ∧ (∀ e ∈ t.entries s, e ∈ t.entries s') ∧
      ∀ p ∈ ps, ∃ e ∈ t.entries s', eq p.1 e.1 = .ok true := by
  induction ps with
  | nil =>
      intro s hs hps
      exact ⟨s, rfl, fun e he => he, by simp⟩
  | cons p ps ih =>
      intro s hs hps
      rw [List.forall_mem_cons] at hps
      obtain ⟨s₁, hs₁, hkeep, hnew⟩ := t.insert_ok hK hs hps.1
      have hs₁K : ∀ e ∈ t.entries s₁, e.1 ∈ K := by
        intro e he
        rcases t.entries_insert hs₁ e he with he | rfl
        · exact hs e he
        · exact hps.1
      obtain ⟨s', hs', hkeep', hall⟩ := ih hs₁K hps.2
      refine ⟨s', by rw [insertAll, hs₁]; exact hs', fun e he => hkeep' e (hkeep e he), ?_⟩
      rw [List.forall_mem_cons]
      refine ⟨?_, hall⟩
      -- the table had an equal key, or it has the entry now
      by_cases hp : ∃ e ∈ t.entries s, eq p.1 e.1 = .ok true
      · obtain ⟨e, he, heq⟩ := hp
        exact ⟨e, hkeep' e (hkeep e he), heq⟩
      · refine ⟨p, hkeep' p (hnew ?_), hK.refl _ hps.1⟩
        intro e he heq
        exact hp ⟨e, he, heq⟩

/-- What a key equal to one in the table finds is an entry with an equal key. -/
theorem find_of_mem {s : t.Storage} {k : κ} (hs : ∀ e ∈ t.entries s, e.1 ∈ K) (hk : k ∈ K)
    {e : κ × ν} (he : e ∈ t.entries s) (heq : eq k e.1 = .ok true) :
    ∃ e' ∈ t.entries s, t.find s k = .ok (some e') ∧ eq k e'.1 = .ok true := by
  obtain ⟨r, hr, hnone⟩ := t.find_ok hK hs hk
  rcases r with - | e'
  · exact absurd heq (hnone rfl e he)
  · exact ⟨e', (t.found hr).1, hr, (t.found hr).2⟩

/-- A table built from a list finds an entry for every key equal to one of the list. -/
theorem find_insertAll {ps : List (κ × ν)} (hps : ∀ p ∈ ps, p.1 ∈ K) {p : κ × ν} (hp : p ∈ ps)
    {k : κ} (hk : k ∈ K) (heq : eq k p.1 = .ok true) : ∃ s, t.insertAll ps t.empty = .ok s ∧
      ∃ e ∈ ps, t.find s k = .ok (some e) ∧ eq k e.1 = .ok true := by
  have hempty : ∀ e ∈ t.entries t.empty, e.1 ∈ K := by simp [t.entries_empty]
  obtain ⟨s, hs, -, hall⟩ := t.insertAll_ok hK hempty hps
  have hmem : ∀ e ∈ t.entries s, e ∈ ps := by
    intro e he
    have := t.entries_insertAll hs e he
    rwa [t.entries_empty, List.mem_nil_iff, false_or] at this
  obtain ⟨e, he, hpe⟩ := hall p hp
  have hke := hK.trans k hk p.1 (hps p hp) e.1 (hps e (hmem e he)) heq hpe
  obtain ⟨e', he', hfind, heq'⟩ := find_of_mem hK (fun e he => hps e (hmem e he)) hk he hke
  exact ⟨s, hs, e', hmem e' he', hfind, heq'⟩

/-- Among distinct keys it finds the entry itself. -/
theorem find_insertAll_of_distinct {ps : List (κ × ν)} (hd : DistinctKeys eq ps)
    (hps : ∀ p ∈ ps, p.1 ∈ K) {p : κ × ν} (hp : p ∈ ps) {k : κ} (hk : k ∈ K)
    (heq : eq k p.1 = .ok true) :
    ∃ s, t.insertAll ps t.empty = .ok s ∧ t.find s k = .ok (some p) := by
  obtain ⟨s, hs, e, he, hfind, heq'⟩ := find_insertAll (t := t) hK hps hp hk heq
  have hpe : eq p.1 e.1 = .ok true :=
    hK.trans _ (hps p hp) k hk _ (hps e he) (hK.symm k hk _ (hps p hp) heq) heq'
  have : p = e := by
    by_contra hne
    have : Std.Symm fun p q : κ × ν => eq p.1 q.1 ≠ .ok true ∧ eq q.1 p.1 ≠ .ok true :=
      ⟨fun _ _ h => ⟨h.2, h.1⟩⟩
    exact (List.Pairwise.forall hd hp he hne).1 hpe
  exact ⟨s, hs, this ▸ hfind⟩

omit hK

/-! ### One chain -/

section Chained

variable (hash eq)

/-- The first entry of the chain with the hash of the key and a key equal to it. -/
def lookup (k : κ) : List (κ × ν) → Except ε (Option (κ × ν))
  | [] => .ok none
  | e :: es =>
      if hash e.1 = hash k then do
        if ← eq k e.1 then return some e else lookup k es
      else lookup k es

variable {hash eq}

theorem lookup_cons {k : κ} {e : κ × ν} {es : List (κ × ν)} (h : hash e.1 = hash k) :
    lookup hash eq k (e :: es)
      = (eq k e.1 >>= fun b => if b = true then .ok (some e) else lookup hash eq k es) := by
  rw [lookup, if_pos h]
  rfl

theorem lookup_found {k : κ} {e : κ × ν} {es : List (κ × ν)}
    (h : lookup hash eq k es = .ok (some e)) : e ∈ es ∧ eq k e.1 = .ok true := by
  induction es with
  | nil => cases h
  | cons e' es ih =>
      by_cases hh : hash e'.1 = hash k
      · rw [lookup_cons hh] at h
        rcases hb : eq k e'.1 with x | b
        · rw [hb] at h
          cases h
        rw [hb] at h
        cases b with
        | true =>
            cases h
            exact ⟨List.mem_cons_self, hb⟩
        | false => exact ⟨List.mem_cons_of_mem e' (ih h).1, (ih h).2⟩
      · rw [lookup, if_neg hh] at h
        exact ⟨List.mem_cons_of_mem e' (ih h).1, (ih h).2⟩

theorem lookup_ok (hK : Compatible hash eq K) {k : κ} (hk : k ∈ K) {es : List (κ × ν)}
    (hes : ∀ e ∈ es, e.1 ∈ K) :
    ∃ r, lookup hash eq k es = .ok r ∧ (r = none → ∀ e ∈ es, eq k e.1 ≠ .ok true) := by
  induction es with
  | nil => exact ⟨none, rfl, by simp⟩
  | cons e es ih =>
      rw [List.forall_mem_cons] at hes
      obtain ⟨r, hr, hnone⟩ := ih hes.2
      by_cases hh : hash e.1 = hash k
      · obtain ⟨b, hb⟩ := hK.total k hk e.1 hes.1
        rw [lookup_cons hh, hb]
        cases b with
        | true => exact ⟨some e, rfl, by simp⟩
        | false =>
            refine ⟨r, hr, fun h => ?_⟩
            rw [List.forall_mem_cons, hb]
            exact ⟨by simp, hnone h⟩
      · refine ⟨r, by rw [lookup, if_neg hh]; exact hr, fun h => ?_⟩
        rw [List.forall_mem_cons]
        exact ⟨fun heq => hh (hK.hash k hk e.1 hes.1 heq).symm, hnone h⟩

variable (hash eq)

/-- Append an entry to the chain unless its key is there. -/
def append (es : List (κ × ν)) (p : κ × ν) : Except ε (List (κ × ν)) :=
  (fun r => if r.isSome = true then es else es ++ [p]) <$> lookup hash eq p.1 es

variable {hash eq}

theorem append_eq {es es' : List (κ × ν)} {p : κ × ν} (h : append hash eq es p = .ok es') :
    ∃ r, lookup hash eq p.1 es = .ok r ∧ (if r.isSome = true then es else es ++ [p]) = es' := by
  rw [append] at h
  rcases hr : lookup hash eq p.1 es with x | r
  · rw [hr] at h
    cases h
  · rw [hr] at h
    exact ⟨r, rfl, Except.ok.inj h⟩

theorem mem_of_append {es es' : List (κ × ν)} {p : κ × ν} (h : append hash eq es p = .ok es') :
    ∀ e ∈ es', e ∈ es ∨ e = p := by
  obtain ⟨r, -, rfl⟩ := append_eq h
  intro e he
  by_cases hr : r.isSome = true
  · rw [if_pos hr] at he
    exact .inl he
  · rw [if_neg hr] at he
    simpa using he

theorem append_ok (hK : Compatible hash eq K) {es : List (κ × ν)} {p : κ × ν}
    (hes : ∀ e ∈ es, e.1 ∈ K) (hp : p.1 ∈ K) :
    ∃ es', append hash eq es p = .ok es' ∧ (∀ e ∈ es, e ∈ es') ∧
      ((∀ e ∈ es, eq p.1 e.1 ≠ .ok true) → p ∈ es') := by
  obtain ⟨r, hr, -⟩ := lookup_ok hK hp hes
  refine ⟨if r.isSome = true then es else es ++ [p], by rw [append, hr]; rfl, ?_, ?_⟩
  · intro e he
    by_cases hs : r.isSome = true
    · rwa [if_pos hs]
    · rw [if_neg hs]
      exact List.mem_append_left _ he
  · intro hne
    rcases r with - | e
    · simp
    · exact absurd (lookup_found hr).2 (hne e (lookup_found hr).1)

variable (hash eq ν)

/-- The table with one chain of entries. -/
def chained : HashTable hash eq ν where
  Storage := List (κ × ν)
  entries := id
  empty := []
  insert := append hash eq
  find es k := lookup hash eq k es
  entries_empty := rfl
  entries_insert := mem_of_append
  insert_ok hK _ _ := append_ok hK
  found := lookup_found
  find_ok hK _ _ hes hk := lookup_ok hK hk hes

end Chained

end HashTable
