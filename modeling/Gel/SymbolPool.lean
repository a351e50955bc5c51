import Gel.Naming
import Mathlib.Data.Set.Card

/-!
# SymbolPool — the symbols of a thread and their names

`Symbol::New` composes the name of a symbol, looks it up in a trie and makes the symbol from its
name where the trie has none.  It counts every call as a symbol of the pool, `NewInternal` takes a
name with a namespace and a type apart in the wrong place, and `Symbol::Equals` ignores the type.

* `roundTrips_iff`: which components a symbol reports as they were given.
* `Records`: what the pool knows of the calls so far.
* `interned_iff`: the sequences of calls whose results are interned.
-/

namespace Gel

/-- A `Symbol*`. -/
abbrev SymbolId := Nat

namespace Symbol

/-- The name `Symbol::New` composes. -/
def key (s : Symbol) : List Char := join s.ns.toList s.type.toList s.name.toList

theorem toList_fullyQualifiedName (s : Symbol) : s.fullyQualifiedName.toList = s.key := by
  have h := fullyQualifiedName_ofList s.ns.toList s.type.toList s.name.toList
  simp only [String.ofList_toList] at h
  rw [key, h, String.toList_ofList]

/-- `Symbol::HasNamespace`. -/
def hasNamespace (s : Symbol) : Bool := s.ns != ""

/-- `Symbol::HasSymbolType`. -/
def hasSymbolType (s : Symbol) : Bool := s.type != ""

/-- Parts without a separator, and a name. -/
structure WellFormed (s : Symbol) : Prop where
  slash : '/' ∉ s.ns.toList ∧ '/' ∉ s.type.toList ∧ '/' ∉ s.name.toList
  colon : ':' ∉ s.ns.toList ∧ ':' ∉ s.type.toList ∧ ':' ∉ s.name.toList
  named : s.name ≠ ""

section Parts

variable {ns type name : List Char}

/-- A name with at most one of the two prefixes is taken apart where it was put together. -/
theorem split_join (hslash : '/' ∉ ns ∧ '/' ∉ type ∧ '/' ∉ name)
    (hcolon : ':' ∉ ns ∧ ':' ∉ type ∧ ':' ∉ name) (h : ns = [] ∨ type = []) :
    split (join ns type name) = .ok (ns, type, name) := by
  obtain ⟨hs, hs', hs''⟩ := hslash
  obtain ⟨hc, hc', hc''⟩ := hcolon
  rcases ns with - | ⟨a, ns⟩
  · rcases type with - | ⟨d, type⟩
    · have hjoin : join [] [] name = name := rfl
      simp [hjoin, split, lastIndexOf_of_not_mem hs'', lastIndexOf_of_not_mem hc'']
    · have hjoin : join [] (d :: type) name = (d :: type) ++ ':' :: name := by simp [join]
      have hnone : '/' ∉ (d :: type) ++ ':' :: name := by
        simp only [List.mem_append, List.mem_cons, not_or] at hs' ⊢
        exact ⟨hs', by decide, hs''⟩
      rw [hjoin, split, lastIndexOf_of_not_mem hnone, lastIndexOf_append hc'']
      simp
  · obtain rfl : type = [] := h.resolve_left (List.cons_ne_nil a ns)
    have hjoin : join (a :: ns) [] name = (a :: ns) ++ '/' :: name := by simp [join]
    rw [hjoin]
    refine split_name (List.cons_ne_nil a ns) hs'' (.inl fun hm => ?_)
    simp only [List.cons_append, List.tail_cons, List.mem_append, List.mem_cons] at hm
    rcases hm with hm | hm | hm
    · exact hc (List.mem_cons_of_mem a hm)
    · cases hm
    · exact hc'' hm

/-- A name with both prefixes is not. -/
theorem split_join_ne (hslash : '/' ∉ type ∧ '/' ∉ name) (hcolon : ':' ∉ name) (hns : ns ≠ [])
    (htype : type ≠ []) (hname : name ≠ []) : split (join ns type name) ≠ .ok (ns, type, name) := by
  have hjoin : join ns type name = ns ++ '/' :: (type ++ ':' :: name) := by
    simp [join, hns, htype]
  have hx : '/' ∉ type ++ ':' :: name := by
    simp only [List.mem_append, List.mem_cons, not_or]
    exact ⟨hslash.1, by decide, hslash.2⟩
  rw [hjoin, split_type (u := ns ++ '/' :: type) hns hx (by simp) (by simp) hcolon (by simp)]
  intro h
  split at h
  · cases h
  · -- the name is cut behind the place of the colon
    injection h with h
    injection h with _ h
    injection h with _ h
    have hlen := congrArg List.length h
    have hpos := List.length_pos_iff.mpr hname
    have hpos' := List.length_pos_iff.mpr hns
    simp only [List.length_drop, List.length_append, List.length_cons] at hlen
    omega

end Parts

theorem newInternal_of_split {w ns type name : List Char} (h : split w = .ok (ns, type, name)) :
    newInternal w = .ok { ns := .ofList ns, type := .ofList type, name := .ofList name } := by
  rw [newInternal, h]
  rfl

theorem split_of_newInternal {w : List Char} {s : Symbol} (h : newInternal w = .ok s) :
    split w = .ok (s.ns.toList, s.type.toList, s.name.toList) := by
  rw [newInternal] at h
  cases hw : split w with
  | error e => rw [hw] at h; cases h
  | ok r =>
      rw [hw] at h
      cases h
      simp

/-- A well-formed symbol is made of its own name exactly when it lacks a prefix. -/
theorem newInternal_key_iff {s : Symbol} (h : s.WellFormed) :
    newInternal s.key = .ok s ↔ s.ns = "" ∨ s.type = "" := by
  have hempty (t : String) : t.toList = [] ↔ t = "" := by
    rw [← String.toList_inj, String.toList_empty]
  constructor
  · intro hint
    by_contra hne
    rw [not_or, ← hempty, ← hempty] at hne
    exact split_join_ne ⟨h.slash.2.1, h.slash.2.2⟩ h.colon.2.2 hne.1 hne.2
      (fun hn => h.named ((hempty _).mp hn)) (split_of_newInternal hint)
  · intro hor
    rw [← hempty, ← hempty] at hor
    rw [key, newInternal_of_split (split_join h.slash h.colon hor)]
    simp

end Symbol

/-- `trie_`, `pool_size_` and every symbol that was made; a `Symbol*` is its position there. -/
structure SymbolPool where
  trie : Trie Char SymbolId := .empty
  size : Nat := 0
  symbols : List Symbol := []

namespace SymbolPool

/-- `Symbol::kAlphabetSize`. -/
def kAlphabetSize : Nat := 127

/-- `new Symbol` with the parts of a name. -/
def create (p : SymbolPool) (w : List Char) : Except Fault (SymbolId × SymbolPool) :=
  match Symbol.newInternal w with
  | .ok s => .ok (p.symbols.length, { p with symbols := p.symbols ++ [s] })
  | .error e => .error e

/-- `trie::SearchOrCreate`, whose `children.at` throws at a letter outside the alphabet.  A node
that is made on the way has no value. -/
def searchOrCreate (p : SymbolPool) (w : List Char) : Except Fault (SymbolId × SymbolPool) :=
  if w.any fun c => kAlphabetSize ≤ c.toNat then .error (.thrown "array::at")
  else match p.trie.find w with
    | some id => .ok (id, p)
    | none => match p.create w with
        | .ok (id, p) => .ok (id, { p with trie := p.trie.insert w id })
        | .error e => .error e

/-- `Symbol::New(ns, type, name)` in a pool of at most `max` symbols. -/
def new (max : Nat) (s : Symbol) (p : SymbolPool) : Except Fault (SymbolId × SymbolPool) :=
  if p.size + 1 ≤ max then
    match p.searchOrCreate s.key with
    | .ok (id, p) => .ok (id, { p with size := p.size + 1 })
    | .error e => .error e
  else p.create s.key

/-- `Symbol::New(rhs)`. -/
def newText (max : Nat) (text : String) (p : SymbolPool) : Except Fault (SymbolId × SymbolPool) :=
  match Symbol.split text.toList with
  | .ok (ns, type, name) =>
      p.new max { ns := .ofList ns, type := .ofList type, name := .ofList name }
  | .error e => .error e

/-- One more call; what throws has no result and leaves the pool as it was. -/
def call (max : Nat) (c : List (Symbol × SymbolId) × SymbolPool) (s : Symbol) :
    List (Symbol × SymbolId) × SymbolPool :=
  match c.2.new max s with
  | .ok (id, p) => (c.1 ++ [(s, id)], p)
  | .error _ => c

/-- The calls that return, with their results, and the pool behind them. -/
def calls (max : Nat) (l : List Symbol) : List (Symbol × SymbolId) × SymbolPool :=
  l.foldl (call max) ([], {})

variable {max : Nat} {p p' : SymbolPool} {s : Symbol} {id : SymbolId} {w : List Char}
  {l : List (Symbol × SymbolId)}

/-! ### The calls so far -/

/-- What the calls that returned have left in the pool: the first `max` of them are interned, each
of the others has a symbol of its own. -/
structure Records (max : Nat) (l : List (Symbol × SymbolId)) (p : SymbolPool) : Prop where
  size : p.size = min l.length max
  named : ∀ e ∈ l, ∃ s, p.symbols[e.2]? = some s ∧ Symbol.newInternal e.1.key = .ok s
  pooled : ∀ e ∈ l.take max, p.trie.find e.1.key = some e.2
  found : ∀ w id, p.trie.find w = some id → ∃ e ∈ l.take max, e.1.key = w ∧ e.2 = id
  apart : ∀ e ∈ l.take max, ∀ e' ∈ l.take max, e.2 = e'.2 → e.1.key = e'.1.key
  fresh : ∀ e ∈ l.take max, ∀ e' ∈ l.drop max, e.2 ≠ e'.2

theorem Records.init (max : Nat) : Records max [] {} where
  size := by simp
  named := by simp
  pooled := by simp
  found w id h := by simp at h
  apart := by simp
  fresh := by simp

/-- A symbol that was made is older than the next one. -/
theorem Records.lt (h : Records max l p) {e : Symbol × SymbolId} (he : e ∈ l) :
    e.2 < p.symbols.length := by
  obtain ⟨s, hs, -⟩ := h.named e he
  exact (List.getElem?_eq_some_iff.mp hs).1

theorem create_ok (h : p.create w = .ok (id, p')) : ∃ s, Symbol.newInternal w = .ok s ∧
    id = p.symbols.length ∧ p' = { p with symbols := p.symbols ++ [s] } := by
  rw [create] at h
  cases hs : Symbol.newInternal w with
  | error e => rw [hs] at h; cases h
  | ok s => rw [hs] at h; cases h; exact ⟨s, rfl, rfl, rfl⟩

/-- What a call can do: find its symbol, make and intern it, or make it where the pool is full. -/
theorem new_ok (h : p.new max s = .ok (id, p')) :
    (p.size + 1 ≤ max ∧ p.trie.find s.key = some id ∧ p' = { p with size := p.size + 1 }) ∨
    ∃ t, Symbol.newInternal s.key = .ok t ∧ id = p.symbols.length ∧
      (p.size + 1 ≤ max ∧ p.trie.find s.key = none ∧
          p' = { trie := p.trie.insert s.key id, size := p.size + 1, symbols := p.symbols ++ [t] } ∨
        ¬p.size + 1 ≤ max ∧ p' = { p with symbols := p.symbols ++ [t] }) := by
  rw [new] at h
  by_cases hroom : p.size + 1 ≤ max
  · rw [if_pos hroom, searchOrCreate] at h
    by_cases hw : s.key.any (fun c => kAlphabetSize ≤ c.toNat) = true
    · rw [if_pos hw] at h
      cases h
    · rw [if_neg hw] at h
      cases hf : p.trie.find s.key with
      | some x =>
          rw [hf] at h
          cases h
          exact .inl ⟨hroom, rfl, rfl⟩
      | none =>
          rw [hf] at h
          cases hc : p.create s.key with
          | error e => rw [hc] at h; cases h
          | ok r =>
              obtain ⟨x, q⟩ := r
              rw [hc] at h
              cases h
              obtain ⟨t, ht, rfl, rfl⟩ := create_ok hc
              exact .inr ⟨t, ht, rfl, .inl ⟨hroom, rfl, rfl⟩⟩
  · rw [if_neg hroom] at h
    obtain ⟨t, ht, hid, hp'⟩ := create_ok h
    exact .inr ⟨t, ht, hid, .inr ⟨hroom, hp'⟩⟩

namespace Records

/-- A call that finds room in the pool. -/
theorem snoc_pooled {x : Symbol × SymbolId} (h : Records max l p) (hroom : l.length < max)
    (hsize : p'.size = p.size + 1)
    (hnamed : ∃ t, p'.symbols[x.2]? = some t ∧ Symbol.newInternal x.1.key = .ok t)
    (hold : ∀ e ∈ l, p'.symbols[e.2]? = p.symbols[e.2]?)
    (hfind : ∀ w, p'.trie.find w = if w = x.1.key then some x.2 else p.trie.find w)
    (hnew : p.trie.find x.1.key = some x.2 ∨
      p.trie.find x.1.key = none ∧ x.2 = p.symbols.length) : Records max (l ++ [x]) p' := by
  have htake : l.take max = l := List.take_of_length_le hroom.le
  have hlen : (l ++ [x]).length ≤ max := by
    rw [List.length_append]
    exact hroom
  have hall := h.pooled
  have hfound := h.found
  have hapart := h.apart
  rw [htake] at hall hfound hapart
  -- an older call has the symbol of this one only under the same name
  have hsame : ∀ e ∈ l, e.2 = x.2 → e.1.key = x.1.key := by
    intro e he hid
    rcases hnew with hx | ⟨-, hx⟩
    · obtain ⟨e', he', hkey, hid'⟩ := hfound _ _ hx
      rw [← hkey]
      exact hapart e he e' he' (hid.trans hid'.symm)
    · exact absurd (hid.trans hx) (h.lt he).ne
  have htake' : (l ++ [x]).take max = l ++ [x] := List.take_of_length_le hlen
  have hdrop' : (l ++ [x]).drop max = [] := List.drop_eq_nil_of_le hlen
  refine ⟨?_, ?_, ?_, ?_, ?_, ?_⟩
  · rw [hsize, h.size, List.length_append, List.length_singleton]
    omega
  · rw [List.forall_mem_append, List.forall_mem_singleton]
    refine ⟨fun e he => ?_, hnamed⟩
    obtain ⟨t, ht, hint⟩ := h.named e he
    exact ⟨t, (hold e he).trans ht, hint⟩
  · rw [htake', List.forall_mem_append, List.forall_mem_singleton]
    refine ⟨fun e he => ?_, by rw [hfind, if_pos rfl]⟩
    rw [hfind]
    by_cases hkey : e.1.key = x.1.key
    · rw [if_pos hkey]
      rcases hnew with hx | ⟨hx, -⟩
      · rw [← hx, ← hkey, hall e he]
      · rw [← hkey, hall e he] at hx
        cases hx
    · rw [if_neg hkey, hall e he]
  · intro w id hw
    rw [htake']
    rw [hfind] at hw
    by_cases hkey : w = x.1.key
    · rw [if_pos hkey] at hw
      exact ⟨x, by simp, hkey.symm, Option.some.inj hw⟩
    · rw [if_neg hkey] at hw
      obtain ⟨e, he, heq⟩ := hfound w id hw
      exact ⟨e, List.mem_append_left _ he, heq⟩
  · rw [htake']
    intro e hm e' hm' hid
    rcases List.mem_append.mp hm with he | he <;> rcases List.mem_append.mp hm' with he' | he'
    · exact hapart e he e' he' hid
    · rw [List.mem_singleton.mp he'] at hid ⊢
      exact hsame e he hid
    · rw [List.mem_singleton.mp he] at hid ⊢
      exact (hsame e' he' hid.symm).symm
    · rw [List.mem_singleton.mp he, List.mem_singleton.mp he']
  · rw [hdrop']
    simp

/-- A call on a full pool. -/
theorem snoc_full {x : Symbol × SymbolId} (h : Records max l p) (hroom : ¬l.length < max)
    (hx : x.2 = p.symbols.length) {t : Symbol} (hint : Symbol.newInternal x.1.key = .ok t)
    (hp' : p' = { p with symbols := p.symbols ++ [t] }) : Records max (l ++ [x]) p' := by
  have hle : max ≤ l.length := Nat.not_lt.mp hroom
  have htake : (l ++ [x]).take max = l.take max := List.take_append_of_le_length hle
  have hdrop : (l ++ [x]).drop max = l.drop max ++ [x] := List.drop_append_of_le_length hle
  subst hp'
  refine ⟨?_, ?_, htake ▸ h.pooled, htake ▸ h.found, htake ▸ h.apart, ?_⟩
  · rw [List.length_append, h.size]
    omega
  · rw [List.forall_mem_append, List.forall_mem_singleton]
    refine ⟨fun e he => ?_, t, ?_, hint⟩
    · obtain ⟨u, hu, hint⟩ := h.named e he
      exact ⟨u, by rw [List.getElem?_append_left (h.lt he), hu], hint⟩
    · rw [hx]
      exact List.getElem?_concat_length
  · rw [htake, hdrop]
    intro e he e' he'
    rcases List.mem_append.mp he' with he' | he'
    · exact h.fresh e he e' he'
    · rw [List.mem_singleton.mp he', hx]
      exact (h.lt (List.mem_of_mem_take he)).ne

/-- **One more call** keeps the records. -/
theorem call (h : Records max l p) (s : Symbol) :
    Records max (SymbolPool.call max (l, p) s).1 (SymbolPool.call max (l, p) s).2 := by
  rw [SymbolPool.call]
  dsimp only
  cases hnew : p.new max s with
  | error e => exact h
  | ok r =>
      obtain ⟨id, p'⟩ := r
      have hroom : p.size + 1 ≤ max ↔ l.length < max := by
        rw [h.size]
        omega
      obtain ⟨hlt, hfind, rfl⟩ | ⟨t, ht, rfl, ⟨hlt, hfind, rfl⟩ | ⟨hfull, hp'⟩⟩ := new_ok hnew
      · obtain ⟨e, he, hkey, rfl⟩ := h.found _ _ hfind
        obtain ⟨t, ht, hint⟩ := h.named e (List.mem_of_mem_take he)
        refine h.snoc_pooled (hroom.mp hlt) rfl ⟨t, ht, hkey ▸ hint⟩ (fun _ _ => rfl) ?_ (.inl hfind)
        intro w
        by_cases hw : w = s.key
        · rw [if_pos hw, hw]
          exact hfind
        · rw [if_neg hw]
      · refine h.snoc_pooled (hroom.mp hlt) rfl ⟨t, List.getElem?_concat_length, ht⟩ ?_
          (fun w => Trie.find_insert _ _ _ _) (.inr ⟨hfind, rfl⟩)
        exact fun e he => List.getElem?_append_left (h.lt he)
      · exact h.snoc_full (fun hlt => hfull (hroom.mpr hlt)) rfl ht hp'

end Records

/-- The records of a sequence of calls from the empty pool. -/
theorem records_calls (max : Nat) (l : List Symbol) :
    Records max (calls max l).1 (calls max l).2 := by
  have hrun : ∀ (l : List Symbol) (c : List (Symbol × SymbolId) × SymbolPool),
      Records max c.1 c.2 → Records max (l.foldl (call max) c).1 (l.foldl (call max) c).2 := by
    intro l
    induction l with
    | nil => exact fun c h => h
    | cons s l ih => exact fun c h => ih _ (h.call s)
  exact hrun l _ (.init max)

/-! ### The components of a symbol -/

/-- What the accessors of a symbol say of the parts it was asked for with. -/
def Reports (t s : Symbol) : Prop :=
  t.ns = s.ns ∧ t.type = s.type ∧ t.name = s.name ∧
    (t.hasNamespace = true ↔ s.ns ≠ "") ∧ (t.hasSymbolType = true ↔ s.type ≠ "")

theorem reports_iff {t : Symbol} : Reports t s ↔ t = s := by
  constructor
  · rintro ⟨hns, htype, hname, -⟩
    obtain ⟨ns, type, name⟩ := t
    subst hns htype hname
    rfl
  · rintro rfl
    simp [Reports, Symbol.hasNamespace, Symbol.hasSymbolType]

/-- The symbol made of some parts reports them, and so does the one made of its name. -/
def RoundTrips (max : Nat) (p : SymbolPool) (s : Symbol) : Prop :=
  ∃ id p' t, p.new max s = .ok (id, p') ∧ p'.symbols[id]? = some t ∧ Reports t s ∧
    ∃ id' p'' t', p'.newText max t.fullyQualifiedName = .ok (id', p'') ∧
      p''.symbols[id']? = some t' ∧ Reports t' s

/-- A name the trie has room for, or a full pool. -/
def Accepts (max : Nat) (p : SymbolPool) (s : Symbol) : Prop :=
  max ≤ p.size ∨ ∀ c ∈ s.key, c.toNat < kAlphabetSize

/-- The symbol a call returns is made of the name. -/
theorem Records.new_made (h : Records max l p) (hnew : p.new max s = .ok (id, p')) :
    Accepts max p s ∧ ∃ t, p'.symbols[id]? = some t ∧ Symbol.newInternal s.key = .ok t := by
  have hcall := (h.call s).named (s, id)
  rw [SymbolPool.call, hnew] at hcall
  refine ⟨?_, hcall (by simp)⟩
  by_cases hroom : p.size + 1 ≤ max
  · rw [new, if_pos hroom, searchOrCreate] at hnew
    by_cases hw : s.key.any (fun c => kAlphabetSize ≤ c.toNat) = true
    · rw [if_pos hw] at hnew
      cases hnew
    · exact .inr (by simpa using hw)
  · exact .inl (by omega)

/-- A call returns for a name that is accepted and can be taken apart. -/
theorem exists_new {t : Symbol} (ht : Symbol.newInternal s.key = .ok t) (ha : Accepts max p s) :
    ∃ id p', p.new max s = .ok (id, p') := by
  have hcreate : p.create s.key = .ok (p.symbols.length, { p with symbols := p.symbols ++ [t] }) := by
    rw [create, ht]
  rw [new]
  by_cases hroom : p.size + 1 ≤ max
  · have hw : s.key.any (fun c => kAlphabetSize ≤ c.toNat) = false := by
      have hall := ha.resolve_left (by omega)
      simpa using hall
    rw [if_pos hroom, searchOrCreate, hw, if_neg Bool.false_ne_true]
    cases p.trie.find s.key with
    | some id => exact ⟨_, _, rfl⟩
    | none => rw [hcreate]; exact ⟨_, _, rfl⟩
  · rw [if_neg hroom]
    exact ⟨_, _, hcreate⟩

/-- Nothing is taken out of the pool. -/
theorem Accepts.new (ha : Accepts max p s) (hnew : p.new max s = .ok (id, p')) :
    Accepts max p' s := by
  rcases ha with hfull | hall
  · obtain ⟨hroom, -⟩ | ⟨-, -, -, ⟨hroom, -⟩ | ⟨-, rfl⟩⟩ := new_ok hnew
    · omega
    · omega
    · exact .inl hfull
  · exact .inr hall

/-- **Components of a symbol.**  In the pool of any calls, well-formed parts are reported, by the
symbol and by the one made of its name, exactly when the namespace or the type is empty and the
trie is not asked for a letter outside its alphabet. -/
theorem roundTrips_iff (max : Nat) (l : List Symbol) (hs : s.WellFormed) :
    RoundTrips max (calls max l).2 s ↔
      (s.ns = "" ∨ s.type = "") ∧ Accepts max (calls max l).2 s := by
  have hp := records_calls max l
  rw [← Symbol.newInternal_key_iff hs]
  constructor
  · rintro ⟨id, p', t, hnew, ht, hr, -⟩
    obtain ⟨ha, t', ht', hint⟩ := hp.new_made hnew
    rw [ht] at ht'
    cases ht'
    rw [reports_iff.mp hr] at hint
    exact ⟨hint, ha⟩
  · rintro ⟨hint, ha⟩
    obtain ⟨id, p', hnew⟩ := exists_new hint ha
    obtain ⟨-, t, ht, hint'⟩ := hp.new_made hnew
    rw [hint] at hint'
    cases hint'
    have hp' := hp.call s
    rw [call, hnew] at hp'
    obtain ⟨id', p'', hnew'⟩ := exists_new hint (ha.new hnew)
    obtain ⟨-, t, ht', hint'⟩ := hp'.new_made hnew'
    rw [hint] at hint'
    cases hint'
    refine ⟨id, p', s, hnew, ht, reports_iff.mpr rfl, id', p'', s, ?_, ht', reports_iff.mpr rfl⟩
    rw [newText, Symbol.toList_fullyQualifiedName, Symbol.split_of_newInternal hint]
    simpa using hnew'

namespace Sample

/-- `t:x`. -/
def typed : Symbol := { type := "t", name := "x" }

/-- `a/t:name`. -/
def both : Symbol := { ns := "a", type := "t", name := "name" }

theorem wellFormed_typed : typed.WellFormed := by
  constructor <;> decide

theorem wellFormed_both : both.WellFormed := by
  constructor <;> decide

end Sample

theorem roundTrips_typed : RoundTrips 10 (calls 10 []).2 Sample.typed :=
  (roundTrips_iff 10 [] Sample.wellFormed_typed).mpr
    ⟨.inl rfl, .inr (List.all_iff_forall_prop.mp (by decide))⟩

/-- `a/t:name` is taken apart into `a`, `t:n` and `me`. -/
theorem not_roundTrips_both : ¬ ∀ (max : Nat) (l : List Symbol) (s : Symbol), s.WellFormed →
    RoundTrips max (calls max l).2 s := by
  intro h
  obtain ⟨id, p', t, hnew, ht, hr, -⟩ := h 10 [] Sample.both Sample.wellFormed_both
  obtain ⟨-, t', ht', hint⟩ := (records_calls 10 []).new_made hnew
  rw [ht] at ht'
  cases ht'
  rw [reports_iff.mp hr, Symbol.newInternal_key_iff Sample.wellFormed_both] at hint
  exact absurd hint (by decide)

/-! ### Interning -/

/-- The symbols in the pool. -/
def interned (p : SymbolPool) : Set SymbolId := {id | ∃ w, p.trie.find w = some id}

/-- The results of some calls are one object exactly when their names are equal, `Symbol::Equals`
holds exactly then, and the size of the pool is the number of symbols in it. -/
structure Interns (ids : List SymbolId) (p : SymbolPool) : Prop where
  same : ∀ a ∈ ids, ∀ b ∈ ids, ∀ s t, p.symbols[a]? = some s → p.symbols[b]? = some t →
    (a = b ↔ s.fullyQualifiedName = t.fullyQualifiedName)
  equals : ∀ a ∈ ids, ∀ b ∈ ids, ∀ s t, p.symbols[a]? = some s → p.symbols[b]? = some t →
    (s.equals t = true ↔ a = b)
  size : p.size = p.interned.ncard

/-- Two requests for different names, whose parts differ in the namespace or the symbol's name and
do not compose to one name. -/
def Distinct (s t : Symbol) : Prop :=
  s.key ≠ t.key ∧ ∀ s' t', Symbol.newInternal s.key = .ok s' → Symbol.newInternal t.key = .ok t' →
    s'.fullyQualifiedName ≠ t'.fullyQualifiedName ∧ s'.equals t' = false

theorem Distinct.symm {s t : Symbol} (h : Distinct s t) : Distinct t s := by
  refine ⟨h.1.symm, fun t' s' ht hs => ?_⟩
  obtain ⟨hname, heq⟩ := h.2 s' t' hs ht
  refine ⟨hname.symm, ?_⟩
  rw [← heq, Symbol.equals, Symbol.equals, Bool.beq_comm (a := t'.ns), Bool.beq_comm (a := t'.name)]

/-- What returns was asked for. -/
theorem mem_of_mem_calls (max : Nat) (l : List Symbol) : ∀ e ∈ (calls max l).1, e.1 ∈ l := by
  induction l using List.reverseRecOn with
  | nil => exact fun e he => absurd he List.not_mem_nil
  | append_singleton l s ih =>
      intro e he
      rw [calls, List.foldl_append, List.foldl_cons, List.foldl_nil, ← calls, call] at he
      cases hnew : (calls max l).2.new max s with
      | error _ =>
          rw [hnew] at he
          exact List.mem_append_left _ (ih e he)
      | ok r =>
          rw [hnew] at he
          rcases List.mem_append.mp he with he | he
          · exact List.mem_append_left _ (ih e he)
          · rw [List.mem_singleton.mp he]
            simp

/-- The symbols in the pool are the results of the first calls. -/
theorem Records.ncard_interned (h : Records max l p) :
    p.interned.ncard = ((l.take max).map Prod.snd).dedup.length := by
  have hset : p.interned = ((l.take max).map Prod.snd).toFinset := by
    ext id
    simp only [interned, Set.mem_ofPred_eq, List.coe_toFinset, List.mem_map]
    constructor
    · rintro ⟨w, hw⟩
      obtain ⟨e, he, -, rfl⟩ := h.found w id hw
      exact ⟨e, he, rfl⟩
    · rintro ⟨e, he, rfl⟩
      exact ⟨_, h.pooled e he⟩
  rw [hset, Set.ncard_coe_finset, List.card_toFinset]

namespace Records

/-- Distinct requests that find room have results that are interned. -/
theorem interns (h : Records max l p) (hlen : l.length ≤ max)
    (hd : (l.map Prod.fst).Pairwise Distinct) : Interns (l.map Prod.snd) p := by
  rw [List.pairwise_map] at hd
  have htake : l.take max = l := List.take_of_length_le hlen
  have hpooled := h.pooled
  have hapart := h.apart
  rw [htake] at hpooled hapart
  have hsymm : Std.Symm fun e e' : Symbol × SymbolId => Distinct e.1 e'.1 := ⟨fun _ _ => .symm⟩
  have hsame : ∀ a ∈ l.map Prod.snd, ∀ b ∈ l.map Prod.snd, ∀ s t, p.symbols[a]? = some s →
      p.symbols[b]? = some t → a ≠ b →
        s.fullyQualifiedName ≠ t.fullyQualifiedName ∧ s.equals t = false := by
    intro a ha b hb s t hs ht hne
    obtain ⟨e, he, rfl⟩ := List.mem_map.mp ha
    obtain ⟨e', he', rfl⟩ := List.mem_map.mp hb
    obtain ⟨s', hs', hint⟩ := h.named e he
    obtain ⟨t', ht', hint'⟩ := h.named e' he'
    rw [hs] at hs'
    rw [ht] at ht'
    cases hs'
    cases ht'
    exact (hd.forall he he' fun heq => hne (congrArg Prod.snd heq)).2 s t hint hint'
  refine ⟨?_, ?_, ?_⟩
  · intro a ha b hb s t hs ht
    refine ⟨?_, fun heq => ?_⟩
    · rintro rfl
      rw [hs] at ht
      cases ht
      rfl
    · by_contra hne
      exact (hsame a ha b hb s t hs ht hne).1 heq
  · intro a ha b hb s t hs ht
    refine ⟨fun heq => ?_, ?_⟩
    · by_contra hne
      rw [(hsame a ha b hb s t hs ht hne).2] at heq
      cases heq
    · rintro rfl
      rw [hs] at ht
      cases ht
      simp [Symbol.equals]
  · have hn : (l.map Prod.snd).Nodup := by
      rw [List.Nodup, List.pairwise_map]
      exact hd.imp_of_mem fun he he' hdis heq => hdis.1 (hapart _ he _ he' heq)
    rw [h.ncard_interned, htake, List.dedup_eq_self.mpr hn, List.length_map, h.size,
      Nat.min_eq_left hlen]

/-- Where the size of the pool is the number of its symbols, each of the first calls has a symbol
of its own. -/
theorem nodup_take (h : Records max l p) (hsize : p.size = p.interned.ncard) :
    ((l.take max).map Prod.snd).Nodup := by
  rw [h.size, h.ncard_interned] at hsize
  refine List.dedup_eq_self.mp ((List.dedup_sublist _).eq_of_length ?_)
  rw [← hsize, List.length_map, List.length_take, Nat.min_comm]

/-- Interned results are those of calls that found room. -/
theorem length_le_of_interns (h : Records max l p)
    (hroom : ∀ k : List (Symbol × SymbolId), k ⊆ l → (k.map fun e => e.1.key).Nodup → k.length ≤ max)
    (hi : Interns (l.map Prod.snd) p) : l.length ≤ max := by
  by_contra hlen
  obtain ⟨x, hx⟩ : ∃ x, x ∈ l.drop max := by
    refine List.exists_mem_of_length_pos ?_
    rw [List.length_drop]
    omega
  have hxl : x ∈ l := List.mem_of_mem_drop hx
  have hsub : l.take max ⊆ l := List.take_subset max l
  have hkeys : ((l.take max).map fun e => e.1.key).Nodup := by
    have hn := h.nodup_take hi.size
    rw [List.Nodup, List.pairwise_map] at hn ⊢
    refine hn.imp_of_mem fun he he' hne heq => hne ?_
    have hfind := h.pooled _ he
    rw [heq, h.pooled _ he'] at hfind
    exact (Option.some.inj hfind).symm
  -- a name that is not among the first `max` would be one too many
  have hold : ∃ e ∈ l.take max, e.1.key = x.1.key := by
    by_contra hnew
    push Not at hnew
    have hx' : x.1.key ∉ (l.take max).map fun e => e.1.key := by
      intro hm
      obtain ⟨e, he, hkey⟩ := List.mem_map.mp hm
      exact hnew e he hkey
    have hle := hroom (x :: l.take max) (List.cons_subset.mpr ⟨hxl, hsub⟩)
      (List.nodup_cons.mpr ⟨hx', hkeys⟩)
    rw [List.length_cons, List.length_take] at hle
    omega
  obtain ⟨e, he, hkey⟩ := hold
  obtain ⟨s, hs, hint⟩ := h.named e (hsub he)
  obtain ⟨t, ht, hint'⟩ := h.named x hxl
  rw [hkey, hint'] at hint
  cases hint
  exact h.fresh e he x hx ((hi.same _ (List.mem_map_of_mem (hsub he)) _ (List.mem_map_of_mem hxl)
    _ _ hs ht).mpr rfl)

/-- Interned results come of distinct requests. -/
theorem distinct (h : Records max l p) (hlen : l.length ≤ max) (hi : Interns (l.map Prod.snd) p) :
    (l.map Prod.fst).Pairwise Distinct := by
  have htake : l.take max = l := List.take_of_length_le hlen
  have hn := h.nodup_take hi.size
  have hpooled := h.pooled
  rw [htake] at hn hpooled
  rw [List.Nodup, List.pairwise_map] at hn
  rw [List.pairwise_map]
  refine hn.imp_of_mem ?_
  intro e e' he he' hne
  refine ⟨fun heq => hne ?_, fun s t hint hint' => ?_⟩
  · have hfind := hpooled e he
    rw [heq, hpooled e' he'] at hfind
    exact (Option.some.inj hfind).symm
  · obtain ⟨s', hs, hs'⟩ := h.named e he
    obtain ⟨t', ht, ht'⟩ := h.named e' he'
    rw [hint] at hs'
    rw [hint'] at ht'
    cases hs'
    cases ht'
    have ha : e.2 ∈ l.map Prod.snd := List.mem_map_of_mem he
    have hb : e'.2 ∈ l.map Prod.snd := List.mem_map_of_mem he'
    refine ⟨fun heq => hne ((hi.same _ ha _ hb _ _ hs ht).mpr heq), ?_⟩
    rw [← Bool.not_eq_true]
    exact fun heq => hne ((hi.equals _ ha _ hb _ _ hs ht).mp heq)

end Records

/-- **Interning.**  After a sequence of calls for no more names than the pool has room for, the
results are interned exactly when the requests that returned are pairwise distinct. -/
theorem interns_iff (max : Nat) (l : List Symbol) (hl : (l.map Symbol.key).dedup.length ≤ max) :
    Interns ((calls max l).1.map Prod.snd) (calls max l).2 ↔
      ((calls max l).1.map Prod.fst).Pairwise Distinct := by
  have h := records_calls max l
  have hroom : ∀ k : List (Symbol × SymbolId), k ⊆ (calls max l).1 →
      (k.map fun e => e.1.key).Nodup → k.length ≤ max := by
    intro k hsub hn
    have hkeys : (k.map fun e => e.1.key) ⊆ (l.map Symbol.key).dedup := by
      intro w hw
      obtain ⟨e, he, rfl⟩ := List.mem_map.mp hw
      exact List.mem_dedup.mpr (List.mem_map_of_mem (mem_of_mem_calls max l e (hsub he)))
    have hle := hn.length_le_of_subset hkeys
    rw [List.length_map] at hle
    exact hle.trans hl
  constructor
  · intro hi
    exact h.distinct (h.length_le_of_interns hroom hi) hi
  · intro hd
    refine h.interns (hroom _ (fun _ he => he) ?_) hd
    rw [List.pairwise_map] at hd
    rw [List.Nodup, List.pairwise_map]
    exact hd.imp fun hdis => hdis.1

namespace Sample

/-- Two types of one name. -/
def types : List Symbol := [{ type := "a", name := "x" }, { type := "b", name := "x" }]

/-- Two names. -/
def names : List Symbol := [{ name := "x" }, { name := "y" }]

end Sample

theorem interns_names : Interns ((calls 10 Sample.names).1.map Prod.snd) (calls 10 Sample.names).2 := by
  refine (interns_iff 10 Sample.names (by decide)).mpr ?_
  have hcalls : (calls 10 Sample.names).1.map Prod.fst = Sample.names := by decide +kernel
  rw [hcalls, Sample.names, List.pairwise_pair]
  refine ⟨by decide, fun s t hs ht => ?_⟩
  have hx : Symbol.newInternal (Symbol.key { name := "x" }) = .ok { name := "x" } := by decide +kernel
  have hy : Symbol.newInternal (Symbol.key { name := "y" }) = .ok { name := "y" } := by decide +kernel
  rw [hx] at hs
  rw [hy] at ht
  cases hs
  cases ht
  decide

/-- `a:x` and `b:x` are two symbols, which are equal. -/
theorem not_interns_types : ¬ ∀ (max : Nat) (l : List Symbol),
    (l.map Symbol.key).dedup.length ≤ max →
      Interns ((calls max l).1.map Prod.snd) (calls max l).2 := by
  intro h
  have hi := h 10 Sample.types (by decide)
  have hids : (calls 10 Sample.types).1.map Prod.snd = [0, 1] := by decide +kernel
  have hsymbols : (calls 10 Sample.types).2.symbols = Sample.types := by decide +kernel
  rw [hids] at hi
  have heq := (hi.equals 0 (by simp) 1 (by simp) _ _ (by rw [hsymbols]; rfl)
    (by rw [hsymbols]; rfl)).mp rfl
  cases heq

end SymbolPool

end Gel
