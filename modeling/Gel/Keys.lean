import Gel.ListEquality
import Gel.Support.HashTable

/-!
# Keys — objects as keys of maps and sets

The tables behind `Map` and `Set` compare keys with `Object::Equals` and hash them with
`Object::HashCode`.  Three things keep them from working.  A `String` equals a `Symbol` with that
name, and the `Symbol` does not equal the `String`.  The hash of a list is that of the addresses of
its `car` and `cdr`, and its equality that of their contents.  A list with an empty list in it is
not comparable with itself.

* `keysWork_iff`: the keys for which equality and hash agree and every lookup succeeds.
-/

namespace Gel

/-- An object that can be a key.  The `car` and `cdr` of a list stand with their addresses. -/
inductive Key where
  | long (n : UInt64)
  | bool (b : Bool)
  | string (s : String)
  | symbol (s : Symbol)
  | empty
  | pair (carAt : UInt64) (car : Key) (cdrAt : UInt64) (cdr : Key)

/-- `std::hash`, of which the standard says only that it is a function. -/
structure Hashes where
  word : UInt64 → UInt64
  bool : Bool → UInt64
  string : String → UInt64
  pointer : UInt64 → UInt64

/-- `Object::CombineHash`. -/
def combineHash (seed hash : UInt64) : UInt64 :=
  seed ^^^ (hash + (0x9e3779b9 : UInt64) + (seed <<< (6 : UInt64)) + (seed >>> (2 : UInt64)))

namespace Key

/-- The contents of the object. -/
def value : Key → Value
  | long n => .long n
  | bool b => .bool b
  | string s => .string s
  | symbol s => .symbol s
  | empty => .null
  | pair _ car _ cdr => .pair car.value cdr.value

/-- `ObjectComparator`. -/
def equals (a b : Key) : Except Fault Bool := a.value.equals b.value

/-- `ObjectHasher`: `Object::HashCode` of the class. -/
def hashCode (h : Hashes) : Key → UInt64
  | long n => combineHash 0 (h.word n)
  | bool b => combineHash 0 (h.bool b)
  | string s => combineHash 0 (h.string s)
  | symbol s =>
      let hash := if s.ns ≠ "" then combineHash 0 (h.string s.ns) else 0
      combineHash hash (h.string s.name)
  | empty => 0
  | pair carAt _ cdrAt _ => combineHash (combineHash 0 (h.pointer carAt)) (h.pointer cdrAt)

/-- The loop of `Set::Of` over a list. -/
def elements : Key → Except Fault (List Key)
  | empty => .ok []
  | pair _ car _ cdr => (car :: ·) <$> cdr.elements
  | _ => .error .undefined

/-- `Pair::IsTuple`: a pair whose `cdr` is not a list. -/
def isTuple : Key → Bool
  | pair _ _ _ (pair ..) | pair _ _ _ empty => false
  | pair .. => true
  | _ => false

/-- An object at address `r` is in the list. -/
inductive At (r : UInt64) (k : Key) : Key → Prop
  | car {s d} : At r k (.pair r k s d)
  | cdr {s a} : At r k (.pair s a r k)
  | inCar {s a s' d} : At r k a → At r k (.pair s a s' d)
  | inCdr {s a s' d} : At r k d → At r k (.pair s a s' d)

end Key

/-- Keys that exist at one time: at each address there is one object. -/
structure Keys where
  keys : Set Key
  consistent : ∀ a ∈ keys, ∀ b ∈ keys, ∀ (r : UInt64) (x y : Key),
    Key.At r x a → Key.At r y b → x = y

/-! ### `Map` and `Set` -/

namespace Maps

variable {ν : Type} {h : Hashes} (t : HashTable (Key.hashCode h) Key.equals ν)

/-- `Map::New`, which takes its arguments two by two. -/
def new (args : List (Key × ν)) : Except Fault t.Storage := t.insertAll args t.empty

/-- `Map::Get`; what is not found is `Null()`. -/
def get (m : t.Storage) (key : Key) : Except Fault (Option ν) :=
  Option.map Prod.snd <$> t.find m key

/-- `Map::Contains`. -/
def contains (m : t.Storage) (key : Key) : Except Fault Bool := Option.isSome <$> t.find m key

end Maps

namespace Sets

variable {h : Hashes} (t : HashTable (Key.hashCode h) Key.equals Unit)

/-- `Set::Of`: the elements of a list, the two of a tuple, or the object. -/
def of (value : Key) : Except Fault (List Key) :=
  match value with
  | .empty => .ok []
  | .pair _ car _ cdr => if value.isTuple then .ok [car, cdr] else value.elements
  | value => .ok [value]

/-- The keys `Set::New` inserts. -/
def keysOf : List Key → Except Fault (List Key)
  | [] => .ok []
  | [value] => of value
  | args => .ok args

/-- `Set::New`. -/
def new (args : List Key) : Except Fault t.Storage := do
  let keys ← keysOf args
  t.insertAll (keys.map fun k => (k, ())) t.empty

/-- `Set::Contains`. -/
def contains (s : t.Storage) (value : Key) : Except Fault Bool := Option.isSome <$> t.find s value

end Sets

/-! ### Keys that work -/

namespace Key

/-- A key that equals another is equaled by it, and has its hash. -/
def Coherent (h : Hashes) (a b : Key) : Prop :=
  a.equals b = .ok true → b.equals a = .ok true ∧ a.hashCode h = b.hashCode h

/-- The object itself, or one that equals it. -/
def IsOrEquals (a b : Key) : Prop := a = b ∨ a.equals b = .ok true

/-- What `Object::Equals` compares: contents, of a symbol on the right of a string its name. -/
def Matches : Key → Key → Prop
  | long a, long b => a = b
  | bool a, bool b => a = b
  | string a, string b => a = b
  | string a, symbol b => a = b.fullyQualifiedName
  | symbol a, symbol b => a.ns = b.ns ∧ a.name = b.name
  | pair _ car _ cdr, pair _ car' _ cdr' => Matches car car' ∧ Matches cdr cdr'
  | _, _ => False

end Key

section

variable {ν : Type} (maps : ∀ h, HashTable (Key.hashCode h) Key.equals ν)
  (sets : ∀ h, HashTable (Key.hashCode h) Key.equals Unit)

/-- Equality and hash agree on the keys; a map of distinct keys has for each of them, and for each
key equal to it, the value it was built with; a set has each of its elements, and what equals it. -/
structure KeysWork (K : Keys) : Prop where
  coherent : ∀ h, ∀ a ∈ K.keys, ∀ b ∈ K.keys, Key.Coherent h a b
  get : ∀ h args, (∀ p ∈ args, p.1 ∈ K.keys) → HashTable.DistinctKeys Key.equals args →
    ∀ p ∈ args, ∀ k ∈ K.keys, k.IsOrEquals p.1 →
      ∃ m, Maps.new (maps h) args = .ok m ∧ Maps.get (maps h) m k = .ok (some p.2) ∧
        Maps.contains (maps h) m k = .ok true
  contains : ∀ h args keys, Sets.keysOf args = .ok keys → (∀ x ∈ keys, x ∈ K.keys) →
    ∀ x ∈ keys, ∀ k ∈ K.keys, k.IsOrEquals x →
      ∃ s, Sets.new (sets h) args = .ok s ∧ Sets.contains (sets h) s k = .ok true

/-- No key is or contains an empty list, no string has the name of a symbol, and two lists with the
same contents have the same objects as `car` and as `cdr`. -/
structure Keys.Separate (K : Keys) : Prop where
  noEmpty : ∀ a ∈ K.keys, a.value.HasNoEmpty
  names : ∀ s x, .string s ∈ K.keys → .symbol x ∈ K.keys → s ≠ x.fullyQualifiedName
  lists : ∀ r a s d r' a' s' d', .pair r a s d ∈ K.keys → .pair r' a' s' d' ∈ K.keys →
    (Key.pair r a s d).Matches (.pair r' a' s' d') → r = r' ∧ s = s'

end

/-! ### What `Object::Equals` compares -/

namespace Key

variable {a b : Key}

/-- Without empty lists the comparison returns whether the contents match. -/
theorem equals_matches (ha : a.value.HasNoEmpty) (hb : b.value.HasNoEmpty) :
    ∃ e, a.equals b = .ok e ∧ (e = true ↔ a.Matches b) := by
  induction a generalizing b with
  | empty => exact ha.elim
  | pair r a s d iha ihd =>
      cases b with
      | empty => exact hb.elim
      | pair r' a' s' d' =>
          obtain ⟨x, hx, hxm⟩ := iha ha.1 hb.1
          obtain ⟨y, hy, hym⟩ := ihd ha.2 hb.2
          rw [Matches, ← hxm, ← hym]
          cases x with
          | true => exact ⟨y, Value.equals_pair.mpr (.inl ⟨hx, hy⟩), by simp⟩
          | false => exact ⟨false, Value.equals_pair.mpr (.inr ⟨hx, rfl⟩), by simp⟩
      | _ => exact ⟨false, by simp [equals, value, Value.equals], by simp [Matches]⟩
  | _ => cases b <;> simp [equals, value, Value.equals, Matches, Symbol.equals]

theorem equals_true_iff (ha : a.value.HasNoEmpty) (hb : b.value.HasNoEmpty) :
    a.equals b = .ok true ↔ a.Matches b := by
  obtain ⟨e, he, hiff⟩ := equals_matches ha hb
  rw [he, Except.ok.injEq, hiff]

/-- What equals itself has no empty list in it. -/
theorem noEmpty_of_equals_self (h : a.equals a = .ok true) : a.value.HasNoEmpty := by
  induction a with
  | empty => cases h
  | pair r a s d iha ihd =>
      rcases Value.equals_pair.mp h with ⟨ha, hd⟩ | ⟨-, h⟩
      · exact ⟨iha ha, ihd hd⟩
      · cases h
  | _ => trivial

theorem matches_self (h : a.value.HasNoEmpty) : a.Matches a := by
  induction a with
  | empty => exact h
  | pair r a s d iha ihd => exact ⟨iha h.1, ihd h.2⟩
  | _ => simp [Matches]

/-- The same object, or two symbols that differ in their type only. -/
def Alike (a b : Key) : Prop :=
  a = b ∨ ∃ x y, a = symbol x ∧ b = symbol y ∧ x.ns = y.ns ∧ x.name = y.name

theorem alike_equivalence : Equivalence Alike := by
  refine ⟨fun a => .inl rfl, ?_, ?_⟩
  · rintro a b (rfl | ⟨x, y, rfl, rfl, hns, hname⟩)
    · exact .inl rfl
    · exact .inr ⟨y, x, rfl, rfl, hns.symm, hname.symm⟩
  · rintro a b c (rfl | ⟨x, y, rfl, rfl, hns, hname⟩) hbc
    · exact hbc
    · rcases hbc with rfl | ⟨y', z, hy, rfl, hns', hname'⟩
      · exact .inr ⟨x, y, rfl, rfl, hns, hname⟩
      · cases hy
        exact .inr ⟨x, z, rfl, rfl, hns.trans hns', hname.trans hname'⟩

theorem Alike.hashCode (h : Hashes) (hab : Alike a b) : a.hashCode h = b.hashCode h := by
  rcases hab with rfl | ⟨x, y, rfl, rfl, hns, hname⟩
  · rfl
  · simp [Key.hashCode, hns, hname]

end Key

namespace Keys

variable {K : Keys}

/-- Among separate keys, matching is being alike. -/
theorem Separate.matches_iff (hK : K.Separate) {a b : Key} (ha : a ∈ K.keys) (hb : b ∈ K.keys) :
    a.Matches b ↔ a.Alike b := by
  constructor
  · intro h
    cases a with
    | pair r a s d =>
        cases b with
        | pair r' a' s' d' =>
            obtain ⟨rfl, rfl⟩ := hK.lists _ _ _ _ _ _ _ _ ha hb h
            have hcar := K.consistent _ ha _ hb r a a' .car .car
            have hcdr := K.consistent _ ha _ hb s d d' .cdr .cdr
            exact .inl (by rw [hcar, hcdr])
        | _ => exact h.elim
    | string s =>
        cases b with
        | string s' => exact .inl (congrArg Key.string h)
        | symbol x => exact absurd h (hK.names s x ha hb)
        | _ => exact h.elim
    | symbol x =>
        cases b with
        | symbol y => exact .inr ⟨x, y, rfl, rfl, h⟩
        | _ => exact h.elim
    | long n =>
        cases b with
        | long m => exact .inl (congrArg Key.long h)
        | _ => exact h.elim
    | bool n =>
        cases b with
        | bool m => exact .inl (congrArg Key.bool h)
        | _ => exact h.elim
    | empty => exact h.elim
  · rintro (rfl | ⟨x, y, rfl, rfl, h⟩)
    · exact Key.matches_self (hK.noEmpty _ ha)
    · exact h

/-- On separate keys the comparison is an equivalence with a compatible hash. -/
theorem Separate.compatible (hK : K.Separate) (h : Hashes) :
    Compatible (Key.hashCode h) Key.equals K.keys := by
  refine .of_equivalence Key.alike_equivalence ?_ fun a b hab => hab.hashCode h
  intro a ha b hb
  obtain ⟨e, he, hiff⟩ := Key.equals_matches (hK.noEmpty a ha) (hK.noEmpty b hb)
  exact ⟨e, he, hiff.trans (hK.matches_iff ha hb)⟩

end Keys

/-! ### Hashes of lists -/

namespace Hashes

/-- A hash that tells one address from the others. -/
def marking (r : UInt64) : Hashes where
  word _ := 0
  bool _ := 0
  string _ := 0
  pointer a := if a = r then 0 else -0x9e3779b9

theorem pointer_marking_self (r : UInt64) : (marking r).pointer r = 0 := if_pos rfl

theorem pointer_marking_of_ne {r a : UInt64} (h : a ≠ r) :
    (marking r).pointer a = -0x9e3779b9 := if_neg h

/-- What the address of the `car` does to the hash, whatever that of the `cdr` is. -/
theorem hash_car (r s s' : UInt64) :
    combineHash (combineHash 0 0) ((marking r).pointer s)
      ≠ combineHash (combineHash 0 (-0x9e3779b9)) ((marking r).pointer s') := by
  by_cases hs : s = r <;> by_cases hs' : s' = r <;>
    simp only [marking, hs, hs', if_true, if_false] <;> decide

/-- What the address of the `cdr` does to the hash. -/
theorem hash_cdr (r s : UInt64) :
    combineHash (combineHash 0 ((marking s).pointer r)) 0
      ≠ combineHash (combineHash 0 ((marking s).pointer r)) (-0x9e3779b9) := by
  by_cases hr : r = s <;> simp only [marking, hr, if_true, if_false] <;> decide

end Hashes

/-- Lists that have one hash whatever `std::hash` is have the same `car` and the same `cdr`. -/
theorem Key.pair_hashCode {r s r' s' : UInt64} {a d a' d' : Key}
    (h : ∀ h, (pair r a s d).hashCode h = (pair r' a' s' d').hashCode h) : r = r' ∧ s = s' := by
  have hr : r = r' := by
    by_contra hne
    have heq := h (.marking r)
    simp only [hashCode, Hashes.pointer_marking_self,
      Hashes.pointer_marking_of_ne (Ne.symm hne)] at heq
    exact Hashes.hash_car r s s' heq
  subst hr
  refine ⟨rfl, ?_⟩
  by_contra hne
  have heq := h (.marking s)
  simp only [hashCode, Hashes.pointer_marking_self,
    Hashes.pointer_marking_of_ne (Ne.symm hne)] at heq
  exact Hashes.hash_cdr r s heq

/-! ### The keys that work -/

namespace Keys

variable {ν : Type} {maps : ∀ h, HashTable (Key.hashCode h) Key.equals ν}
  {sets : ∀ h, HashTable (Key.hashCode h) Key.equals Unit} {K : Keys}

theorem equals_of_isOrEquals {h : Hashes} (hK : Compatible (Key.hashCode h) Key.equals K.keys)
    {a b : Key} (ha : a ∈ K.keys) (hab : a.IsOrEquals b) : a.equals b = .ok true := by
  rcases hab with rfl | hab
  · exact hK.refl a ha
  · exact hab

/-- Separate keys work in every map and every set. -/
theorem Separate.keysWork (hK : K.Separate) : KeysWork maps sets K := by
  refine ⟨?_, ?_, ?_⟩
  · intro h a ha b hb hab
    have hc := hK.compatible h
    exact ⟨hc.symm a ha b hb hab, hc.hash a ha b hb hab⟩
  · intro h args hargs hd p hp k hk hkp
    have hc := hK.compatible h
    obtain ⟨m, hm, hfind⟩ := HashTable.find_insertAll_of_distinct (t := maps h) hc hd hargs hp hk
      (equals_of_isOrEquals hc hk hkp)
    exact ⟨m, hm, by rw [Maps.get, hfind]; rfl, by rw [Maps.contains, hfind]; rfl⟩
  · intro h args keys hkeys hkK x hx k hk hkx
    have hc := hK.compatible h
    have hps : ∀ p ∈ keys.map fun k => (k, ()), p.1 ∈ K.keys := by
      simpa using hkK
    obtain ⟨s, hs, e, -, hfind, -⟩ := HashTable.find_insertAll (t := sets h) hc hps
      (List.mem_map_of_mem hx) hk (equals_of_isOrEquals hc hk hkx)
    refine ⟨s, ?_, by rw [Sets.contains, hfind]; rfl⟩
    rw [Sets.new, hkeys]
    exact hs

/-- A key that a set has only if it is found has no empty list in it. -/
theorem noEmpty_of_contains {h : Hashes} {a : Key} {s : (sets h).Storage}
    (hs : Sets.new (sets h) [a, a] = .ok s) (hc : Sets.contains (sets h) s a = .ok true) :
    a.value.HasNoEmpty := by
  rw [Sets.contains] at hc
  rcases hfind : (sets h).find s a with x | r
  · rw [hfind] at hc
    cases hc
  rw [hfind] at hc
  rcases r with - | e
  · cases hc
  obtain ⟨he, heq⟩ := (sets h).found hfind
  have hmem := (sets h).entries_insertAll hs e he
  have hea : e.1 = a := by
    rcases hmem with hmem | hmem
    · rw [(sets h).entries_empty] at hmem
      cases hmem
    · simp only [List.map_cons, List.map_nil, List.mem_cons, List.not_mem_nil, or_false,
        or_self] at hmem
      rw [hmem]
  rw [hea] at heq
  exact Key.noEmpty_of_equals_self heq

end Keys

section

variable {ν : Type} (maps : ∀ h, HashTable (Key.hashCode h) Key.equals ν)
  (sets : ∀ h, HashTable (Key.hashCode h) Key.equals Unit)

/-- Keys work exactly when they are separate. -/
theorem keysWork_iff (K : Keys) : KeysWork maps sets K ↔ K.Separate := by
  refine ⟨fun hw => ?_, Keys.Separate.keysWork⟩
  have hempty : ∀ a ∈ K.keys, a.value.HasNoEmpty := by
    intro a ha
    obtain ⟨s, hs, hc⟩ := hw.contains (.marking 0) [a, a] [a, a] rfl (by simp [ha]) a (by simp) a ha
      (.inl rfl)
    exact Keys.noEmpty_of_contains hs hc
  refine ⟨hempty, ?_, ?_⟩
  · intro s x hs hx hsx
    have heq : (Key.string s).equals (.symbol x) = .ok true := by
      simp [Key.equals, Key.value, Value.equals, hsx]
    obtain ⟨hxs, -⟩ := hw.coherent (.marking 0) _ hs _ hx heq
    simp [Key.equals, Key.value, Value.equals] at hxs
  · intro r a s d r' a' s' d' hp hp' hm
    have heq := (Key.equals_true_iff (hempty _ hp) (hempty _ hp')).mpr hm
    exact Key.pair_hashCode fun h => (hw.coherent h _ hp _ hp' heq).2

end

/-! ### Two sets of keys -/

namespace Keys

/-- Keys of which none is a list. -/
def ofAtoms (keys : Set Key) (h : ∀ a ∈ keys, ∀ r x, ¬ Key.At r x a) : Keys where
  keys := keys
  consistent a ha _ _ r x _ hx := absurd hx (h a ha r x)

/-- The number one and the string `"a"`. -/
def numberAndString : Keys :=
  ofAtoms {.long 1, .string "a"} <| by
    rintro a (rfl | rfl) r x hx <;> cases hx

/-- The string `"a"` and the symbol `a`. -/
def stringAndSymbol : Keys :=
  ofAtoms {.string "a", .symbol { name := "a" }} <| by
    rintro a (rfl | rfl) r x hx <;> cases hx

theorem separate_numberAndString : numberAndString.Separate := by
  refine ⟨?_, ?_, ?_⟩
  · rintro a (rfl | rfl) <;> trivial
  · rintro s x - (h | h) <;> cases h
  · rintro r a s d r' a' s' d' (h | h) <;> cases h

/-- A number and a string work as keys. -/
theorem keysWork_numberAndString :
    KeysWork (fun h => HashTable.chained Unit (Key.hashCode h) Key.equals)
      (fun h => HashTable.chained Unit (Key.hashCode h) Key.equals) numberAndString :=
  (keysWork_iff _ _ numberAndString).mpr separate_numberAndString

/-- A string equals the symbol it names, which does not equal the string. -/
theorem not_keysWork_stringAndSymbol :
    ¬ ∀ K, KeysWork (fun h => HashTable.chained Unit (Key.hashCode h) Key.equals)
      (fun h => HashTable.chained Unit (Key.hashCode h) Key.equals) K := by
  intro h
  have hc := (h stringAndSymbol).coherent (.marking 0) (.string "a") (.inl rfl)
    (.symbol { name := "a" }) (.inr rfl)
  cases (hc rfl).1

end Keys

end Gel
