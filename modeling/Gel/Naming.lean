import Gel.Tokens
import Mathlib.Data.List.Infix

/-!
# Naming — the symbols of one identifier in a namespace

A site of an identifier is read by `ParseSymbol`, which puts the namespace in front of it, or by
`Symbol::New`, which does not.  `Symbol::New` and `Namespace::CreateSymbol` take a text apart at its
last slash and its last colon, and the second argument of `substr` being a length, a name with both
is cut in the wrong place or not at all.

* `split_append`, `split_colon`: how a text with a slash is taken apart.
* `finds_iff`: a variable is found at a use of its name exactly when both sites read it alike, or
  the text already has the namespace in front of it and no type.
-/

namespace Gel

open Faulting

namespace Symbol

variable {c : Char} {cs A x u v : List Char} {s : Symbol}

theorem lastIndexOf_of_not_mem (h : c ∉ cs) : lastIndexOf c cs = none := by
  rw [lastIndexOf, List.findIdx?_eq_none_iff.mpr, Option.map_none]
  intro d hd
  rw [List.mem_reverse] at hd
  simp only [beq_eq_false_iff_ne]
  rintro rfl
  exact h hd

theorem lastIndexOf_append (h : c ∉ v) : lastIndexOf c (u ++ c :: v) = some u.length := by
  have hidx : (u ++ c :: v).reverse.findIdx? (· == c) = some v.length := by
    rw [List.reverse_append, List.reverse_cons, List.append_assoc, List.findIdx?_append,
      List.findIdx?_eq_none_iff.mpr]
    · simp [List.findIdx?_cons]
    · intro d hd
      rw [List.mem_reverse] at hd
      simp only [beq_eq_false_iff_ne]
      rintro rfl
      exact h hd
  rw [lastIndexOf, hidx, Option.map_some, List.length_append, List.length_cons]
  congr 1
  omega

/-- A character is missing, or there is a last one. -/
theorem mem_or_split (c : Char) (cs : List Char) : c ∉ cs ∨ ∃ u v, cs = u ++ c :: v ∧ c ∉ v := by
  induction cs with
  | nil => exact .inl List.not_mem_nil
  | cons d cs ih =>
      rcases ih with h | ⟨u, v, rfl, hv⟩
      · by_cases hd : c = d
        · exact .inr ⟨[], cs, by rw [hd]; rfl, h⟩
        · exact .inl (by simp [hd, h])
      · exact .inr ⟨d :: u, v, rfl, hv⟩

/-- The last one is at one place. -/
theorem split_unique {u' v' : List Char} (h : u ++ c :: v = u' ++ c :: v') (hv : c ∉ v)
    (hv' : c ∉ v') : u = u' ∧ v = v' := by
  have hlen : u.length = u'.length := by
    have := congrArg (lastIndexOf c) h
    rw [lastIndexOf_append hv, lastIndexOf_append hv'] at this
    exact Option.some.inj this
  obtain ⟨h₁, h₂⟩ := List.append_inj h hlen
  exact ⟨h₁, (List.cons.inj h₂).2⟩

/-! ### Texts taken apart -/

/-- A text without a namespace: the type, if there is one, is in front of the last colon. -/
theorem split_plain (h : '/' ∉ cs ∨ ∃ x, cs = '/' :: x ∧ '/' ∉ x) :
    ∃ type name, split cs = .ok ([], type, name) ∧ join [] type name = cs := by
  have hns : ((lastIndexOf '/' cs).map cs.take).getD [] = [] := by
    rcases h with h | ⟨x, rfl, hx⟩
    · rw [lastIndexOf_of_not_mem h]
      rfl
    · rw [← List.nil_append ('/' :: x), lastIndexOf_append hx]
      rfl
  rcases mem_or_split ':' cs with hc | ⟨u, v, rfl, hv⟩
  · refine ⟨[], cs, ?_, rfl⟩
    rw [split, hns, lastIndexOf_of_not_mem hc]
    rfl
  · rw [split, hns, lastIndexOf_append hv]
    cases u with
    | nil => exact ⟨[], ':' :: v, rfl, rfl⟩
    | cons d u =>
        refine ⟨d :: u, v, ?_, by simp [join]⟩
        simp

theorem drop_ns (A x : List Char) (n : Nat) :
    (A ++ '/' :: x).drop (A.length + 1 + n) = x.drop n := by
  rw [← List.drop_drop, List.append_cons, List.drop_left' (by simp)]

/-- A text with a namespace: the type is as long as what is in front of the last colon, the
namespace included. -/
theorem split_append (hA : A ≠ []) (hx : '/' ∉ x) {type : List Char}
    (ht : ((lastIndexOf ':' (A ++ '/' :: x)).map x.take).getD [] = type) :
    split (A ++ '/' :: x) =
      if x.length < (if type.isEmpty then 0 else type.length + 1) then
        .error (.thrown "basic_string::substr")
      else .ok (A, type, x.drop (if type.isEmpty then 0 else type.length + 1)) := by
  have hns : ((lastIndexOf '/' (A ++ '/' :: x)).map (A ++ '/' :: x).take).getD [] = A := by
    rw [lastIndexOf_append hx, Option.map_some, Option.getD_some, List.take_left]
  have hdrop := drop_ns A x
  have hempty : A.isEmpty = false := by simpa using hA
  have hname : (A ++ '/' :: x).drop (A.length + 1) = x := hdrop 0
  rw [split]
  simp only [hns, hempty, Bool.false_eq_true, if_false, hname, ht, List.length_append,
    List.length_cons, hdrop]
  generalize (if type.isEmpty = true then 0 else type.length + 1) = n
  by_cases h : x.length < n
  · rw [if_pos h, if_pos (by omega)]
  · rw [if_neg h, if_neg (by omega)]

/-- A namespace and no type. -/
theorem split_name (hA : A ≠ []) (hx : '/' ∉ x) (hc : ':' ∉ (A ++ '/' :: x).tail ∨ x = []) :
    split (A ++ '/' :: x) = .ok (A, [], x) := by
  have ht : ((lastIndexOf ':' (A ++ '/' :: x)).map x.take).getD [] = [] := by
    rcases hc with hc | rfl
    · rcases mem_or_split ':' (A ++ '/' :: x) with h | ⟨u, v, h, hv⟩
      · rw [lastIndexOf_of_not_mem h]
        rfl
      · rw [h] at hc ⊢
        rw [lastIndexOf_append hv]
        cases u with
        | nil => rfl
        | cons d u => simp at hc
    · cases lastIndexOf ':' (A ++ ['/']) <;> simp
  rw [split_append hA hx ht]
  rfl

/-- A namespace and a type. -/
theorem split_type (hA : A ≠ []) (hx : '/' ∉ x) (hx' : x ≠ []) (hu : u ≠ []) (hv : ':' ∉ v)
    (h : A ++ '/' :: x = u ++ ':' :: v) :
    split (A ++ '/' :: x) = if x.length ≤ u.length then .error (.thrown "basic_string::substr")
      else .ok (A, x.take u.length, x.drop (u.length + 1)) := by
  have ht : ((lastIndexOf ':' (A ++ '/' :: x)).map x.take).getD [] = x.take u.length := by
    rw [h, lastIndexOf_append hv]
    rfl
  have hne : (x.take u.length).isEmpty = false := by
    simp [hx', hu]
  rw [split_append hA hx ht, hne, if_neg Bool.false_ne_true, List.length_take]
  by_cases hlen : x.length ≤ u.length
  · rw [if_pos hlen, if_pos (by omega)]
  · rw [if_neg hlen, if_neg (by omega), Nat.min_eq_left (by omega)]

/-! ### Names -/

/-- The fully qualified name a text has after it was taken apart once. -/
def requalify (cs : List Char) : Except Fault (List Char) :=
  (fun r => join r.1 r.2.1 r.2.2) <$> split cs

theorem fullyQualifiedName_ofList (ns type name : List Char) :
    fullyQualifiedName { ns := .ofList ns, type := .ofList type, name := .ofList name } =
      .ofList (join ns type name) := by
  have hempty (cs : List Char) : String.ofList cs ≠ "" ↔ cs ≠ [] := by
    rw [ne_eq, ← String.ofList_nil, String.ofList_inj]
  cases ns <;> cases type <;>
    simp [fullyQualifiedName, join, hempty, ← String.toList_inj]

theorem fullyQualifiedName_newInternal (cs : List Char) :
    fullyQualifiedName <$> newInternal cs = String.ofList <$> requalify cs := by
  rw [newInternal, requalify]
  cases split cs with
  | error e => rfl
  | ok r => exact congrArg Except.ok (fullyQualifiedName_ofList _ _ _)

/-- `Symbol::New` takes a text apart twice. -/
theorem fullyQualifiedName_new (text : String) : fullyQualifiedName <$> new text =
    String.ofList <$> (requalify text.toList >>= requalify) := by
  rw [new, requalify]
  cases split text.toList with
  | error e => rfl
  | ok r => exact fullyQualifiedName_newInternal _

/-- The part of a text behind its last slash. -/
inductive Base (cs x : List Char) : Prop where
  | whole (h : '/' ∉ x) (heq : cs = x)
  | behind {A : List Char} (h : '/' ∉ x) (heq : cs = A ++ '/' :: x)

theorem exists_base (cs : List Char) : ∃ x, Base cs x := by
  rcases mem_or_split '/' cs with h | ⟨A, x, h, hx⟩
  · exact ⟨cs, .whole h rfl⟩
  · exact ⟨x, .behind hx h⟩

/-- The name `Namespace::CreateSymbol` puts the namespace in front of. -/
theorem fullyQualifiedName_createIn {ns : Symbol} (hns : ns.name ≠ "_kernel") {text : String}
    (h : Base text.toList x) : fullyQualifiedName <$> createIn ns text =
      String.ofList <$> requalify (join ns.name.toList [] x) := by
  have hbase : ((lastIndexOf '/' text.toList).map fun i => text.toList.drop (i + 1)).getD
      text.toList = x := by
    cases h with
    | whole h heq =>
        rw [heq, lastIndexOf_of_not_mem h]
        rfl
    | behind h heq =>
        rw [heq, lastIndexOf_append h]
        simp
  rw [createIn, if_neg hns, ← fullyQualifiedName_newInternal]
  dsimp only
  rw [hbase]

theorem requalify_plain (h : '/' ∉ cs ∨ ∃ x, cs = '/' :: x ∧ '/' ∉ x) : requalify cs = .ok cs := by
  obtain ⟨type, name, hsplit, hjoin⟩ := split_plain h
  rw [requalify, hsplit]
  exact congrArg Except.ok hjoin

theorem join_ns (hA : A ≠ []) (type name : List Char) :
    join A type name = A ++ '/' :: join [] type name := by
  cases A with
  | nil => exact absurd rfl hA
  | cons a A => simp [join]

/-- A colon that makes the parts of `A/x` overlap: it is not at the start of the text, and there is
a name for it to be in. -/
structure Colon (A x u v : List Char) : Prop where
  eq : A ++ '/' :: x = u ++ ':' :: v
  last : ':' ∉ v
  start : u ≠ []
  name : x ≠ []

theorem colon_or (A x : List Char) :
    (':' ∉ (A ++ '/' :: x).tail ∨ x = []) ∨ ∃ u v, Colon A x u v := by
  by_cases hx : x = []
  · exact .inl (.inr hx)
  · rcases mem_or_split ':' (A ++ '/' :: x) with h | ⟨u, v, h, hv⟩
    · exact .inl (.inl fun hc => h (List.mem_of_mem_tail hc))
    · cases u with
      | nil =>
          refine .inl (.inl ?_)
          rw [h]
          exact hv
      | cons d u => exact .inr ⟨d :: u, v, h, hv, List.cons_ne_nil d u, hx⟩

theorem requalify_name (hA : A ≠ []) (hx : '/' ∉ x) (hc : ':' ∉ (A ++ '/' :: x).tail ∨ x = []) :
    requalify (A ++ '/' :: x) = .ok (A ++ '/' :: x) := by
  rw [requalify, split_name hA hx hc]
  exact congrArg Except.ok (join_ns hA [] x)

/-- The name with the colon moved to where the type is cut. -/
def moved (x : List Char) (n : Nat) : List Char := x.take n ++ ':' :: x.drop (n + 1)

theorem requalify_type (hA : A ≠ []) (hx : '/' ∉ x) (hc : Colon A x u v) :
    requalify (A ++ '/' :: x) = if x.length ≤ u.length then
      .error (.thrown "basic_string::substr") else .ok (A ++ '/' :: moved x u.length) := by
  rw [requalify, split_type hA hx hc.name hc.start hc.last hc.eq]
  by_cases hlen : x.length ≤ u.length
  · rw [if_pos hlen, if_pos hlen]
    rfl
  · rw [if_neg hlen, if_neg hlen]
    have hne : x.take u.length ≠ [] := by simp [hc.name, hc.start]
    refine congrArg Except.ok ((join_ns hA _ _).trans ?_)
    rw [join, moved]
    simp [hne]

theorem not_mem_moved {n : Nat} (h : '/' ∉ x) : '/' ∉ moved x n := by
  rw [moved]
  simp only [List.mem_append, List.mem_cons, not_or]
  exact ⟨fun hm => h (List.mem_of_mem_take hm), by decide, fun hm => h (List.mem_of_mem_drop hm)⟩

/-- The namespace stays in front. -/
theorem requalify_shape {y : List Char} (hx : '/' ∉ x)
    (h : requalify (A ++ '/' :: x) = .ok y) : ∃ z, '/' ∉ z ∧ y = A ++ '/' :: z := by
  by_cases hA : A = []
  · subst hA
    have hplain : requalify ([] ++ '/' :: x) = .ok ([] ++ '/' :: x) :=
      requalify_plain (.inr ⟨x, rfl, hx⟩)
    rw [hplain] at h
    cases h
    exact ⟨x, hx, rfl⟩
  · rcases colon_or A x with hc | ⟨u, v, hc⟩
    · rw [requalify_name hA hx hc] at h
      cases h
      exact ⟨x, hx, rfl⟩
    · rw [requalify_type hA hx hc] at h
      split at h
      · cases h
      · cases h
        exact ⟨_, not_mem_moved hx, rfl⟩

theorem twice_shape {y : List Char} (hx : '/' ∉ x)
    (h : requalify (A ++ '/' :: x) >>= requalify = .ok y) : ∃ z, '/' ∉ z ∧ y = A ++ '/' :: z := by
  obtain ⟨y', hy', h⟩ := result_bind_eq_ok.mp h
  obtain ⟨z, hz, rfl⟩ := requalify_shape hx hy'
  exact requalify_shape hz h

/-- What is behind the last colon has none. -/
theorem Colon.not_mem_drop (h : Colon A x u v) : ':' ∉ x.drop (u.length + 1) := by
  have hv : v = (A ++ '/' :: x).drop (u.length + 1) := by
    rw [h.eq, List.append_cons, List.drop_left' (by simp)]
  have hx : x.drop (u.length + 1) = v.drop (A.length + 1) := by
    rw [hv, List.drop_drop, ← drop_ns A]
    congr 1
    omega
  rw [hx]
  exact fun hm => h.last (List.mem_of_mem_drop hm)

/-- The second time the last colon is where the first time put it. -/
theorem Colon.moved (h : Colon A x u v) :
    Colon A (moved x u.length) (A ++ '/' :: x.take u.length) (x.drop (u.length + 1)) where
  eq := by simp [Symbol.moved]
  last := h.not_mem_drop
  start := by simp
  name := by simp [Symbol.moved]

/-- A colon is moved each time. -/
theorem Colon.moved_ne (h : Colon A x u v) {n : Nat} (hn : u.length < n) (hx : n < x.length) :
    Symbol.moved (Symbol.moved x u.length) n ≠ Symbol.moved x u.length := by
  intro heq
  have hlen : (Symbol.moved x u.length).length = x.length := by
    simp [Symbol.moved]
    omega
  have hget : (Symbol.moved x u.length)[n]? = some ':' := by
    rw [← heq, Symbol.moved, List.getElem?_append_right (by simp)]
    simp [hlen, Nat.min_eq_left (Nat.le_of_lt hx)]
  rw [Symbol.moved, List.getElem?_append_right (by simp; omega), List.length_take,
    Nat.min_eq_left (by omega), List.getElem?_cons, if_neg (by omega)] at hget
  exact h.not_mem_drop (List.mem_of_getElem? hget)

/-- What `Symbol::New` makes of a name with a namespace and a colon. -/
theorem twice_type (hA : A ≠ []) (hx : '/' ∉ x) (hc : Colon A x u v) :
    (x.length ≤ u.length + (A.length + 1) →
      ∃ e, requalify (A ++ '/' :: x) >>= requalify = .error e) ∧
    (u.length + (A.length + 1) < x.length → requalify (A ++ '/' :: x) >>= requalify =
      .ok (A ++ '/' :: moved (moved x u.length) (u.length + (A.length + 1)))) := by
  rw [requalify_type hA hx hc]
  by_cases hlen : x.length ≤ u.length
  · rw [if_pos hlen]
    exact ⟨fun _ => ⟨_, rfl⟩, fun h => by omega⟩
  · rw [if_neg hlen]
    have hmoved : (moved x u.length).length = x.length := by
      simp [moved]
      omega
    have hu : (A ++ '/' :: x.take u.length).length = u.length + (A.length + 1) := by
      simp
      omega
    change (_ → ∃ e, requalify _ = .error e) ∧ (_ → requalify _ = _)
    rw [requalify_type hA (not_mem_moved hx) hc.moved, hmoved, hu]
    constructor
    · intro h
      exact ⟨_, if_pos h⟩
    · intro h
      exact if_neg (Nat.not_le_of_lt h)

/-! ### Two ways to read a name -/

theorem Base.unique {x' : List Char} (h : Base cs x) (h' : Base cs x') : x = x' := by
  cases h with
  | whole h heq =>
      cases h' with
      | whole _ heq' => exact heq.symm.trans heq'
      | behind _ heq' =>
          rw [← heq, heq'] at h
          simp at h
  | behind h heq =>
      cases h' with
      | whole h' heq' =>
          rw [← heq', heq] at h'
          simp at h'
      | behind h' heq' => exact (split_unique (heq.symm.trans heq') h h').2

/-- The text has the namespace in front of it already, and no type. -/
def Prefixed (ns cs : List Char) : Prop :=
  ∃ x, '/' ∉ x ∧ cs = join ns [] x ∧ (ns ≠ [] → ':' ∉ cs.tail ∨ x = [])

theorem not_mem_slash {y : List Char} (h : '/' ∉ y) (A z : List Char) : y ≠ A ++ '/' :: z := by
  rintro rfl
  simp at h

/-- Both ways of reading the text give it one name exactly when it has the namespace already. -/
theorem agree_iff {ns : List Char} (h : Base cs x) :
    (∃ y, requalify (join ns [] x) = .ok y ∧ requalify cs >>= requalify = .ok y) ↔
      Prefixed ns cs := by
  cases h with
  | whole h heq =>
      subst heq
      have htwice : requalify cs >>= requalify = .ok cs := by
        rw [requalify_plain (.inl h)]
        exact requalify_plain (.inl h)
      by_cases hns : ns = []
      · subst hns
        exact ⟨fun _ => ⟨cs, h, rfl, fun hne => absurd rfl hne⟩,
          fun _ => ⟨cs, requalify_plain (.inl h), htwice⟩⟩
      · constructor
        · rintro ⟨y, hy, hy'⟩
          rw [htwice] at hy'
          cases hy'
          rw [join_ns hns] at hy
          obtain ⟨z, -, hz⟩ := requalify_shape h hy
          exact absurd hz (not_mem_slash h _ _)
        · rintro ⟨x', -, hcs, -⟩
          rw [join_ns hns] at hcs
          exact absurd hcs (not_mem_slash h _ _)
  | @behind A h heq =>
      by_cases hns : ns = []
      · subst hns
        constructor
        · rintro ⟨y, hy, hy'⟩
          have hx : requalify (join [] [] x) = .ok x := requalify_plain (.inl h)
          rw [hx] at hy
          cases hy
          rw [heq] at hy'
          obtain ⟨z, -, hz⟩ := twice_shape h hy'
          exact absurd hz (not_mem_slash h _ _)
        · rintro ⟨x', hx', hcs, -⟩
          have hcs' : x' = A ++ '/' :: x := hcs.symm.trans heq
          exact absurd hcs' (not_mem_slash hx' _ _)
      · have hjoin : join ns [] x = ns ++ '/' :: x := join_ns hns [] x
        rw [hjoin]
        constructor
        · rintro ⟨y, hy, hy'⟩
          obtain ⟨z, hz, rfl⟩ := requalify_shape h hy
          rw [heq] at hy'
          obtain ⟨z', hz', heq'⟩ := twice_shape h hy'
          obtain ⟨rfl, rfl⟩ := split_unique heq' hz hz'
          rcases colon_or ns x with hc | ⟨u, v, hc⟩
          · exact ⟨x, h, heq.trans hjoin.symm, fun _ => by rwa [heq]⟩
          · -- the second time the colon is moved once more
            obtain ⟨hshort, hlong⟩ := twice_type hns h hc
            by_cases hlen : x.length ≤ u.length + (ns.length + 1)
            · obtain ⟨e, he⟩ := hshort hlen
              rw [he] at hy'
              cases hy'
            · rw [hlong (Nat.lt_of_not_le hlen)] at hy'
              rw [requalify_type hns h hc, if_neg (by omega)] at hy
              have hmoved := (Except.ok.inj hy').trans (Except.ok.inj hy).symm
              exact absurd (List.cons.inj (List.append_cancel_left hmoved)).2
                (hc.moved_ne (by omega) (by omega))
        · rintro ⟨x', hx', hcs, hc⟩
          rw [join_ns hns] at hcs
          obtain ⟨rfl, rfl⟩ := split_unique (heq.symm.trans hcs) h hx'
          have hc := hc hns
          rw [heq] at hc ⊢
          refine ⟨_, requalify_name hns h hc, ?_⟩
          rw [requalify_name hns h hc]
          exact requalify_name hns h hc

/-- `Namespace::CreateSymbol` fails at a colon that the namespace pushes past the end. -/
theorem requalify_error_iff {ns : List Char} (hx : '/' ∉ x) :
    (∃ e, requalify (join ns [] x) = .error e) ↔
      ns ≠ [] ∧ ∃ u v, Colon ns x u v ∧ x.length ≤ u.length := by
  by_cases hns : ns = []
  · subst hns
    have hplain : requalify (join [] [] x) = .ok x := requalify_plain (.inl hx)
    rw [hplain]
    refine ⟨?_, fun h => absurd rfl h.1⟩
    rintro ⟨e, he⟩
    cases he
  · have hjoin : join ns [] x = ns ++ '/' :: x := join_ns hns [] x
    rw [hjoin]
    constructor
    · rintro ⟨e, he⟩
      refine ⟨hns, ?_⟩
      rcases colon_or ns x with hc | ⟨u, v, hc⟩
      · rw [requalify_name hns hx hc] at he
        cases he
      · refine ⟨u, v, hc, ?_⟩
        by_contra hlen
        rw [requalify_type hns hx hc, if_neg hlen] at he
        cases he
    · rintro ⟨-, u, v, hc, hlen⟩
      exact ⟨_, (requalify_type hns hx hc).trans (if_pos hlen)⟩

/-- `Symbol::New` fails at a colon that its two rounds push past the end. -/
theorem twice_error_iff : (∃ e, requalify cs >>= requalify = .error e) ↔
    ∃ A x u v, cs = A ++ '/' :: x ∧ '/' ∉ x ∧ A ≠ [] ∧ Colon A x u v ∧
      x.length ≤ u.length + (A.length + 1) := by
  constructor
  · rintro ⟨e, he⟩
    have hplain (h : '/' ∉ cs ∨ ∃ x, cs = '/' :: x ∧ '/' ∉ x) : False := by
      rw [requalify_plain h] at he
      change requalify cs = _ at he
      rw [requalify_plain h] at he
      cases he
    rcases mem_or_split '/' cs with h | ⟨A, x, rfl, hx⟩
    · exact absurd (.inl h) hplain
    · by_cases hA : A = []
      · subst hA
        exact absurd (.inr ⟨x, rfl, hx⟩) hplain
      · rcases colon_or A x with hc | ⟨u, v, hc⟩
        · rw [requalify_name hA hx hc] at he
          change requalify _ = _ at he
          rw [requalify_name hA hx hc] at he
          cases he
        · refine ⟨A, x, u, v, rfl, hx, hA, hc, ?_⟩
          by_contra hlen
          rw [(twice_type hA hx hc).2 (Nat.lt_of_not_le hlen)] at he
          cases he
  · rintro ⟨A, x, u, v, rfl, hx, hA, hc, hlen⟩
    exact (twice_type hA hx hc).1 hlen

/-- One result is always the other one: they agree, or there is none. -/
theorem forall_ok_iff {ε α : Type} {y z : Except ε α} :
    (∀ a, y = .ok a → z = .ok a) ↔ (∃ a, y = .ok a ∧ z = .ok a) ∨ ∃ e, y = .error e := by
  cases y with
  | error e => exact ⟨fun _ => .inr ⟨e, rfl⟩, fun _ a h => by cases h⟩
  | ok a =>
      constructor
      · intro h
        exact .inl ⟨a, rfl, h a rfl⟩
      · rintro (⟨b, hb, hz⟩ | ⟨e, he⟩) c hc
        · cases hb
          cases hc
          exact hz
        · cases he

theorem forall_map_ok_iff {ε α β : Type} {y z : Except ε α} {g : α → β}
    (hg : Function.Injective g) :
    (∀ b, g <$> y = .ok b → g <$> z = .ok b) ↔ ∀ a, y = .ok a → z = .ok a := by
  constructor
  · rintro h a rfl
    have hz := h (g a) rfl
    cases z with
    | error e => cases hz
    | ok b => exact congrArg Except.ok (hg (Except.ok.inj hz))
  · intro h b hy
    cases y with
    | error e => cases hy
    | ok a =>
        cases hy
        rw [h a rfl]
        rfl

end Symbol

/-! ### Sites -/

/-- The forms that introduce a variable. -/
inductive BindingForm where
  | letBinding | parameter | defn | set
  deriving DecidableEq, Repr

/-- The places where a name is used. -/
inductive UseForm where
  | callHead | argument | operand | reference
  deriving DecidableEq, Repr

/-- Whether `ParseSymbol` reads the name of a binding. -/
def BindingForm.qualified (b : BindingForm) : Bool := b != .parameter

def UseForm.qualified (u : UseForm) : Bool := u == .callHead

namespace Parser

variable {reg : Registry} {p q : Parser} {ns : Symbol} {text : String}

/-- The symbol of a variable where it is introduced. -/
def bindingSite (reg : Registry) : BindingForm → Parse Symbol
  | .letBinding | .defn | .set => parseSymbol reg
  | .parameter => do Symbol.new (← expectNext reg .identifier).text

/-- The symbol of a variable where it is used. -/
def useSite (reg : Registry) : UseForm → Parse Symbol
  | .callHead => parseSymbol reg
  | .argument | .operand | .reference => do
      match ← parseLiteralValue reg with
      | .symbol s => return s
      | _ => throw .undefined

/-- Inside the namespace `ns`, the parser is at the identifier `text`. -/
def AtIdentifier (reg : Registry) (ns : Symbol) (text : String) (p : Parser) : Prop :=
  ∃ q, nextToken reg p = .ok (⟨.identifier, text⟩, q) ∧ q.current = some ns

/-- The variable that the binding at `p` introduces is the one the use at `q` finds. -/
def Finds (reg : Registry) (b : BindingForm) (u : UseForm) (p q : Parser) : Prop :=
  ∀ s p', bindingSite reg b p = .ok (s, p') → ∃ s' q', useSite reg u q = .ok (s', q') ∧
    s'.fullyQualifiedName = s.fullyQualifiedName

/-- The symbol of an identifier, with or without the namespace. -/
def symbolOf (qualified : Bool) (ns : Symbol) (text : String) : Except Fault Symbol :=
  if qualified then Symbol.createIn ns text else Symbol.new text

theorem nextToken_scopes {t : Token} (h : nextToken reg p = .ok (t, q)) : q.scopes = p.scopes := by
  rcases nextToken_eq_ok h with ⟨-, rfl⟩ | ⟨-, l, -, rfl⟩ <;> rfl

theorem expectNext_scopes {k : Token.Kind} {t : Token} (h : expectNext reg k p = .ok (t, q)) :
    q.scopes = p.scopes := by
  obtain ⟨t', p₁, hnext, h⟩ := bind_eq_ok.mp h
  rw [← nextToken_scopes hnext]
  by_cases hk : t'.kind ≠ k
  · rw [if_pos hk] at h
    cases h
    rfl
  · rw [if_neg hk] at h
    cases h
    rfl

theorem addLocal_locals {s : ScopeId} {l : LocalId} {u : Unit}
    (h : addLocal s l p = .ok (u, q)) : q.scopes.locals = p.scopes.locals := by
  obtain ⟨p₀, p₁, hget, h⟩ := bind_eq_ok.mp h
  obtain ⟨rfl, rfl⟩ := Prod.mk.inj (Except.ok.inj hget)
  have hlocals : (p.scopes.addLocal s l).2.locals = p.scopes.locals := by
    rw [Scopes.addLocal]
    split <;> rfl
  rw [← hlocals]
  generalize p.scopes.addLocal s l = r at h
  obtain ⟨ok, scopes⟩ := r
  cases ok <;> cases h
  rfl

/-- A parameter is named by `bindingSite`. -/
theorem parseArgument_site {arg : Argument} (h : parseArgument reg true p = .ok (arg, q)) :
    ∃ s p₁, bindingSite reg .parameter p = .ok (s, p₁) ∧
      q.scopes.locals.getLast?.map LocalVariable.name = some s.fullyQualifiedName := by
  obtain ⟨t, p₁, hname, h⟩ := bind_eq_ok.mp h
  have hadded {a : Argument} {p' : Parser} (h : (do
      let scope ← getScope
      let l ← newLocal scope (← Symbol.new t.text).fullyQualifiedName
      addLocal scope l
      return a : Parse Argument) p' = .ok (arg, q)) :
      ∃ s p₁, bindingSite reg .parameter p = .ok (s, p₁) ∧
        q.scopes.locals.getLast?.map LocalVariable.name = some s.fullyQualifiedName := by
    obtain ⟨scope, p₂, -, hrest⟩ := bind_eq_ok.mp h
    obtain ⟨s, p₃, hlift, hrest₁⟩ := bind_eq_ok.mp hrest
    obtain ⟨l, p₄, hnew, hrest₂⟩ := bind_eq_ok.mp hrest₁
    obtain ⟨_, p₅, hadd, hret⟩ := bind_eq_ok.mp hrest₂
    cases hret
    have hs := (lift_eq_ok.mp hlift).1
    refine ⟨s, p₁, (bind_run hname).trans (lift_run hs), ?_⟩
    rw [addLocal_locals hadd]
    cases hnew
    simp
  obtain ⟨k, p₂, -, h⟩ := bind_eq_ok.mp h
  dsimp only at h
  split at h
  · obtain ⟨_, p₃, -, h⟩ := bind_eq_ok.mp h
    exact hadded h
  · obtain ⟨_, p₃, -, h⟩ := bind_eq_ok.mp h
    exact hadded h
  · exact hadded h
  · exact hadded h
  · cases h

/-- A binding of a `let` is named by `bindingSite`. -/
theorem parseBinding_site {expr : ParseExpr} {scope : ScopeId} {e : Expr}
    (h : parseBinding reg expr scope p = .ok (e, q)) : ∃ t p₁ s p₂ l v,
      expectNext reg .lParen p = .ok (t, p₁) ∧
        bindingSite reg .letBinding p₁ = .ok (s, p₂) ∧ e = .binding l v ∧
        (q.scopes.locals[l]?.map LocalVariable.name) = some s.fullyQualifiedName := by
  obtain ⟨t, p₁, hparen, h⟩ := bind_eq_ok.mp h
  obtain ⟨s, p₂, hsymbol, h⟩ := bind_eq_ok.mp h
  obtain ⟨p₀, p₃, hget, h⟩ := bind_eq_ok.mp h
  obtain ⟨rfl, rfl⟩ := Prod.mk.inj (Except.ok.inj hget)
  split at h
  · cases h
  · obtain ⟨v, p₄, hvalue, h⟩ := bind_eq_ok.mp h
    obtain ⟨l, p₅, hnew, h⟩ := bind_eq_ok.mp h
    obtain ⟨_, p₆, hadd, h⟩ := bind_eq_ok.mp h
    obtain ⟨t', p₇, hclose, h⟩ := bind_eq_ok.mp h
    cases h
    refine ⟨t, p₁, s, _, l, v, hparen, hsymbol, rfl, ?_⟩
    rw [expectNext_scopes hclose, addLocal_locals hadd]
    cases hnew
    simp

theorem parseSymbol_run {q : Parser} (h : nextToken reg p = .ok (⟨.identifier, text⟩, q))
    (hns : q.current = some ns) :
    parseSymbol reg p = (fun s => (s, q)) <$> Symbol.createIn ns text := by
  refine (bind_run h).trans ?_
  rw [if_neg (by simp)]
  refine (bind_run (get_run q)).trans ?_
  rw [hns]
  change (liftM (Symbol.createIn ns text) : Parse Symbol) q = _
  cases Symbol.createIn ns text <;> rfl

theorem parseLiteralValue_run {q : Parser}
    (h : nextToken reg p = .ok (⟨.identifier, text⟩, q)) :
    parseLiteralValue reg p = (fun s => (.symbol s, q)) <$> Symbol.new text := by
  refine (bind_run h).trans ?_
  change ((liftM (Symbol.new text) : Parse Symbol) >>= fun s => pure (Value.symbol s)) q = _
  cases Symbol.new text <;> rfl

theorem bindingSite_run {q : Parser} (b : BindingForm)
    (h : nextToken reg p = .ok (⟨.identifier, text⟩, q)) (hns : q.current = some ns) :
    bindingSite reg b p = (fun s => (s, q)) <$> symbolOf b.qualified ns text := by
  cases b with
  | letBinding => exact parseSymbol_run h hns
  | defn => exact parseSymbol_run h hns
  | set => exact parseSymbol_run h hns
  | parameter =>
      have hexpect : expectNext reg .identifier p = .ok (⟨.identifier, text⟩, q) := bind_run h
      refine (bind_run hexpect).trans ?_
      change (liftM (Symbol.new text) : Parse Symbol) q = _
      change _ = _ <$> Symbol.new text
      cases Symbol.new text <;> rfl

theorem useSite_run {q : Parser} (u : UseForm)
    (h : nextToken reg p = .ok (⟨.identifier, text⟩, q)) (hns : q.current = some ns) :
    useSite reg u p = (fun s => (s, q)) <$> symbolOf u.qualified ns text := by
  have hliteral : (do match ← parseLiteralValue reg with
      | .symbol s => return s
      | _ => throw .undefined : Parse Symbol) p = (fun s => (s, q)) <$> Symbol.new text := by
    have hrun := parseLiteralValue_run h
    revert hrun
    cases Symbol.new text with
    | error e => exact fun hrun => bind_run_error hrun
    | ok s => exact fun hrun => bind_run hrun
  cases u with
  | callHead => exact parseSymbol_run h hns
  | argument => exact hliteral
  | operand => exact hliteral
  | reference => exact hliteral

/-- The name is one that the binding cannot be made with. -/
def Rejected (qualified : Bool) (ns cs : List Char) : Prop :=
  if qualified then ∃ x, Symbol.Base cs x ∧ ns ≠ [] ∧ ∃ u v, Symbol.Colon ns x u v ∧
    x.length ≤ u.length
  else ∃ A x u v, cs = A ++ '/' :: x ∧ '/' ∉ x ∧ A ≠ [] ∧ Symbol.Colon A x u v ∧
    x.length ≤ u.length + (A.length + 1)

theorem finds_iff_name {b : BindingForm} {u : UseForm} {p₁ q₁ : Parser}
    (hp : nextToken reg p = .ok (⟨.identifier, text⟩, p₁)) (hpns : p₁.current = some ns)
    (hq : nextToken reg q = .ok (⟨.identifier, text⟩, q₁)) (hqns : q₁.current = some ns) :
    Finds reg b u p q ↔
      ∀ y, Symbol.fullyQualifiedName <$> symbolOf b.qualified ns text = .ok y →
        Symbol.fullyQualifiedName <$> symbolOf u.qualified ns text = .ok y := by
  rw [Finds, bindingSite_run b hp hpns, useSite_run u hq hqns]
  cases symbolOf b.qualified ns text with
  | error e => exact ⟨fun _ y h => (by cases h), fun _ s p' h => (by cases h)⟩
  | ok s =>
      cases symbolOf u.qualified ns text with
      | error e =>
          constructor
          · intro h
            obtain ⟨s', q', h, -⟩ := h s p₁ rfl
            cases h
          · intro h
            cases h _ rfl
      | ok s' =>
          constructor
          · intro h y hy
            cases hy
            obtain ⟨s'', q', hs'', heq⟩ := h s p₁ rfl
            cases hs''
            exact congrArg Except.ok heq
          · intro h s₀ p' hs₀
            cases hs₀
            exact ⟨s', q₁, rfl, Except.ok.inj (h _ rfl)⟩

/-- **Symbols in a namespace.**  A use finds the variable a binding introduces exactly when both
sites qualify the name or neither does, or it makes no difference. -/
theorem finds_iff {b : BindingForm} {u : UseForm} (hp : AtIdentifier reg ns text p)
    (hq : AtIdentifier reg ns text q) : Finds reg b u p q ↔
      b.qualified = u.qualified ∨ ns.name = "_kernel" ∨
        Symbol.Prefixed ns.name.toList text.toList ∨
        Rejected b.qualified ns.name.toList text.toList := by
  obtain ⟨p₁, hp, hpns⟩ := hp
  obtain ⟨q₁, hq, hqns⟩ := hq
  rw [finds_iff_name hp hpns hq hqns]
  by_cases hsame : b.qualified = u.qualified
  · rw [hsame]
    exact ⟨fun _ => .inl rfl, fun _ y hy => hy⟩
  by_cases hker : ns.name = "_kernel"
  · have hsym (k : Bool) : symbolOf k ns text = Symbol.new text := by
      rw [symbolOf, Symbol.createIn, if_pos hker]
      cases k <;> rfl
    rw [hsym, hsym]
    exact ⟨fun _ => .inr (.inl hker), fun _ y hy => hy⟩
  obtain ⟨x, hbase⟩ := Symbol.exists_base text.toList
  have hx : '/' ∉ x := by
    cases hbase with
    | whole h => exact h
    | behind h => exact h
  have hagree := @Symbol.agree_iff _ _ ns.name.toList hbase
  have hor : (b.qualified = u.qualified ∨ ns.name = "_kernel" ∨
      Symbol.Prefixed ns.name.toList text.toList ∨
        Rejected b.qualified ns.name.toList text.toList) ↔
      Symbol.Prefixed ns.name.toList text.toList ∨
        Rejected b.qualified ns.name.toList text.toList := by
    simp [hsame, hker]
  rw [hor]
  cases hb : b.qualified with
  | true =>
      have hu : u.qualified = false := by
        rw [hb] at hsame
        simpa using Ne.symm hsame
      rw [hu, symbolOf, symbolOf, if_pos rfl, if_neg Bool.false_ne_true,
        Symbol.fullyQualifiedName_createIn hker hbase, Symbol.fullyQualifiedName_new,
        Symbol.forall_map_ok_iff fun _ _ h => String.ofList_injective h, Symbol.forall_ok_iff, hagree,
        Symbol.requalify_error_iff hx, Rejected, if_pos rfl]
      refine or_congr Iff.rfl ⟨fun h => ⟨x, hbase, h⟩, ?_⟩
      rintro ⟨x', hbase', h⟩
      obtain rfl := hbase.unique hbase'
      exact h
  | false =>
      have hu : u.qualified = true := by
        rw [hb] at hsame
        simpa using Ne.symm hsame
      have hswap : (∃ y, (Symbol.requalify text.toList >>= Symbol.requalify) = .ok y ∧
          Symbol.requalify (Symbol.join ns.name.toList [] x) = .ok y) ↔
          Symbol.Prefixed ns.name.toList text.toList := by
        rw [← hagree]
        exact exists_congr fun y => and_comm
      rw [hu, symbolOf, symbolOf, if_pos rfl, if_neg Bool.false_ne_true,
        Symbol.fullyQualifiedName_createIn hker hbase, Symbol.fullyQualifiedName_new,
        Symbol.forall_map_ok_iff fun _ _ h => String.ofList_injective h, Symbol.forall_ok_iff, hswap,
        Symbol.twice_error_iff, Rejected, if_neg Bool.false_ne_true]

theorem finds_iff_sample :
    Finds {} .letBinding .callHead
        { lexer := { chars := "f 1)".toList }, current := some { name := "math" } }
        { lexer := { chars := "f 2)".toList }, current := some { name := "math" } } ↔
      BindingForm.letBinding.qualified = UseForm.callHead.qualified ∨ "math" = "_kernel" ∨
        Symbol.Prefixed "math".toList "f".toList ∨ Rejected true "math".toList "f".toList :=
  @finds_iff {} _ _ { name := "math" } "f" .letBinding .callHead ⟨_, rfl, rfl⟩ ⟨_, rfl, rfl⟩

/-- Inside a namespace a parameter is not found at the head of a call, nor a variable of a `let` at
an operand. -/
theorem not_finds :
    ¬ Finds {} .parameter .callHead
        { lexer := { chars := "f]".toList }, current := some { name := "math" } }
        { lexer := { chars := "f 2)".toList }, current := some { name := "math" } } ∧
      ¬ Finds {} .letBinding .operand
        { lexer := { chars := "x 1)".toList }, current := some { name := "math" } }
        { lexer := { chars := "x 2)".toList }, current := some { name := "math" } } := by
  constructor
  · intro h
    obtain ⟨s', q', h, heq⟩ := h { name := "f" } _ rfl
    cases h
    exact absurd heq (by decide)
  · intro h
    obtain ⟨s', q', h, heq⟩ := h { ns := "math", name := "x" } _ rfl
    cases h
    exact absurd heq (by decide)

end Parser

end Gel
