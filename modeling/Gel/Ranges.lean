import Gel.Folding
import Gel.Parser
import Gel.Support.Faulting

/-!
# Ranges — the list of a range literal

`ListFromRange` counts an unsigned index down from the upper bound and conses its values.  At the
lower bound 0 the comparison of the loop always holds, and the test for zero ends it.

* `listFromRange_eq`: the loop ends, with the list of the numbers between the bounds.
* `parseListExpr_range`: it is the list that `ParseListExpr` returns for a range.
-/

namespace Gel

open Faulting

/-- The loop of `ListFromRange`, over at most `n` tests of its condition. -/
def rangeLoop (first : UInt64) : Nat → UInt64 → Value → Option Value
  | 0, _, _ => none
  | n + 1, idx, result =>
      if first ≤ idx then
        let result := .pair (.long idx) result
        if idx = 0 then some result else rangeLoop first n (idx - 1) result
      else some result

/-- `std::min`. -/
def rangeFirst (src dst : UInt64) : UInt64 := if dst < src then dst else src

/-- `std::max`. -/
def rangeLast (src dst : UInt64) : UInt64 := if src < dst then dst else src

/-- `ListFromRange`. -/
def listFromRange (n : Nat) (src dst : UInt64) : Option Value :=
  rangeLoop (rangeFirst src dst) n (rangeLast src dst) .null

/-- The numbers from one bound to the other. -/
def rangeValues (first last : UInt64) : List UInt64 :=
  (List.range' first.toNat (last.toNat - first.toNat + 1)).map UInt64.ofNat

section

variable {first idx : UInt64} {d n : Nat}

/-- Below the lower bound the loop ends. -/
theorem rangeLoop_done (h : idx < first) (result : Value) :
    rangeLoop first (n + 1) idx result = some result := by
  rw [rangeLoop, if_neg (UInt64.not_le.mpr h)]

/-- Above the lower bound the index is not zero, and the loop goes on with the one before. -/
theorem rangeLoop_step (h : first < idx) (result : Value) :
    rangeLoop first (n + 1) idx result = rangeLoop first n (idx - 1) (.pair (.long idx) result) := by
  have hzero : idx ≠ 0 := by
    rintro rfl
    exact UInt64.not_lt_zero h
  rw [rangeLoop, if_pos (UInt64.le_of_lt h), if_neg hzero]

/-- At the lower bound the index is consed, and the loop ends: behind zero at once, behind another
bound since the next index is below it. -/
theorem rangeLoop_first (first : UInt64) (result : Value) :
    rangeLoop first (n + 2) first result = some (.pair (.long first) result) := by
  rw [rangeLoop, if_pos (UInt64.le_refl first)]
  by_cases hzero : first = 0
  · rw [if_pos hzero]
  · rw [if_neg hzero]
    have hpos : 0 < first.toNat := Nat.pos_of_ne_zero fun h => hzero (UInt64.toNat_inj.mp h)
    have hlt : first - 1 < first := by
      have hone : 1 ≤ first := UInt64.le_iff_toNat_le.mpr hpos
      rw [UInt64.lt_iff_toNat_lt, UInt64.toNat_sub_of_le _ _ hone]
      exact Nat.sub_lt hpos (by decide)
    exact rangeLoop_done hlt _

/-- **The loop** conses the numbers from the lower bound to the index. -/
theorem rangeLoop_eq (hidx : idx.toNat = first.toNat + d) (hn : d + 2 ≤ n) (result : Value) :
    rangeLoop first n idx result = some
      ((List.range' first.toNat (d + 1)).foldr (fun i v => .pair (.long (.ofNat i)) v) result) := by
  induction d generalizing n idx result with
  | zero =>
      obtain ⟨k, rfl⟩ := Nat.exists_eq_add_of_le' hn
      obtain rfl : idx = first := UInt64.toNat_inj.mp hidx
      rw [rangeLoop_first]
      simp
  | succ d ih =>
      obtain ⟨k, rfl⟩ := Nat.exists_eq_add_of_le' hn
      have hlt : first < idx := by
        rw [UInt64.lt_iff_toNat_lt, hidx]
        exact Nat.lt_add_of_pos_right (Nat.succ_pos d)
      have hone : (1 : UInt64) ≤ idx := by
        rw [UInt64.le_iff_toNat_le, hidx]
        exact Nat.le_add_left _ _
      have hprev : (idx - 1).toNat = first.toNat + d := by
        rw [UInt64.toNat_sub_of_le _ _ hone, hidx]
        rfl
      have hlast : UInt64.ofNat (first.toNat + (d + 1)) = idx := by rw [← hidx, UInt64.ofNat_toNat]
      have hk : k + (d + 1 + 2) = (k + (d + 2)) + 1 := rfl
      have hsplit : List.range' first.toNat (d + 1 + 1)
          = List.range' first.toNat (d + 1) ++ [first.toNat + 1 * (d + 1)] := List.range'_concat
      rw [hk, rangeLoop_step hlt, ih hprev (Nat.le_add_left _ _), hsplit, List.foldr_append,
        List.foldr_cons, List.foldr_nil, Nat.one_mul, hlast]

end

theorem ofList_longs (ns : List Nat) :
    Value.ofList ((ns.map UInt64.ofNat).map .long)
      = ns.foldr (fun i v => .pair (.long (.ofNat i)) v) .null := by
  rw [Value.ofList, List.map_map, List.foldr_map]
  rfl

/-- The numbers of a range, in ascending order. -/
theorem toNat_rangeValues (first last : UInt64) :
    (rangeValues first last).map UInt64.toNat
      = List.range' first.toNat (last.toNat - first.toNat + 1) := by
  rw [rangeValues, List.map_map]
  refine (List.map_congr_left fun i hi => ?_).trans (List.map_id _)
  obtain ⟨k, hk, rfl⟩ := List.mem_range'.mp hi
  have hlt : first.toNat + 1 * k < 2 ^ 64 := by
    have hlast := last.toNat_lt
    have hfirst := first.toNat_lt
    omega
  exact (UInt64.toNat_ofNat').trans (Nat.mod_eq_of_lt hlt)

section

variable (src dst : UInt64)

theorem toNat_rangeFirst : (rangeFirst src dst).toNat = min src.toNat dst.toNat := by
  rw [rangeFirst]
  split
  next h => rw [Nat.min_eq_right (Nat.le_of_lt (UInt64.lt_iff_toNat_lt.mp h))]
  next h => rw [Nat.min_eq_left (UInt64.le_iff_toNat_le.mp (UInt64.not_lt.mp h))]

theorem toNat_rangeLast : (rangeLast src dst).toNat = max src.toNat dst.toNat := by
  rw [rangeLast]
  split
  next h => rw [Nat.max_eq_right (Nat.le_of_lt (UInt64.lt_iff_toNat_lt.mp h))]
  next h => rw [Nat.max_eq_left (UInt64.le_iff_toNat_le.mp (UInt64.not_lt.mp h))]

/-- The loop has ended when it has tested its condition once for each number, and once more. -/
theorem listFromRange_ends {n : Nat}
    (hn : max src.toNat dst.toNat - min src.toNat dst.toNat + 2 ≤ n) :
    listFromRange n src dst
      = some (Value.ofList ((rangeValues (rangeFirst src dst) (rangeLast src dst)).map .long)) := by
  have hlast : (rangeLast src dst).toNat = (rangeFirst src dst).toNat
      + (max src.toNat dst.toNat - min src.toNat dst.toNat) := by
    rw [toNat_rangeFirst, toNat_rangeLast, Nat.add_sub_cancel' min_le_max]
  rw [listFromRange, rangeLoop_eq hlast hn, rangeValues, hlast, Nat.add_sub_cancel_left,
    ofList_longs]

/-- **Range literals.**  For all bounds the loop ends, and the result is the list of the numbers from
the lower bound to the upper one, each once and in ascending order. -/
theorem listFromRange_eq :
    ∃ ns : List UInt64,
      (∀ n, max src.toNat dst.toNat - min src.toNat dst.toNat + 2 ≤ n →
        listFromRange n src dst = some (Value.ofList (ns.map .long))) ∧
      ns.length = max src.toNat dst.toNat - min src.toNat dst.toNat + 1 ∧
      ns.map UInt64.toNat = List.range' (min src.toNat dst.toNat)
        (max src.toNat dst.toNat - min src.toNat dst.toNat + 1) := by
  have hvalues := toNat_rangeValues (rangeFirst src dst) (rangeLast src dst)
  rw [toNat_rangeFirst, toNat_rangeLast] at hvalues
  refine ⟨_, fun n hn => listFromRange_ends src dst hn, ?_, hvalues⟩
  rw [← List.length_map UInt64.toNat, hvalues, List.length_range']

end

/-- `ParseListExpr` returns the list of a range. -/
theorem Parser.parseListExpr_range {reg : Registry} {expr : ParseExpr} {n : Nat}
    {src dst : UInt64} {p p₁ p₂ p₃ p₄ : Parser} {tok : Token}
    (hfirst : nonnull expr p = .ok (.literal (.long src), p₁))
    (hpeek : peekEq reg .range p₁ = .ok (true, p₂)) (hnext : nextToken reg p₂ = .ok (tok, p₃))
    (hend : expr p₃ = .ok (some (.literal (.long dst)), p₄)) :
    ∃ v, (∀ k, max src.toNat dst.toNat - min src.toNat dst.toNat + 2 ≤ k →
        listFromRange k src dst = some v) ∧
      parseListExpr reg expr n p = .ok (.literal v, p₄) := by
  refine ⟨_, fun k hk => listFromRange_ends src dst hk, ?_⟩
  rw [rangeValues, ofList_longs, toNat_rangeFirst, toNat_rangeLast, parseListExpr, bind_run hfirst,
    bind_run hpeek, if_pos rfl, bind_run hnext]
  exact bind_run hend

end Gel
