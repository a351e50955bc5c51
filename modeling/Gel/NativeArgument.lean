import Gel.Arity

/-!
# NativeArgument — how a native reads its arguments

`NativeArgument<Index, T, Required>` looks up one position of the list a native is applied to and
keeps a pointer: the argument, an `Error` when it is not an instance of `T`, or nothing.

* `accessCorrect_iff`: on the lists that calls produce, when its answers are the wanted ones.
-/

namespace Gel

open Gel.Runtime

/-- `kClassName`, the name a class is created with. -/
def ClassId.name : ClassId → String
  | .object => "Object"
  | .symbol => "Symbol"
  | .string => "String"
  | .seq => "Seq"
  | .map => "Map"
  | .set => "Set"
  | .array => "Array"
  | .pair => "Pair"
  | .number => "Number"
  | .long => "Long"
  | .double => "Double"
  | .bool => "Bool"
  | .procedure => "Procedure"
  | .lambda => "Lambda"
  | .nativeProcedure => "NativeProcedure"
  | .cls => "Class"
  | .field => "Field"
  | .error => "Error"
  | .observable => "Observable"
  | .observer => "Observer"
  | .subject => "Subject"
  | .publishSubject => "PublishSubject"
  | .replaySubject => "ReplaySubject"
  | .other name => name

/-- `Object::IsError`. -/
def Value.isError (v : Value) : Bool := v.type == .error

@[simp]
theorem Value.isError_error (id : Nat) (message : String) : (Value.error id message).isError = true :=
  rfl

@[simp]
theorem Value.isError_null : Value.null.isError = false := rfl

/-- `NativeArgument<Index, T, Required>`, with its pointer `value_`. -/
structure NativeArgument where
  index : Nat
  type : ClassId
  required : Bool
  value : Option Value

namespace NativeArgument

/-- The constructor, on a list of pointers: an index past its end reads outside the vector. -/
def new (host : Host) (index : Nat) (type : ClassId) (required : Bool) (args : List (Option Value)) :
    Except Fault NativeArgument :=
  match args[index]? with
  | none => .error .undefined
  | some none =>
      if required then
        .ok { index, type, required
              value := some (.error 0 s!"arg #{index} to not be '()") }
      else .ok { index, type, required, value := none }
  | some (some v) =>
      if !v.type.isInstanceOf type then
        .ok { index, type, required
              value := some (.error 0
                (s!"arg #{index} `" ++ host.toString v ++ "` is expected to be an instance of: `" ++
                  type.name ++ "`")) }
      else .ok { index, type, required, value := some v }

def hasValue (a : NativeArgument) : Bool := a.value.isSome

def hasError (a : NativeArgument) : Bool :=
  (a.required && !a.hasValue) || (a.hasValue && a.value.any Value.isError)

variable {host : Host} {i : Nat} {T : ClassId} {required : Bool} {args : List Value} {v : Value}

theorem new_undefined (h : args.length ≤ i) :
    new host i T required (args.map some) = .error .undefined := by
  rw [new, List.getElem?_eq_none (by simpa using h)]

/-- An instance of the class is its own value; it is an error when it is an `Error`. -/
theorem new_instance (h : args[i]? = some v) (hT : v.type.isInstanceOf T = true) :
    ∃ a, new host i T required (args.map some) = .ok a ∧ a.hasValue = true ∧
      a.hasError = v.isError := by
  rw [new, List.getElem?_map, h]
  simp [hT, hasValue, hasError]

/-- Anything else is replaced by an `Error`. -/
theorem new_not_instance (h : args[i]? = some v) (hT : v.type.isInstanceOf T = false) :
    ∃ a, new host i T required (args.map some) = .ok a ∧ a.hasValue = true ∧
      a.hasError = true := by
  rw [new, List.getElem?_map, h]
  simp [hT, hasValue, hasError]

end NativeArgument

/-! ### The lists that calls produce -/

theorem taken_of_covers {ps : List Argument} {n : Nat} (h : Covers ps n) : taken ps n = n := by
  by_cases hv : ps.any Argument.vararg = true
  · rw [taken, if_pos hv, Int.toNat_natCast]
  · rw [taken, if_neg hv, Int.toNat_natCast]
    exact Nat.min_eq_left (h.resolve_left hv)

/-- The list a call produces: the arguments it takes from the stack, then nulls. -/
theorem takeArgs_list {ps : List Argument} {vs s args : List Value} {rt rt' : Runtime}
    (hs : rt.stack? = some (vs.reverse ++ s)) (h : takeArgs ps vs.length rt = .ok (args, rt')) :
    ∃ ws k, args = ws ++ List.replicate k .null ∧ ws.length = taken ps vs.length := by
  by_cases hcovers : Covers ps vs.length
  · have ho : ∀ p ∈ (declared ps).drop vs.length, p.optional = true := by
      intro p hp
      by_contra hopt
      have hreject := takeArgs_rejected hs ⟨p, hp, by simpa using hopt⟩
      cases hreject.symm.trans h
    have hargs := congrArg Prod.fst (Except.ok.inj ((takeArgs_covered hs hcovers ho).symm.trans h))
    exact ⟨vs, _, hargs.symm, (taken_of_covers hcovers).symm⟩
  · obtain ⟨hv, hlen⟩ := not_or.mp hcovers
    have hlt := Nat.lt_of_not_le hlen
    have htake := takeArgs_surplus hs hlt (by simpa using hv)
    have hargs := congrArg Prod.fst (Except.ok.inj (htake.symm.trans h))
    refine ⟨vs.drop (vs.length - ps.length), 0, hargs.symm.trans (by simp), ?_⟩
    rw [taken, if_neg hv, Int.toNat_natCast, List.length_drop, Nat.min_eq_right hlt.le,
      Nat.sub_sub_self hlt.le]

/-! ### Access -/

/-- What is wanted of the argument at `i`, on a list whose first `supplied` values are the caller's:
an error exactly when it is required and missing, or supplied and not an instance of `T`, and no
value when it is optional and missing. -/
def AccessCorrect (host : Host) (i : Nat) (T : ClassId) (required : Bool) (args : List Value)
    (supplied : Nat) : Prop :=
  ∃ a, NativeArgument.new host i T required (args.map some) = .ok a ∧
    (a.hasError = true ↔ required = true ∧ supplied ≤ i ∨
      i < supplied ∧ ∃ v, args[i]? = some v ∧ v.type.isInstanceOf T = false) ∧
    (required = false → supplied ≤ i → a.hasValue = false)

/-- **Native arguments.**  On a list that a call produces, an argument is read as it should be if and
only if it was supplied and is not an `Error` that is an instance of `T`, or it is required, was
padded with null and null is not an instance of `T`. -/
theorem accessCorrect_iff (host : Host) (i : Nat) (T : ClassId) (required : Bool)
    (ps : List Argument) (vs s args : List Value) (rt rt' : Runtime)
    (hs : rt.stack? = some (vs.reverse ++ s)) (h : takeArgs ps vs.length rt = .ok (args, rt')) :
    AccessCorrect host i T required args (taken ps vs.length) ↔
      (i < taken ps vs.length ∧
        ∀ v, args[i]? = some v → ¬ (v.isError = true ∧ v.type.isInstanceOf T = true)) ∨
      (taken ps vs.length ≤ i ∧ i < args.length ∧ required = true ∧
        Value.null.type.isInstanceOf T = false) := by
  obtain ⟨ws, k, rfl, hws⟩ := takeArgs_list hs h
  rw [← hws, AccessCorrect]
  by_cases hi : i < ws.length
  · have hv : (ws ++ List.replicate k Value.null)[i]? = some ws[i] := by
      rw [List.getElem?_append_left hi, List.getElem?_eq_getElem hi]
    simp only [hv, Option.some.injEq, exists_eq_left', forall_eq', hi, hi.not_ge, true_and, false_and,
      and_false, false_or, or_false, IsEmpty.forall_iff, implies_true, and_true]
    cases hT : ws[i].type.isInstanceOf T with
    | true =>
        obtain ⟨a, ha, -, herror⟩ := @NativeArgument.new_instance host i T required _ _ hv hT
        rw [ha]
        simp [herror]
    | false =>
        obtain ⟨a, ha, -, herror⟩ := @NativeArgument.new_not_instance host i T required _ _ hv hT
        rw [ha]
        simp [herror]
  · have hge := Nat.le_of_not_lt hi
    by_cases hk : i < (ws ++ List.replicate k Value.null).length
    · have hv : (ws ++ List.replicate k Value.null)[i]? = some .null := by
        rw [List.getElem?_append_right hge, List.getElem?_replicate, if_pos]
        rw [List.length_append, List.length_replicate] at hk
        omega
      simp only [hv, hi, hge, hk, false_and, true_and, and_true, false_or, or_false, forall_const]
      cases hT : Value.null.type.isInstanceOf T with
      | true =>
          obtain ⟨a, ha, hvalue, herror⟩ := @NativeArgument.new_instance host i T required _ _ hv hT
          rw [ha]
          cases required <;> simp [hvalue, herror]
      | false =>
          obtain ⟨a, ha, hvalue, herror⟩ := @NativeArgument.new_not_instance host i T required _ _ hv hT
          rw [ha]
          cases required <;> simp [hvalue, herror]
    · simp only [NativeArgument.new_undefined (Nat.le_of_not_lt hk), hi, hk]
      simp

namespace NativeArgument.Sample

/-- The parameters of `rx/subscribe`. -/
def subscribe : List Argument :=
  [{ name := "source" }, { name := "on_next" }, { name := "on_error", optional := true },
    { name := "on_complete", optional := true }]

/-- A source and a procedure. -/
def supplied : List Value := [.object .observable 0, .lambda 0]

end NativeArgument.Sample

open Arity.Sample NativeArgument.Sample in
theorem accessCorrect_onNext :
    AccessCorrect Host.bare 1 .procedure true (supplied ++ [.null, .null]) 2 :=
  (accessCorrect_iff Host.bare 1 .procedure true subscribe supplied []
    (supplied ++ [.null, .null]) (caller subscribe supplied) ((caller subscribe supplied).setStack [])
    rfl rfl).mpr (.inl ⟨by decide, by rintro v hv; cases hv; decide⟩)

open Arity.Sample NativeArgument.Sample in
/-- `(rx/subscribe source on_next)`: `on_error` is optional and missing, and reads as an error. -/
theorem not_accessCorrect_onError : ¬ ∀ (host : Host) (i : Nat) (T : ClassId) (required : Bool)
    (ps : List Argument) (vs s args : List Value) (rt rt' : Runtime),
    rt.stack? = some (vs.reverse ++ s) → takeArgs ps vs.length rt = .ok (args, rt') →
      AccessCorrect host i T required args (taken ps vs.length) := by
  intro h
  obtain ⟨a, ha, -, hnone⟩ := h Host.bare 2 .procedure false subscribe supplied []
    (supplied ++ [.null, .null]) (caller subscribe supplied) ((caller subscribe supplied).setStack [])
    rfl rfl
  cases ha
  exact absurd (hnone rfl (by decide)) (by decide)

end Gel
