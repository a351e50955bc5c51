import Gel.Balance
import Mathlib.Data.List.TakeWhile

/-!
# Arity — the arguments of a call and the parameters they meet

`CallWithNArgs` walks the declared parameters and takes one value for each from the caller's stack,
all that are left at a vararg, and null for an optional parameter without one.

* `call_collects`: a well formed signature and an admissible count meet.
* `arityEnforced_iff`: which calls are rejected or pass on every argument.
-/

namespace Gel

open Gel.Runtime

/-! ### The walk over the parameters -/

section Walk

variable {p : Argument} {ps qs : List Argument} {v : Value} {t s args : List Value} {k : Int}

theorem collectArgs_vararg (hp : p.vararg = true) :
    collectArgs (p :: ps) k args s =
      if k.toNat ≤ s.length then .ok ((s.take k.toNat).reverse ++ args, min k 0, s.drop k.toNat)
      else .error .undefined := by
  conv_lhs => unfold collectArgs
  rw [if_pos hp]

theorem collectArgs_value (hp : p.vararg = false) (hk : 0 < k) :
    collectArgs (p :: ps) k args (v :: s) = collectArgs ps (k - 1) (v :: args) s := by
  conv_lhs => unfold collectArgs
  rw [if_neg (by simp [hp]), if_pos hk]

theorem collectArgs_null (hp : p.vararg = false) (hk : k ≤ 0) :
    collectArgs (p :: ps) k args s =
      if p.optional then collectArgs ps (k - 1) args s else .error .fatal := by
  conv_lhs => unfold collectArgs
  rw [if_neg (by simp [hp]), if_neg hk.not_gt]

/-- Parameters that each find an argument take the top of the stack. -/
theorem collectArgs_takes (hps : ∀ p ∈ ps, p.vararg = false) (ht : t.length = ps.length)
    (hk : (ps.length : Int) ≤ k) :
    collectArgs (ps ++ qs) k args (t ++ s) =
      collectArgs qs (k - ps.length) (t.reverse ++ args) s := by
  induction ps generalizing t k args with
  | nil =>
      rw [List.length_eq_zero_iff.mp ht]
      simp
  | cons p ps ih =>
      rcases t with _ | ⟨v, t⟩
      · cases ht
      · simp only [List.length_cons, Nat.cast_add, Nat.cast_one] at ht hk ⊢
        rw [List.cons_append, List.cons_append, collectArgs_value (hps p (.head _)) (by omega),
          ih (fun q hq => hps q (.tail _ hq)) (Nat.succ.inj ht) (by omega)]
        simp only [List.reverse_cons, List.append_assoc, List.singleton_append]
        congr 1
        omega

/-- Optional parameters without an argument leave the stack alone. -/
theorem collectArgs_skips (hps : ∀ p ∈ ps, p.vararg = false) (ho : ∀ p ∈ ps, p.optional = true)
    (hk : k ≤ 0) :
    collectArgs (ps ++ qs) k args s = collectArgs qs (k - ps.length) args s := by
  induction ps generalizing k with
  | nil => simp
  | cons p ps ih =>
      rw [List.cons_append, collectArgs_null (hps p (.head _)) hk, if_pos (ho p (.head _)),
        ih (fun q hq => hps q (.tail _ hq)) (fun q hq => ho q (.tail _ hq)) (by omega)]
      congr 1
      simp only [List.length_cons, Nat.cast_add, Nat.cast_one]
      omega

/-- A parameter without an argument that is not optional ends the process. -/
theorem collectArgs_rejects (hps : ∀ p ∈ ps, p.vararg = false) (ho : ∃ p ∈ ps, p.optional = false)
    (hk : k ≤ 0) : collectArgs (ps ++ qs) k args s = .error .fatal := by
  induction ps generalizing k with
  | nil => simp at ho
  | cons p ps ih =>
      rw [List.cons_append, collectArgs_null (hps p (.head _)) hk]
      by_cases hp : p.optional
      · rw [if_pos hp]
        refine ih (fun q hq => hps q (.tail _ hq)) ?_ (by omega)
        rcases ho with ⟨q, hq, hopt⟩
        rcases List.mem_cons.mp hq with rfl | hq
        · simp [hp] at hopt
        · exact ⟨q, hq, hopt⟩
      · rw [if_neg hp]

/-- The parameters before the first vararg: what the walk looks at one by one. -/
def declared (ps : List Argument) : List Argument := ps.takeWhile fun p => !p.vararg

theorem declared_vararg {p : Argument} (hp : p ∈ declared ps) : p.vararg = false := by
  simpa using List.mem_takeWhile_imp hp

/-- Past the declared parameters there is nothing, or a vararg. -/
theorem declared_rest (ps : List Argument) :
    ∃ rest, ps = declared ps ++ rest ∧ (rest = [] ∧ ps.any Argument.vararg = false ∨
      ∃ p tail, rest = p :: tail ∧ p.vararg = true) := by
  refine ⟨ps.dropWhile fun p => !p.vararg, List.takeWhile_append_dropWhile.symm, ?_⟩
  have hhead := List.head?_dropWhile_not (fun p : Argument => !p.vararg) ps
  cases hrest : ps.dropWhile fun p => !p.vararg with
  | nil =>
      left
      exact ⟨rfl, by simpa [List.dropWhile_eq_nil_iff] using hrest⟩
  | cons p tail =>
      right
      rw [hrest] at hhead
      exact ⟨p, tail, rfl, by simpa using hhead⟩

/-- The walk ends where the declared parameters do when no argument is left. -/
theorem collectArgs_rest {rest : List Argument} (hk : k ≤ 0)
    (h : rest = [] ∨ ∃ p tail, rest = p :: tail ∧ p.vararg = true) :
    collectArgs rest k args s = .ok (args, k, s) := by
  rcases h with rfl | ⟨p, tail, rfl, hp⟩
  · rw [collectArgs]
  · rw [collectArgs_vararg hp, Int.toNat_of_nonpos hk, min_eq_left hk]
    simp

end Walk

/-! ### What a call takes and passes on -/

section Takes

variable {ps : List Argument} {vs s : List Value} {rt : Runtime}

theorem takeArgs_eq {n : Nat} (hs : rt.stack? = some s) : takeArgs ps n rt =
    (collectArgs ps n [] s).map fun (args, k, s) =>
      (args ++ List.replicate (-k).toNat .null, rt.setStack s) := by
  rw [takeArgs, hs]
  dsimp only
  cases collectArgs ps n [] s with
  | error e => rfl
  | ok r => rfl

/-- The parameters that no argument meets are optional: each gets null. -/
theorem takeArgs_padded (hs : rt.stack? = some (vs.reverse ++ s))
    (hlen : vs.length ≤ (declared ps).length)
    (ho : ∀ p ∈ (declared ps).drop vs.length, p.optional = true) :
    takeArgs ps vs.length rt =
      .ok (vs ++ List.replicate ((declared ps).length - vs.length) .null, rt.setStack s) := by
  obtain ⟨rest, hps, hrest⟩ := declared_rest ps
  have hwalk : collectArgs ps vs.length [] (vs.reverse ++ s) =
      .ok (vs, vs.length - (declared ps).length, s) := by
    conv_lhs => rw [hps, ← List.take_append_drop vs.length (declared ps), List.append_assoc]
    have htake : ((declared ps).take vs.length).length = vs.length := by simpa using hlen
    rw [collectArgs_takes (fun p hp => declared_vararg (List.mem_of_mem_take hp))
        (by rw [htake, List.length_reverse]) (by rw [htake]),
      collectArgs_skips (fun p hp => declared_vararg (List.mem_of_mem_drop hp)) ho (by simp [htake]),
      collectArgs_rest (by simp [htake]) (hrest.imp And.left id)]
    simp [htake, hlen]
  rw [takeArgs_eq hs, hwalk]
  simp only [Except.map, neg_sub]
  congr
  omega

/-- A required parameter that no argument meets ends the process. -/
theorem takeArgs_rejected (hs : rt.stack? = some (vs.reverse ++ s))
    (ho : ∃ p ∈ (declared ps).drop vs.length, p.optional = false) :
    takeArgs ps vs.length rt = .error .fatal := by
  obtain ⟨rest, hps, -⟩ := declared_rest ps
  obtain ⟨p, hp, hopt⟩ := ho
  have hlen : vs.length ≤ (declared ps).length := by
    by_contra hlt
    rw [List.drop_eq_nil_of_le (by omega)] at hp
    cases hp
  have hwalk : collectArgs ps vs.length [] (vs.reverse ++ s) = .error .fatal := by
    conv_lhs => rw [hps, ← List.take_append_drop vs.length (declared ps), List.append_assoc]
    have htake : ((declared ps).take vs.length).length = vs.length := by simpa using hlen
    rw [collectArgs_takes (fun p hp => declared_vararg (List.mem_of_mem_take hp))
        (by rw [htake, List.length_reverse]) (by rw [htake])]
    exact collectArgs_rejects (fun p hp => declared_vararg (List.mem_of_mem_drop hp)) ⟨p, hp, hopt⟩
      (by simp [htake])
  rw [takeArgs_eq hs, hwalk, Except.map]

/-- A vararg takes every argument that is left. -/
theorem takeArgs_vararg (hs : rt.stack? = some (vs.reverse ++ s))
    (hlen : (declared ps).length ≤ vs.length) (hv : ps.any Argument.vararg = true) :
    takeArgs ps vs.length rt = .ok (vs, rt.setStack s) := by
  obtain ⟨rest, hps, ⟨-, hnone⟩ | ⟨p, tail, rfl, hp⟩⟩ := declared_rest ps
  · rw [hnone] at hv
    cases hv
  set d := (declared ps).length
  have hsplit : vs.reverse ++ s = vs.reverse.take d ++ (vs.reverse.drop d ++ s) := by
    rw [← List.append_assoc, List.take_append_drop]
  have hwalk : collectArgs ps vs.length [] (vs.reverse ++ s) = .ok (vs, 0, s) := by
    conv_lhs => rw [hps, hsplit]
    rw [collectArgs_takes (fun p hp => declared_vararg hp) (by simp [d, hlen]) (by simpa using hlen),
      collectArgs_vararg hp]
    have hleft : ((vs.length : Int) - (declared ps).length).toNat = (vs.reverse.drop d).length := by
      simp [d]
    have hwhole : (vs.reverse.drop d).reverse ++ ((vs.reverse.take d).reverse ++ []) = vs := by
      rw [List.append_nil, ← List.reverse_append, List.take_append_drop, List.reverse_reverse]
    rw [hleft, if_pos (by simp), List.take_left, List.drop_left, hwhole]
    simp [d, hlen]
  rw [takeArgs_eq hs, hwalk]
  simp [Except.map]

/-- Without a vararg, the arguments past the last parameter stay on the stack: the first ones, since
the last ones are on top. -/
theorem takeArgs_surplus (hs : rt.stack? = some (vs.reverse ++ s)) (hlen : ps.length < vs.length)
    (hv : ps.any Argument.vararg = false) :
    takeArgs ps vs.length rt = .ok (vs.drop (vs.length - ps.length),
      rt.setStack ((vs.take (vs.length - ps.length)).reverse ++ s)) := by
  have hall : ∀ p ∈ ps, p.vararg = false := by simpa using hv
  have hsplit : vs.reverse ++ s = vs.reverse.take ps.length ++ (vs.reverse.drop ps.length ++ s) := by
    rw [← List.append_assoc, List.take_append_drop]
  have hwalk : collectArgs ps vs.length [] (vs.reverse ++ s) =
      .ok (vs.drop (vs.length - ps.length), vs.length - ps.length,
        (vs.take (vs.length - ps.length)).reverse ++ s) := by
    conv_lhs => rw [← List.append_nil ps, hsplit]
    rw [collectArgs_takes hall (by simp [hlen.le]) (by simpa using hlen.le), collectArgs,
      List.take_reverse, List.drop_reverse, List.reverse_reverse, List.append_nil]
  rw [takeArgs_eq hs, hwalk]
  simp [Except.map, Nat.sub_eq_zero_of_le hlen.le]

end Takes

/-! ### Signatures -/

/-- The parameters of a procedure: required ones, optional ones, and at most one vararg. -/
structure Signature where
  required : List Argument
  optional : List Argument
  rest : Option Argument
  required_plain : ∀ p ∈ required, p.vararg = false ∧ p.optional = false
  optional_plain : ∀ p ∈ optional, p.vararg = false ∧ p.optional = true
  rest_vararg : ∀ p ∈ rest, p.vararg = true

namespace Signature

def params (σ : Signature) : List Argument := σ.required ++ σ.optional ++ σ.rest.toList

/-- The counts of arguments the signature allows. -/
def Admits (σ : Signature) (n : Nat) : Prop :=
  σ.required.length ≤ n ∧ (σ.rest = none → n ≤ σ.params.length)

theorem declared_params (σ : Signature) : declared σ.params = σ.required ++ σ.optional := by
  have hall : ∀ p ∈ σ.required ++ σ.optional, (!p.vararg) = true := by
    intro p hp
    rcases List.mem_append.mp hp with hp | hp
    · simp [(σ.required_plain p hp).1]
    · simp [(σ.optional_plain p hp).1]
  rw [declared, params, List.takeWhile_append_of_pos hall]
  cases hrest : σ.rest with
  | none => simp
  | some p => simp [σ.rest_vararg p hrest]

end Signature

/-- **Argument collection.**  With required parameters first, then optional ones, then at most one
vararg, and an admissible number of arguments on top of the caller's stack in source order, a
procedure is called with the arguments in source order and null for each optional parameter that is
missing, on the stack without them. -/
theorem call_collects (σ : Signature) (call : Value → List Value → Runtime → Except Fault Runtime)
    (f : Value) (vs s : List Value) (rt : Runtime) (hs : rt.stack? = some (vs.reverse ++ s))
    (hn : σ.Admits vs.length) :
    callWithNArgs call σ.params f vs.length rt =
      call f (vs ++ List.replicate (σ.required.length + σ.optional.length - vs.length) .null)
        (rt.setStack s) := by
  have hlength : (declared σ.params).length = σ.required.length + σ.optional.length := by
    rw [σ.declared_params, List.length_append]
  rw [callWithNArgs_eq]
  by_cases hlen : vs.length ≤ (declared σ.params).length
  · have ho : ∀ p ∈ (declared σ.params).drop vs.length, p.optional = true := by
      rw [σ.declared_params, List.drop_append, List.drop_eq_nil_of_le hn.1, List.nil_append]
      exact fun p hp => (σ.optional_plain p (List.mem_of_mem_drop hp)).2
    rw [takeArgs_padded hs hlen ho, hlength]
    rfl
  · rw [hlength] at hlen
    have hlt := Nat.lt_of_not_le hlen
    have hv : σ.params.any Argument.vararg = true := by
      cases hrest : σ.rest with
      | none =>
          have hle := hn.2 hrest
          simp only [Signature.params, hrest, Option.toList_none, List.append_nil,
            List.length_append] at hle
          exact absurd hle hlen
      | some p => simp [Signature.params, hrest, σ.rest_vararg p hrest]
    rw [takeArgs_vararg hs (by rw [hlength]; exact hlt.le) hv, Nat.sub_eq_zero_of_le hlt.le,
      List.replicate_zero, List.append_nil]
    rfl

namespace Arity.Sample

/-- `(a b? c...)`. -/
def signature : Signature where
  required := [{ name := "a" }]
  optional := [{ name := "b", optional := true }]
  rest := some { name := "c", vararg := true }
  required_plain := by simp
  optional_plain := by simp
  rest_vararg := by simp

/-- A caller whose stack holds some values, the last one on top, and a lambda. -/
def caller (params : List Argument) (vs : List Value) : Runtime where
  memory := { lambdas := [{ args := params }] }
  frames := [{ locals := 0, returnAddress := none, stack := vs.reverse }]

end Arity.Sample

open Arity.Sample in
theorem call_collects_sample :
    callWithNArgs (fun _ args _ => .error (.thrown (if args = [.long 1, .null] then "padded" else "")))
      signature.params (.lambda 0) 1 (caller signature.params [.long 1]) =
      .error (.thrown "padded") :=
  call_collects signature _ (.lambda 0) [.long 1] [] (caller signature.params [.long 1]) rfl
    ⟨le_rfl, fun h => nomatch h⟩

/-! ### Arity -/

/-- What is wanted of a call of `f` with the arguments `vs` on top of the caller's stack `s`: the
call is rejected, or every argument is passed on and taken from the stack, and a lambda gets one
value for each of its parameters. -/
def ArityEnforced (host : Host) (f : Value) (vs s : List Value) (rt : Runtime) : Prop :=
  takeArgs (paramsOf host rt.memory f) vs.length rt = .error .fatal ∨
    ∃ args, takeArgs (paramsOf host rt.memory f) vs.length rt = .ok (args, rt.setStack s) ∧
      vs.Sublist args ∧ (f.isLambda = true → args.length = (paramsOf host rt.memory f).length)

/-- An argument list of `n` values that the walk over the parameters treats as it should: a required
parameter before the first vararg is missing, or every argument belongs to a parameter, and a vararg
of a lambda is one parameter with one value. -/
def FitsArity (ps : List Argument) (lambda : Bool) (n : Nat) : Prop :=
  (∃ p ∈ (declared ps).drop n, p.optional = false) ∨
    Covers ps n ∧ (ps.any Argument.vararg = true → lambda = true → n = ps.length)

theorem declared_eq_self {ps : List Argument} (hv : ps.any Argument.vararg = false) :
    declared ps = ps := by
  rw [declared, List.takeWhile_eq_self_iff]
  simpa using hv

theorem declared_length_lt {ps : List Argument} (hv : ps.any Argument.vararg = true) :
    (declared ps).length < ps.length := by
  obtain ⟨rest, hps, ⟨-, hnone⟩ | ⟨p, tail, rfl, -⟩⟩ := declared_rest ps
  · rw [hnone] at hv
    cases hv
  · conv_rhs => rw [hps]
    simp

/-- A call whose arguments all belong to a parameter passes them on, with null for each declared
parameter that has none. -/
theorem takeArgs_covered {ps : List Argument} {vs s : List Value} {rt : Runtime}
    (hs : rt.stack? = some (vs.reverse ++ s)) (hcovers : Covers ps vs.length)
    (ho : ∀ p ∈ (declared ps).drop vs.length, p.optional = true) :
    takeArgs ps vs.length rt =
      .ok (vs ++ List.replicate ((declared ps).length - vs.length) .null, rt.setStack s) := by
  by_cases hlen : vs.length ≤ (declared ps).length
  · exact takeArgs_padded hs hlen ho
  · have hlt := Nat.lt_of_not_le hlen
    by_cases hv : ps.any Argument.vararg = true
    · rw [takeArgs_vararg hs hlt.le hv, Nat.sub_eq_zero_of_le hlt.le]
      simp
    · rw [declared_eq_self (by simpa using hv)] at hlen
      exact absurd (hcovers.resolve_left hv) hlen

/-- **Arity.**  A call is rejected, or passes on every argument and gives a lambda one value for each
of its parameters, if and only if a required parameter is missing, or every argument belongs to a
parameter and a vararg of a lambda meets exactly one argument. -/
theorem arityEnforced_iff (host : Host) (f : Value) (vs s : List Value) (rt : Runtime)
    (hs : rt.stack? = some (vs.reverse ++ s)) :
    ArityEnforced host f vs s rt ↔
      FitsArity (paramsOf host rt.memory f) f.isLambda vs.length := by
  rw [ArityEnforced, FitsArity]
  generalize paramsOf host rt.memory f = ps
  by_cases hreq : ∃ p ∈ (declared ps).drop vs.length, p.optional = false
  · exact ⟨fun _ => .inl hreq, fun _ => .inl (takeArgs_rejected hs hreq)⟩
  have ho : ∀ p ∈ (declared ps).drop vs.length, p.optional = true := by simpa using hreq
  by_cases hcovers : Covers ps vs.length
  · have htake := takeArgs_covered hs hcovers ho
    have hsub : vs.Sublist (vs ++ List.replicate ((declared ps).length - vs.length) .null) :=
      List.sublist_append_left ..
    have hlength : (vs ++ List.replicate ((declared ps).length - vs.length) Value.null).length =
        max vs.length (declared ps).length := by
      simp only [List.length_append, List.length_replicate]
      omega
    by_cases hv : ps.any Argument.vararg = true
    · -- a vararg has no null: as many values as parameters means an argument for the vararg
      have hlt := declared_length_lt hv
      constructor
      · rintro (herror | ⟨args, hok, -, hlambda⟩)
        · cases htake.symm.trans herror
        · cases htake.symm.trans hok
          refine .inr ⟨hcovers, fun _ hf => ?_⟩
          have hall := hlength.symm.trans (hlambda hf)
          omega
      · rintro (hmissing | ⟨-, hone⟩)
        · exact absurd hmissing hreq
        · refine .inr ⟨_, htake, hsub, fun hf => ?_⟩
          rw [hlength, hone hv hf]
          omega
    · -- without a vararg every parameter is declared
      refine ⟨fun _ => .inr ⟨hcovers, fun h => absurd h hv⟩, fun _ => .inr ⟨_, htake, hsub, ?_⟩⟩
      intro _
      rw [hlength, declared_eq_self (by simpa using hv)]
      exact max_eq_right (hcovers.resolve_left hv)
  · -- the surplus stays on the stack
    obtain ⟨hv, hlen⟩ := not_or.mp hcovers
    have htake := takeArgs_surplus hs (Nat.lt_of_not_le hlen) (by simpa using hv)
    constructor
    · rintro (herror | ⟨args, hok, hsub, -⟩)
      · cases htake.symm.trans herror
      · have hargs : vs.drop (vs.length - ps.length) = args :=
          congrArg Prod.fst (Except.ok.inj (htake.symm.trans hok))
        have hle := hsub.length_le
        rw [← hargs, List.length_drop] at hle
        omega
    · rintro (hmissing | ⟨hall, -⟩)
      · exact absurd hmissing hreq
      · exact absurd hall hcovers

open Arity.Sample in
theorem arityEnforced_sample :
    ArityEnforced Host.bare (.lambda 0) [.long 1] [] (caller [{ name := "x" }] [.long 1]) :=
  (arityEnforced_iff Host.bare (.lambda 0) [.long 1] [] (caller [{ name := "x" }] [.long 1]) rfl).mpr
    (.inr ⟨.inr le_rfl, fun h => nomatch h⟩)

open Arity.Sample in
/-- `(f 1 2)` with `f` of one parameter: the value 1 stays on the stack and `f` runs with 2. -/
theorem not_arityEnforced_surplus : ¬ ∀ (host : Host) (f : Value) (vs s : List Value) (rt : Runtime),
    f.isProcedure = true → rt.stack? = some (vs.reverse ++ s) → ArityEnforced host f vs s rt := by
  intro h
  rcases h Host.bare (.lambda 0) [.long 1, .long 2] []
      (caller [{ name := "x" }] [.long 1, .long 2]) rfl rfl with herror | ⟨args, hok, -⟩
  · cases herror
  · cases hok

end Gel
