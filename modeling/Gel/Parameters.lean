import Gel.Arity
import Gel.ScopeIndex

/-!
# Parameters — the scope of a lambda's call

`Call(Lambda*)` binds the lambda itself and then, walking the declared parameters backwards and the
arguments forwards, one variable for each parameter.

* `bindLambda_slots`: the variables of the scope it makes, in order.
* `parameters_bound_iff`: when each parameter is bound to its own argument.
-/

namespace Gel

namespace Scopes

variable {m : Scopes} {s : ScopeId} {name : String}

/-- The slots of a scope after a new variable of it is added: refused, or one more. -/
theorem addLocal_newLocal (hs : s < m.scopes.length) (hc : ∀ l ∈ m.localsOf s, l < m.locals.length)
    (v : Option Value) {m' : Scopes}
    (h : (m.newLocal s name v).2.addLocal s (m.newLocal s name v).1 = (true, m')) :
    m'.slots s = m.slots s ++ [{ name, index := .ofNat (m.numberOfLocals s), value := v }] ∧
      name ∉ (m.slots s).map LocalVariable.name ∧ s < m'.scopes.length ∧
      ∀ l ∈ m'.localsOf s, l < m'.locals.length := by
  set n := (m.newLocal s name v).2 with hn
  have hlocals : n.locals = m.locals ++
      [{ name, index := .ofNat (m.numberOfLocals s), value := v }] := rfl
  have hnew : n.locals[m.locals.length]? =
      some { name, index := .ofNat (m.numberOfLocals s), value := v } := by simp [hlocals]
  have hslots : n.slots s = m.slots s := by
    refine List.filterMap_congr fun l hl => ?_
    rw [hlocals, List.getElem?_append_left (hc l hl)]
  have hid : (m.newLocal s name v).1 = m.locals.length := rfl
  have hs' : s < n.scopes.length := hs
  rw [hid, addLocal, hnew] at h
  by_cases hhas : n.has s name = true
  · simp [hhas] at h
  · have hpush : n.push s m.locals.length = m' := by simpa [hhas] using h
    have hof : m'.localsOf s = m.localsOf s ++ [m.locals.length] := by
      rw [← hpush, localsOf_push hs', if_pos rfl]
      rfl
    have hlocals' : m'.locals = n.locals := by
      rw [← hpush]
      rfl
    refine ⟨?_, ?_, ?_, ?_⟩
    · rw [slots, hof, List.filterMap_append, hlocals', ← hslots]
      exact congrArg _ (List.filterMap_cons_some hnew)
    · rw [← hslots, ← has_iff]
      exact hhas
    · rw [← hpush]
      simpa [push] using hs'
    · intro l hl
      rw [hof] at hl
      rw [hlocals', hlocals, List.length_append, List.length_singleton]
      rcases List.mem_append.mp hl with hl | hl
      · exact (hc l hl).trans (Nat.lt_succ_self _)
      · rw [List.mem_singleton.mp hl]
        exact Nat.lt_succ_self _

end Scopes

open Gel.Runtime

/-- The variables of parameters, from a position on. -/
def bound : Nat → List Argument → List Value → List LocalVariable
  | i, p :: ps, v :: vs => { name := p.name, index := .ofNat i, value := some v } :: bound (i + 1) ps vs
  | _, _, _ => []

theorem bound_getElem? (i : Nat) (ps : List Argument) (vs : List Value) (j : Nat) :
    (bound i ps vs)[j]? = ps[j]?.bind fun p => vs[j]?.map fun v =>
      { name := p.name, index := .ofNat (i + j), value := some v } := by
  induction ps generalizing i vs j with
  | nil => simp [bound]
  | cons p ps ih =>
      cases vs with
      | nil => simp [bound]
      | cons v vs =>
          cases j with
          | zero => simp [bound]
          | succ j =>
              simp only [bound, List.getElem?_cons_succ, ih]
              rw [Nat.add_right_comm, Nat.add_assoc]

/-- The loop over the reversed parameters adds their variables to the scope. -/
theorem bindArgs_slots {s : ScopeId} {ps : List Argument} {vs : List Value} {m m' : Scopes}
    (hs : s < m.scopes.length) (hc : ∀ l ∈ m.localsOf s, l < m.locals.length)
    (hnames : ((m.slots s).map LocalVariable.name).Nodup) (h : bindArgs s ps vs m = .ok m') :
    m'.slots s = m.slots s ++ bound (m.numberOfLocals s) ps vs ∧
      ((m'.slots s).map LocalVariable.name).Nodup ∧ s < m'.scopes.length ∧
      ∀ l ∈ m'.localsOf s, l < m'.locals.length := by
  induction ps generalizing vs m with
  | nil =>
      cases h
      exact ⟨by simp [bound], hnames, hs, hc⟩
  | cons p ps ih =>
      cases vs with
      | nil => cases h
      | cons v vs =>
          rw [bindArgs] at h
          rcases hadd : (m.newLocal s p.name (some v)).2.addLocal s (m.newLocal s p.name (some v)).1
            with ⟨ok, n⟩
          simp only [hadd] at h
          cases ok with
          | false => cases h
          | true =>
              obtain ⟨hslots, hfresh, hs', hc'⟩ := Scopes.addLocal_newLocal hs hc (some v) hadd
              have hlen : n.numberOfLocals s = m.numberOfLocals s + 1 := by
                rw [← Scopes.slots_length hc', hslots, List.length_append, Scopes.slots_length hc]
                rfl
              have hnames' : ((n.slots s).map LocalVariable.name).Nodup := by
                rw [hslots, List.map_append]
                exact List.Nodup.append hnames (List.nodup_singleton _) (by simpa using hfresh)
              obtain ⟨hall, hrest⟩ := ih hs' hc' hnames' h
              refine ⟨?_, hrest⟩
              rw [hall, hslots, hlen, List.append_assoc]
              rfl

/-- A variable holds a value by its name, in the slot a lookup finds, and in the slot of its index. -/
structure BoundTo (m : Scopes) (locals : ScopeId) (name : String) (v : Value) : Prop where
  byName : ∃ l, m.lookup locals name = some l ∧ m.valueOf l = some v
  bySlot : ∃ l x k, m.lookup locals name = some l ∧ m.locals[l]? = some x ∧
    m.getLocalAt locals x.index.toNat = some k ∧ m.valueOf k = some v

/-- The scope of a call: the lambda, then the parameters, the last one first. -/
theorem bindLambda_slots {id : Nat} {f : Lambda} {args : List Value} {rt rt' : Runtime}
    {locals : ScopeId} (h : bindLambda id f args rt = .ok (locals, rt')) :
    let m := rt'.memory.scopes
    (∃ name, m.slots locals =
      { name, index := 0, value := some (.lambda id) } :: bound 1 f.args.reverse args) ∧
      ((m.slots locals).map LocalVariable.name).Nodup ∧ locals < m.scopes.length ∧
      ∀ l ∈ m.localsOf locals, l < m.locals.length := by
  rw [bindLambda] at h
  set s := rt.memory.scopes.scopes.length with hs
  set n := (rt.memory.scopes.newScope rt.scope).2 with hn
  set name := (f.symbol.map Symbol.fullyQualifiedName).getD "$"
  have hlt : s < n.scopes.length := by simp [hn, hs, Scopes.newScope]
  have hempty : n.localsOf s = [] := by
    rw [hn, Scopes.localsOf_newScope, Scopes.localsOf, List.getElem?_eq_none le_rfl]
    rfl
  have hslots : n.slots s = [] := by rw [Scopes.slots, hempty, List.filterMap_nil]
  have hpush : rt.pushScope = (s, { rt with scope := some s, memory := { rt.memory with scopes := n } }) :=
    rfl
  clear_value s n name
  rcases hadd : (n.newLocal s name (some (.lambda id))).2.addLocal s
    (n.newLocal s name (some (.lambda id))).1 with ⟨ok, k⟩
  simp only [hpush, hadd] at h
  cases ok with
  | false => cases h
  | true =>
      obtain ⟨m, hargs, heq⟩ := Faulting.result_bind_eq_ok.mp h
      cases heq
      obtain ⟨hself, -, hs', hc'⟩ := Scopes.addLocal_newLocal hlt
        (by simp [hempty]) (some (.lambda id)) hadd
      rw [hslots, Scopes.numberOfLocals, hempty] at hself
      have hlen : k.numberOfLocals locals = 1 := by rw [← Scopes.slots_length hc', hself]; rfl
      obtain ⟨hall, hrest⟩ := bindArgs_slots hs' hc' (by rw [hself]; exact List.nodup_singleton _) hargs
      rw [hself, hlen] at hall
      exact ⟨⟨name, hall⟩, hrest⟩

/-- What a parameter is bound to: the arguments are taken in the other order. -/
theorem boundTo_iff {id : Nat} {f : Lambda} {args : List Value} {rt rt' : Runtime} {locals : ScopeId}
    (hn : args.length = f.args.length) (hfits : f.args.length + 1 < 2 ^ 64)
    (h : bindLambda id f args rt = .ok (locals, rt')) {k : Nat} {p : Argument}
    (hp : f.args[k]? = some p) (v : Value) :
    BoundTo rt'.memory.scopes locals p.name v ↔ args.reverse[k]? = some v := by
  obtain ⟨⟨name, hslots⟩, hnames, hlocals, hc⟩ := bindLambda_slots h
  generalize rt'.memory.scopes = m at *
  have hk : k < f.args.length := (List.getElem?_eq_some_iff.mp hp).1
  set j := f.args.length - 1 - k with hj
  have hjlt : j < args.length := by omega
  have hrev : args.reverse[k]? = some args[j] := by
    rw [List.getElem?_reverse (by omega), hn, ← hj, List.getElem?_eq_getElem hjlt]
  -- the parameter's variable is at position `j + 1`
  have hparam : f.args.reverse[j]? = some p := by
    rw [List.getElem?_reverse (by omega), show f.args.length - 1 - j = k by omega, hp]
  have hslot : (m.slots locals)[j + 1]? =
      some { name := p.name, index := .ofNat (1 + j), value := some args[j] } := by
    rw [hslots, List.getElem?_cons_succ, bound_getElem?, hparam, List.getElem?_eq_getElem hjlt]
    rfl
  obtain ⟨l, hl, hx⟩ : ∃ l, m.getLocalAt locals (j + 1) = some l ∧ m.locals[l]? =
      some { name := p.name, index := .ofNat (1 + j), value := some args[j] } := by
    rw [Scopes.slots_getElem? hc] at hslot
    exact Option.bind_eq_some_iff.mp hslot
  have hlookup : m.lookup locals p.name = some l := by
    have hhere := Scopes.lookupHere_of_nodup hc hnames hl hx
    obtain ⟨c, hc⟩ := Nat.exists_eq_add_of_lt hlocals
    rw [Scopes.lookup, hc, Scopes.lookupWithin, hhere]
  have hvalue : m.valueOf l = some args[j] := by rw [Scopes.valueOf, hx]; rfl
  have hindex : (UInt64.ofNat (1 + j)).toNat = j + 1 := by
    rw [UInt64.toNat_ofNat_of_lt', Nat.add_comm]
    exact (by omega : 1 + j < 2 ^ 64)
  rw [hrev, Option.some.injEq]
  constructor
  · rintro ⟨⟨l', hl', hv⟩, -⟩
    cases hlookup.symm.trans hl'
    exact Option.some.inj (hvalue.symm.trans hv)
  · rintro rfl
    exact ⟨⟨l, hlookup, hvalue⟩, l, _, l, hlookup, hx, by rw [hindex]; exact hl, hvalue⟩

namespace Parameters.Sample

/-- `(fn [a b] …)`. -/
def twoParameters : Lambda where
  args := [{ name := "a" }, { name := "b" }]

/-- The state `Call` has made when the parameters of `(fn [a b] …)` are bound. -/
def entered (args : List Value) : Runtime :=
  match bindLambda 0 twoParameters args (Arity.Sample.caller [] []) with
  | .ok r => r.2
  | .error _ => Arity.Sample.caller [] []

end Parameters.Sample

end Gel
