import Gel.Substitution
import Mathlib.Algebra.Order.BigOperators.Group.List
import Mathlib.Algebra.Order.Group.Nat
import Mathlib.Algebra.Ring.Nat

/-!
# Termination — the loop over a body comes to an end

A macro `Calls` another one by a call anywhere in its body, and the expander `Sees` the calls that
are operands, arguments, actions or the value of a `set!`.  Where the calls are acyclic and the
visits write to no macro (`Sound`), the loop of `ExpandAllInScript` and `ExpandAllInLambda` ends
(`expandAllIn_ends`): every pass that changes an expression makes its `weight` smaller, which counts
the macro calls that are still to come.  `Placement` says what else may be asked of the expressions.
-/

namespace Gel

open MacroExpander

namespace Expr

mutual

/-- The expression has a call, at any depth, whose target resolves to this macro. -/
def Calls (x : MacroExpander) (m : MacroId) : Expr → Prop
  | callProc t args => x.macroOf t = some m ∨ t.Calls x m ∨ AnyCalls x m args
  | literal _ | quoted _ | .import | loadInstanceMethod .. => False
  | unary _ e | localDef _ e | setLocal _ e | loadField e _ | binding _ e | .throw e
  | instanceOf _ e | cast _ e => e.Calls x m
  | binaryOp _ a b | setField _ a b => a.Calls x m ∨ b.Calls x m
  | begin es | list es | new _ es => AnyCalls x m es
  | .while t es | when t es => t.Calls x m ∨ AnyCalls x m es
  | cond cs none => AnyClauseCalls x m cs
  | cond cs (some e) => AnyClauseCalls x m cs ∨ e.Calls x m
  | case k cs => k.Calls x m ∨ AnyClauseCalls x m cs
  | .let bs es => AnyCalls x m bs ∨ AnyCalls x m es
  | letRx e ops => e.Calls x m ∨ AnyOpCalls x m ops
  | newMap es => AnyEntryCalls x m es

def AnyCalls (x : MacroExpander) (m : MacroId) : List Expr → Prop
  | [] => False
  | e :: es => e.Calls x m ∨ AnyCalls x m es

def AnyClauseCalls (x : MacroExpander) (m : MacroId) : List Clause → Prop
  | [] => False
  | .mk k as :: cs => (k.Calls x m ∨ AnyCalls x m as) ∨ AnyClauseCalls x m cs

def AnyOpCalls (x : MacroExpander) (m : MacroId) : List RxOp → Prop
  | [] => False
  | .mk _ args :: ops => AnyCalls x m args ∨ AnyOpCalls x m ops

def AnyEntryCalls (x : MacroExpander) (m : MacroId) : List Entry → Prop
  | [] => False
  | .mk _ e :: es => e.Calls x m ∨ AnyEntryCalls x m es

end

mutual

/-- The expression has such a call in a place where the expander looks. -/
def Sees (x : MacroExpander) (m : MacroId) : Expr → Prop
  | binaryOp _ l r => l.Sees x m ∨ r.Sees x m
  | callProc t args => x.macroOf t = some m ∨ AnySees x m args
  | setLocal _ e => e.Sees x m
  | when t as => t.Sees x m ∨ AnySees x m as
  | _ => False

def AnySees (x : MacroExpander) (m : MacroId) : List Expr → Prop
  | [] => False
  | e :: es => e.Sees x m ∨ AnySees x m es

end


mutual

/-- None of these names stands in a place where the expander looks. -/
def Avoids (ps : List String) : Expr → Prop
  | literal (.symbol s) => s.fullyQualifiedName ∉ ps
  | binaryOp _ l r => l.Avoids ps ∧ r.Avoids ps
  | callProc _ args => AllAvoid ps args
  | setLocal _ e => e.Avoids ps
  | when t as => t.Avoids ps ∧ AllAvoid ps as
  | _ => True

def AllAvoid (ps : List String) : List Expr → Prop
  | [] => True
  | e :: es => e.Avoids ps ∧ AllAvoid ps es

end
section Calls

variable {x : MacroExpander} {m : MacroId}

theorem anySees_iff {es : List Expr} : AnySees x m es ↔ ∃ e ∈ es, e.Sees x m := by
  induction es with
  | nil => simp [AnySees]
  | cons e es ih => simp [AnySees, ih]

mutual

theorem Sees.calls : ∀ {e : Expr}, e.Sees x m → e.Calls x m
  | .binaryOp .., h => h.imp Sees.calls Sees.calls
  | .callProc .., h => h.imp id fun h => .inr (AnySees.anyCalls h)
  | .setLocal _ e, h => Sees.calls (e := e) h
  | .when .., h => h.imp Sees.calls AnySees.anyCalls

theorem AnySees.anyCalls : ∀ {es : List Expr}, AnySees x m es → AnyCalls x m es
  | _ :: _, h => h.imp Sees.calls AnySees.anyCalls

end

end Calls

end Expr

namespace MacroExpander

/-- The macros that some expressions use, by way of other macros too. -/
inductive Uses (macros : List Macro) (x : MacroExpander) (es : List Expr) : MacroId → Prop where
  | here {e : Expr} {m : MacroId} (he : e ∈ es) (h : e.Calls x m) : Uses macros x es m
  | there {m m' : MacroId} {called : Macro} {e : Expr} (hm : Uses macros x es m)
      (hc : macros[m]? = some called) (he : e ∈ called.body) (h : e.Calls x m') :
      Uses macros x es m'

/-- The macros that the expander meets. -/
inductive Meets (macros : List Macro) (x : MacroExpander) (es : List Expr) : MacroId → Prop where
  | here {e : Expr} {m : MacroId} (he : e ∈ es) (h : e.Sees x m) : Meets macros x es m
  | there {m m' : MacroId} {called : Macro} {e : Expr} (hm : Meets macros x es m)
      (hc : macros[m]? = some called) (he : e ∈ called.body) (h : e.Sees x m') :
      Meets macros x es m'

theorem Meets.uses {macros : List Macro} {x : MacroExpander} {es : List Expr} {m : MacroId}
    (h : Meets macros x es m) : Uses macros x es m := by
  induction h with
  | here he h => exact .here he h.calls
  | there _ hc he h ih => exact .there ih hc he h.calls

/-- No macro that the body uses uses itself. -/
def Acyclic (macros : List Macro) (x : MacroExpander) (es : List Expr) : Prop :=
  ∃ rank : MacroId → Nat, ∀ {m m' called e}, Uses macros x es m → macros[m]? = some called →
    e ∈ called.body → e.Calls x m' → rank m' < rank m

section Sound

variable (macros : List Macro) (x : MacroExpander)

mutual

/-- The macro calls that the expander sees have as many arguments as their macros have parameters.
In a macro with the parameters `ps`, it sees neither a call nor a parameter in the value of a
`set!`: what the visitor puts in its place would stay in the macro. -/
def Sound (ps : Option (List String)) : Expr → Prop
  | .binaryOp _ l r => Sound ps l ∧ Sound ps r
  | .callProc target args => AllSound ps args ∧ ∀ m, x.macroOf target = some m →
      ∃ called, macros[m]? = some called ∧ called.args.length ≤ args.length
  | .setLocal _ value => Sound ps value ∧
      ∀ names ∈ ps, (∀ m, ¬value.Sees x m) ∧ value.Avoids names
  | .when test actions => Sound ps test ∧ AllSound ps actions
  | _ => True

def AllSound (ps : Option (List String)) : List Expr → Prop
  | [] => True
  | e :: es => Sound ps e ∧ AllSound ps es

end

end Sound

/-- A body is sound, and so are those of the macros that the expander meets, whose parameters have
different names. -/
structure SoundIn (macros : List Macro) (x : MacroExpander) (es : List Expr) : Prop where
  body : AllSound macros x none es
  macros : ∀ {m called}, Meets macros x es m → macros[m]? = some called →
    called.args.Nodup ∧ AllSound macros x (some called.args) called.body

/-! ### Weights -/

section Weight

variable (w : MacroId → List Nat → Nat) (x : MacroExpander)

mutual

/-- The macro calls that are still to come when the expander goes through an expression: `w` says
how many come out of the body of a macro, and `ρ` how many out of the argument for a name. -/
def weight (ρ : List (String × Nat)) : Expr → Nat
  | .literal (.symbol s) => (ρ.lookup s.fullyQualifiedName).getD 0
  | .binaryOp _ l r => weight ρ l + weight ρ r
  | .callProc target args => (match x.macroOf target with
      | some m => 1 + w m (weights ρ args)
      | none => 0) + (weights ρ args).sum
  | .when test actions => weight ρ test + (weights ρ actions).sum
  | _ => 0

def weights (ρ : List (String × Nat)) : List Expr → List Nat
  | [] => []
  | e :: es => weight ρ e :: weights ρ es

end

/-- How many come out of the body of a macro, with at most `n` macros inside one another. -/
def callWeight (macros : List Macro) : Nat → MacroId → List Nat → Nat
  | 0, _, _ => 0
  | n + 1, m, ws => match macros[m]? with
      | some called => (weights (callWeight macros n) x (called.args.zip ws) called.body).sum
      | none => 0

end Weight

section Weight

variable {w w' : MacroId → List Nat → Nat} {x : MacroExpander} {ρ ρ' : List (String × Nat)}

theorem weights_eq_map (es : List Expr) : weights w x ρ es = es.map (weight w x ρ) := by
  induction es with
  | nil => rfl
  | cons e es ih => rw [weights, ih, List.map_cons]

mutual

/-- Only the calls that the expander sees count. -/
theorem weight_congr : ∀ {e : Expr}, (∀ m, e.Sees x m → w m = w' m) →
    weight w x ρ e = weight w' x ρ e
  | .literal v, _ => by cases v <;> rfl
  | .binaryOp _ l r, h => by
      rw [weight, weight, weight_congr fun m hm => h m (.inl hm),
        weight_congr fun m hm => h m (.inr hm)]
  | .callProc target args, h => by
      have hargs : weights w x ρ args = weights w' x ρ args :=
        weights_congr fun m hm => h m (.inr hm)
      rw [weight, weight, hargs]
      cases hm : x.macroOf target with
      | none => rfl
      | some m =>
          have hw : w m = w' m := h m (.inl hm)
          simp only [hw]
  | .when test actions, h => by
      rw [weight, weight, weight_congr fun m hm => h m (.inl hm),
        weights_congr fun m hm => h m (.inr hm)]
  | .quoted _, _ | .unary .., _ | .begin _, _ | .while .., _ | .cond .., _ | .case .., _
  | .localDef .., _ | .setLocal .., _ | .setField .., _ | .loadField .., _ | .import, _
  | .binding .., _ | .let .., _ | .letRx .., _ | .list _, _ | .throw _, _ | .instanceOf .., _
  | .cast .., _ | .new .., _ | .newMap _, _ | .loadInstanceMethod .., _ => rfl

theorem weights_congr : ∀ {es : List Expr}, (∀ m, Expr.AnySees x m es → w m = w' m) →
    weights w x ρ es = weights w' x ρ es
  | [], _ => rfl
  | e :: es, h => by
      rw [weights, weights, weight_congr fun m hm => h m (.inl hm),
        weights_congr fun m hm => h m (.inr hm)]

end

/-- More in the arguments, more out of a call. -/
def Increasing (w : MacroId → List Nat → Nat) : Prop :=
  ∀ m ws ws', List.Forall₂ (· ≤ ·) ws ws' → w m ws ≤ w m ws'

mutual

theorem weight_mono (hw : Increasing w)
    (hρ : ∀ p, (ρ.lookup p).getD 0 ≤ (ρ'.lookup p).getD 0) : ∀ e : Expr,
    weight w x ρ e ≤ weight w x ρ' e
  | .literal v => by
      cases v with
      | symbol s => exact hρ _
      | _ => exact le_rfl
  | .binaryOp _ l r => Nat.add_le_add (weight_mono hw hρ l) (weight_mono hw hρ r)
  | .callProc target args => by
      have hargs := weights_mono hw hρ args
      rw [weight, weight]
      refine Nat.add_le_add ?_ hargs.sum_le_sum
      cases x.macroOf target with
      | none => exact le_rfl
      | some m => exact Nat.add_le_add_left (hw _ _ _ hargs) 1
  | .when test actions =>
      Nat.add_le_add (weight_mono hw hρ test) (weights_mono hw hρ actions).sum_le_sum
  | .quoted _ | .unary .. | .begin _ | .while .. | .cond .. | .case .. | .localDef ..
  | .setLocal .. | .setField .. | .loadField .. | .import | .binding .. | .let .. | .letRx ..
  | .list _ | .throw _ | .instanceOf .. | .cast .. | .new .. | .newMap _
  | .loadInstanceMethod .. => le_rfl

theorem weights_mono (hw : Increasing w)
    (hρ : ∀ p, (ρ.lookup p).getD 0 ≤ (ρ'.lookup p).getD 0) : ∀ es : List Expr,
    List.Forall₂ (· ≤ ·) (weights w x ρ es) (weights w x ρ' es)
  | [] => .nil
  | e :: es => .cons (weight_mono hw hρ e) (weights_mono hw hρ es)

end

theorem lookup_zip_le {ws ws' : List Nat} (h : List.Forall₂ (· ≤ ·) ws ws') (ps : List String)
    (p : String) : (((ps.zip ws).lookup p).getD 0) ≤ ((ps.zip ws').lookup p).getD 0 := by
  induction h generalizing ps with
  | nil => simp
  | cons hle _ ih =>
      cases ps with
      | nil => simp
      | cons q ps =>
          rw [List.zip_cons_cons, List.zip_cons_cons, List.lookup_cons, List.lookup_cons]
          cases p == q with
          | true => exact hle
          | false => exact ih ps

theorem callWeight_mono (x : MacroExpander) (macros : List Macro) (n : Nat) :
    Increasing (callWeight x macros n) := by
  induction n with
  | zero => exact fun _ _ _ _ => le_rfl
  | succ n ih =>
      intro m ws ws' h
      rw [callWeight, callWeight]
      cases macros[m]? with
      | none => exact le_rfl
      | some called => exact (weights_mono ih (lookup_zip_le h _) _).sum_le_sum

end Weight

/-! ### Placements -/

/-- A condition on where the macro calls of an expression stand, in a script or in a macro with the
parameters `ps`, that a pass keeps.  The value of a `set!` is either left alone or one of a
script. -/
structure Placement (macros : List Macro) (x : MacroExpander)
    (S : Option (List String) → Expr → Prop) : Prop where
  weaken : ∀ {ps e}, S ps e → S none e
  binaryOp : ∀ {ps op l r}, S ps (.binaryOp op l r) ↔ S ps l ∧ S ps r
  args : ∀ {ps target args}, S ps (.callProc target args) → (∀ a ∈ args, S ps a) ∧
    ∀ m, x.macroOf target = some m →
      ∃ called, macros[m]? = some called ∧ called.args.length ≤ args.length
  callProc : ∀ {ps target args args'}, S ps (.callProc target args) → args'.length = args.length →
    (∀ a ∈ args', S none a) → S none (.callProc target args')
  setLocal : ∀ {ps l value}, S ps (.setLocal l value) →
    ((∀ m, ¬value.Sees x m) ∧ value.Avoids (ps.getD [])) ∨
      ps = none ∧ S none value ∧ ∀ value', S none value' → S none (.setLocal l value')
  when : ∀ {ps test actions}, S ps (.when test actions) ↔ S ps test ∧ ∀ a ∈ actions, S ps a

/-- The macros that are used, `U`, are ranked by their use of one another, and what they have in
their bodies is placed. -/
structure Ranked (macros : List Macro) (x : MacroExpander)
    (S : Option (List String) → Expr → Prop) (U : MacroId → Prop) (rank : MacroId → Nat) :
    Prop where
  top : x.frames = []
  macros : ∀ {m called}, U m → macros[m]? = some called →
    called.args.Nodup ∧ (∀ e ∈ called.body, S (some called.args) e) ∧
      ∀ q, Expr.AnySees x q called.body → U q ∧ rank q < rank m

namespace Ranked

variable {macros : List Macro} {x : MacroExpander} {S : Option (List String) → Expr → Prop}
  {U : MacroId → Prop} {rank : MacroId → Nat}

theorem callWeight_stable (h : Ranked macros x S U rank) {n k : Nat} {m : MacroId} (hm : U m)
    (hn : rank m < n) (hk : rank m < k) : callWeight x macros n m = callWeight x macros k m := by
  induction n generalizing k m with
  | zero => exact absurd hn (Nat.not_lt_zero _)
  | succ n ih =>
      cases k with
      | zero => exact absurd hk (Nat.not_lt_zero _)
      | succ k =>
          funext ws
          rw [callWeight, callWeight]
          cases hc : macros[m]? with
          | none => rfl
          | some called =>
              obtain ⟨-, -, hcalls⟩ := h.macros hm hc
              have hbody : weights (callWeight x macros n) x (called.args.zip ws) called.body
                  = weights (callWeight x macros k) x (called.args.zip ws) called.body := by
                refine weights_congr fun q hq => ?_
                obtain ⟨hU, hlt⟩ := hcalls q hq
                exact ih hU (by omega) (by omega)
              simp only [hbody]

/-- Above all ranks, what comes out of a macro is what comes out of its body. -/
theorem callWeight_eq (h : Ranked macros x S U rank) {n : Nat} {m : MacroId} {called : Macro}
    (hm : U m) (hn : rank m < n) (hc : macros[m]? = some called) (ws : List Nat) :
    callWeight x macros n m ws
      = (weights (callWeight x macros n) x (called.args.zip ws) called.body).sum := by
  obtain ⟨-, -, hcalls⟩ := h.macros hm hc
  rw [h.callWeight_stable hm hn (Nat.lt_succ_of_lt hn), callWeight, hc]

end Ranked

/-! ### One pass -/

/-- The same expander, within macro calls. -/
structure Within (x x' : MacroExpander) : Prop where
  names : x'.names = x.names
  scope : x'.scope = x.scope

theorem Within.macroOf {x x' : MacroExpander} (h : Within x x') (hx : x.frames = []) {t : Expr}
    {m : MacroId} (hm : x'.macroOf t = some m) : x.macroOf t = some m := by
  obtain ⟨names, scope, frames⟩ := x
  obtain ⟨names', scope', frames'⟩ := x'
  obtain ⟨rfl, rfl⟩ := h
  cases hx
  cases t with
  | literal v =>
      cases v with
      | symbol s =>
          rw [MacroExpander.macroOf] at hm ⊢
          split at hm
          · cases hm
          · exact hm
      | _ => cases hm
  | _ => cases hm

theorem Within.macroOf_eq {x x' : MacroExpander} (h : Within x x') (hx : x.frames = [])
    (hx' : x'.frames = []) (t : Expr) : x'.macroOf t = x.macroOf t := by
  obtain ⟨names, scope, frames⟩ := x
  obtain ⟨names', scope', frames'⟩ := x'
  obtain ⟨rfl, rfl⟩ := h
  cases hx
  cases hx'
  rfl

theorem bindArgs_eq_zip {ps : List String} {as : List Expr} (hps : ps.Nodup)
    (h : ps.length ≤ as.length) : bindArgs ps as = some (ps.zip as) := by
  induction ps generalizing as with
  | nil => rfl
  | cons p ps ih =>
      cases as with
      | nil => cases h
      | cons a as =>
          obtain ⟨hp, hps⟩ := List.nodup_cons.mp hps
          have hrest := ih hps (Nat.le_of_succ_le_succ h)
          have hnone : ((ps.zip as).lookup p).isSome = false := by
            rw [← Bool.not_eq_true, lookup_bindArgs hrest]
            exact hp
          simp [bindArgs, hrest, hnone]

section Pass

variable {macros : List Macro} {x : MacroExpander} {S : Option (List String) → Expr → Prop}
  {U : MacroId → Prop} {rank : MacroId → Nat} {w : MacroId → List Nat → Nat}

/-- An expression of a script in which the expander sees only macros that are used. -/
structure Good (x : MacroExpander) (S : Option (List String) → Expr → Prop) (U : MacroId → Prop)
    (e : Expr) : Prop where
  placed : S none e
  uses : ∀ m, e.Sees x m → U m

/-- The weights of the arguments in a scope. -/
def argWeights (w : MacroId → List Nat → Nat) (x : MacroExpander) (f : List (String × Expr)) :
    List (String × Nat) := f.map fun p => (p.1, weight w x [] p.2)

theorem lookup_argWeights (f : List (String × Expr)) (p : String) :
    (argWeights w x f).lookup p = (f.lookup p).map (weight w x []) := by
  induction f with
  | nil => rfl
  | cons q f ih =>
      rw [argWeights, List.map_cons, List.lookup_cons, List.lookup_cons]
      cases p == q.1 with
      | true => rfl
      | false => exact ih

theorem argWeights_zip (ps : List String) (as : List Expr) :
    argWeights w x (ps.zip as) = ps.zip (weights w x [] as) := by
  rw [argWeights, weights_eq_map, List.zip_map_right]
  rfl

/-- What one pass does to an expression: its macro calls become good expressions of a smaller
weight.  In a macro the expression itself stays what it was. -/
structure Passed (macros : List Macro) (x : MacroExpander) (S : Option (List String) → Expr → Prop)
    (U : MacroId → Prop) (w : MacroId → List Nat → Nat) (n : Nat) (x' : MacroExpander) (e : Expr)
    (v : Visited) : Prop where
  run : Clean macros n x' e v
  self : x'.frames ≠ [] → v.self = e
  good : ∀ r ∈ v.splice, Good x S U r
  le : (weights w x [] v.splice).sum ≤ weight w x (argWeights w x (x'.frames.headD [])) e
  lt : x'.frames = [] → v.hasResult = true →
    (weights w x [] v.splice).sum < weight w x (argWeights w x (x'.frames.headD [])) e

theorem operand_mem_splice (v : Visited) : v.operand ∈ v.splice := by
  obtain ⟨rs, e⟩ := v
  cases rs <;> simp [Visited.operand, Visited.splice, Visited.hasResult]

theorem weight_operand_le (v : Visited) :
    weight w x [] v.operand ≤ (weights w x [] v.splice).sum := by
  rw [weights_eq_map]
  exact List.single_le_sum (fun _ _ => Nat.zero_le _) _
    (List.mem_map_of_mem (operand_mem_splice v))

/-- What a pass does to the expressions of a list. -/
structure PassedAll (macros : List Macro) (x : MacroExpander)
    (S : Option (List String) → Expr → Prop) (U : MacroId → Prop) (w : MacroId → List Nat → Nat)
    (n : Nat) (x' : MacroExpander) (es : List Expr) (vs : List Visited) : Prop where
  run : AllClean macros n x' es vs
  self : x'.frames ≠ [] → vs.map Visited.self = es
  length : vs.length = es.length
  good : ∀ v ∈ vs, ∀ r ∈ v.splice, Good x S U r
  le : (weights w x [] (vs.flatMap Visited.splice)).sum ≤
    (weights w x (argWeights w x (x'.frames.headD [])) es).sum
  operands : List.Forall₂ (· ≤ ·) (weights w x [] (vs.map Visited.operand))
    (weights w x (argWeights w x (x'.frames.headD [])) es)
  lt : x'.frames = [] → vs.any Visited.hasResult = true →
    (weights w x [] (vs.flatMap Visited.splice)).sum <
      (weights w x (argWeights w x (x'.frames.headD [])) es).sum

theorem weights_append (ρ : List (String × Nat)) (es es' : List Expr) :
    weights w x ρ (es ++ es') = weights w x ρ es ++ weights w x ρ es' := by
  simp [weights_eq_map]

theorem operands_le_splices (vs : List Visited) :
    (weights w x [] (vs.map Visited.operand)).sum
      ≤ (weights w x [] (vs.flatMap Visited.splice)).sum := by
  induction vs with
  | nil => exact le_rfl
  | cons v vs ih =>
      rw [List.map_cons, weights, List.sum_cons, List.flatMap_cons, weights_append, List.sum_append]
      exact Nat.add_le_add (weight_operand_le v) ih

theorem PassedAll.nil {n : Nat} {x' : MacroExpander} : PassedAll macros x S U w n x' [] [] where
  run := rfl
  self _ := rfl
  length := rfl
  good := by simp
  le := le_rfl
  operands := .nil
  lt _ := by simp

theorem PassedAll.cons {n : Nat} {x' : MacroExpander} {e : Expr} {v : Visited} {es : List Expr}
    {vs : List Visited} (hv : Passed macros x S U w n x' e v)
    (hvs : PassedAll macros x S U w n x' es vs) :
    PassedAll macros x S U w n x' (e :: es) (v :: vs) where
  run := .cons hv.run hvs.run
  self hx := by rw [List.map_cons, hv.self hx, hvs.self hx]
  length := by rw [List.length_cons, List.length_cons, hvs.length]
  good := by
    intro v' hv'
    rcases List.mem_cons.mp hv' with rfl | hv'
    · exact hv.good
    · exact hvs.good v' hv'
  le := by
    rw [List.flatMap_cons, weights_append, List.sum_append, weights, List.sum_cons]
    exact Nat.add_le_add hv.le hvs.le
  operands := .cons ((weight_operand_le v).trans hv.le) hvs.operands
  lt hx h := by
    rw [List.flatMap_cons, weights_append, List.sum_append, weights, List.sum_cons]
    rcases Bool.or_eq_true_iff.mp h with h | h
    · exact Nat.add_lt_add_of_lt_of_le (hv.lt hx h) hvs.le
    · exact Nat.add_lt_add_of_le_of_lt hv.le (hvs.lt hx h)

theorem PassedAll.operands_good {n : Nat} {x' : MacroExpander} {es : List Expr} {vs : List Visited}
    (h : PassedAll macros x S U w n x' es vs) : ∀ e ∈ vs.map Visited.operand, Good x S U e := by
  intro e he
  obtain ⟨v, hv, rfl⟩ := List.mem_map.mp he
  exact h.good v hv _ (operand_mem_splice v)

/-- A macro call comes to good expressions of its weight. -/
def EnterPasses (macros : List Macro) (x : MacroExpander) (S : Option (List String) → Expr → Prop)
    (U : MacroId → Prop) (rank : MacroId → Nat) (w : MacroId → List Nat → Nat) (n : Nat) : Prop :=
  ∀ {x' m called args}, Within x x' → U m → rank m < n → macros[m]? = some called →
    called.args.length ≤ args.length → (∀ a ∈ args, Good x S U a) →
    ∃ es, enter n x' m args ⟨macros, false⟩ = some (es, ⟨macros, false⟩) ∧
      (∀ r ∈ es, Good x S U r) ∧ (weights w x [] es).sum ≤ w m (weights w x [] args)

/-- What the scopes of the macro calls around hold. -/
structure Binds (x : MacroExpander) (S : Option (List String) → Expr → Prop) (U : MacroId → Prop)
    (ps : Option (List String)) (x' : MacroExpander) : Prop where
  within : Within x x'
  good : ∀ p ∈ x'.frames.headD [], Good x S U p.2
  names : ∀ p, ((x'.frames.headD []).lookup p).isSome → p ∈ ps.getD []
  script : ps = none → x'.frames = []

mutual

/-- There is nothing to do where the expander sees neither a macro call nor an argument. -/
theorem still_run {n : Nat} {ps : Option (List String)} {x' : MacroExpander} (hx : x.frames = [])
    (hb : Binds x S U ps x') : ∀ {e : Expr}, (∀ m, ¬e.Sees x m) → e.Avoids (ps.getD []) →
    ∃ v, Clean macros n x' e v ∧ v.self = e ∧ v.hasResult = false
  | .literal v, _, ha => by
      refine ⟨⟨x'.visitLiteral v, .literal v⟩, rfl, rfl, ?_⟩
      cases v with
      | symbol s =>
          have hnone : ((x'.frames.headD []).lookup s.fullyQualifiedName).isSome = false :=
            Bool.eq_false_iff.mpr fun h => ha (hb.names _ h)
          rw [Option.isSome_eq_false_iff, Option.isNone_iff_eq_none] at hnone
          rw [visitLiteral, hnone]
          rfl
      | _ => rfl
  | .binaryOp op l r, hf, ha => by
      obtain ⟨vl, hl, hsl, hnl⟩ := still_run (e := l) hx hb (fun m hm => hf m (.inl hm)) ha.1
      obtain ⟨vr, hr, hsr, hnr⟩ := still_run (e := r) hx hb (fun m hm => hf m (.inr hm)) ha.2
      refine ⟨_, hl.binaryOp hr, ?_, ?_⟩
      · rw [Visited.self_rebuilt, hsl, hsr]
      · rw [Visited.hasResult_rebuilt, hnl, hnr]
        rfl
  | .callProc target args, hf, ha => by
      obtain ⟨vs, hvs, hself, hnone⟩ := still_runs hx hb (fun m hm => hf m (.inr hm)) ha
      have hm : x'.macroOf target = none := by
        cases hm : x'.macroOf target with
        | none => rfl
        | some m => exact absurd (.inl (hb.within.macroOf hx hm)) (hf m)
      refine ⟨_, .callProc hm hvs, ?_, ?_⟩
      · rw [Visited.self_rebuilt, hself]
      · rw [Visited.hasResult_rebuilt, hnone]
  | .setLocal l value, hf, ha => by
      obtain ⟨v, hv, hself, hnone⟩ := still_run (e := value) hx hb hf ha
      refine ⟨_, hv.setLocal fun _ => hnone, ?_, rfl⟩
      rw [Visited.operand_eq_self hnone, hself]
  | .when test actions, hf, ha => by
      obtain ⟨vt, ht, hst, hnt⟩ := still_run (e := test) hx hb (fun m hm => hf m (.inl hm)) ha.1
      obtain ⟨vs, hvs, hss, hns⟩ := still_runs hx hb (fun m hm => hf m (.inr hm)) ha.2
      refine ⟨_, ht.when hvs, ?_, ?_⟩
      · rw [Visited.self_rebuilt, hst, hss]
      · rw [Visited.hasResult_rebuilt, hnt, hns]
        rfl
  | .quoted _, _, _ | .unary .., _, _ | .begin _, _, _ | .while .., _, _ | .cond .., _, _
  | .case .., _, _ | .localDef .., _, _ | .setField .., _, _ | .loadField .., _, _ | .import, _, _
  | .binding .., _, _ | .let .., _, _ | .letRx .., _, _ | .list _, _, _ | .throw _, _, _
  | .instanceOf .., _, _ | .cast .., _, _ | .new .., _, _ | .newMap _, _, _
  | .loadInstanceMethod .., _, _ => ⟨⟨[], _⟩, rfl, rfl, rfl⟩

theorem still_runs {n : Nat} {ps : Option (List String)} {x' : MacroExpander} (hx : x.frames = [])
    (hb : Binds x S U ps x') : ∀ {es : List Expr}, (∀ m, ¬Expr.AnySees x m es) →
    Expr.AllAvoid (ps.getD []) es → ∃ vs, AllClean macros n x' es vs ∧ vs.map Visited.self = es ∧
      vs.any Visited.hasResult = false
  | [], _, _ => ⟨[], rfl, rfl, rfl⟩
  | e :: es, hf, ha => by
      obtain ⟨v, hv, hsv, hnv⟩ := still_run (e := e) hx hb (fun m hm => hf m (.inl hm)) ha.1
      obtain ⟨vs, hvs, hss, hnvs⟩ := still_runs hx hb (fun m hm => hf m (.inr hm)) ha.2
      refine ⟨v :: vs, .cons hv hvs, ?_, ?_⟩
      · rw [List.map_cons, hsv, hss]
      · rw [List.any_cons, hnv, hnvs]
        rfl

end

/-- A pass over an expression that is left alone. -/
theorem passes_self {n : Nat} {x' : MacroExpander} {e : Expr} (hrun : Clean macros n x' e ⟨[], e⟩)
    (hg : Good x S U e) (hw : weight w x [] e = 0) : ∃ v, Passed macros x S U w n x' e v := by
  refine ⟨⟨[], e⟩, hrun, fun _ => rfl, ?_, ?_, ?_⟩
  · intro r hr
    rw [splice_none, List.mem_singleton] at hr
    rwa [hr]
  · rw [splice_none, weights, weights, hw]
    exact Nat.zero_le _
  · intro _ h
    cases h

theorem sum_weights_singleton (ρ : List (String × Nat)) (e : Expr) :
    (weights w x ρ [e]).sum = weight w x ρ e := by
  simp [weights]

theorem Passed.operand_good {n : Nat} {x' : MacroExpander} {e : Expr} {v : Visited}
    (h : Passed macros x S U w n x' e v) : Good x S U v.operand :=
  h.good _ (operand_mem_splice v)

theorem Passed.operand_le {n : Nat} {x' : MacroExpander} {e : Expr} {v : Visited}
    (h : Passed macros x S U w n x' e v) :
    weight w x [] v.operand ≤ weight w x (argWeights w x (x'.frames.headD [])) e :=
  (weight_operand_le v).trans h.le

theorem Passed.operand_lt {n : Nat} {x' : MacroExpander} {e : Expr} {v : Visited}
    (h : Passed macros x S U w n x' e v) (hx' : x'.frames = []) (hr : v.hasResult = true) :
    weight w x [] v.operand < weight w x (argWeights w x (x'.frames.headD [])) e :=
  (weight_operand_le v).trans_lt (h.lt hx' hr)

/-- A literal names an argument or stays. -/
theorem passed_literal {n : Nat} {ps : Option (List String)} {x' : MacroExpander}
    (hb : Binds x S U ps x') {value : Value} (hg : Good x S U (.literal value)) :
    ∃ v, Passed macros x S U w n x' (.literal value) v := by
  refine ⟨⟨x'.visitLiteral value, .literal value⟩, rfl, fun _ => rfl, ?_, ?_, ?_⟩
  · intro r hr
    rw [splice_literal, List.mem_singleton] at hr
    subst hr
    cases value with
    | symbol s =>
        rw [visitLiteral]
        cases hl : (x'.frames.headD []).lookup s.fullyQualifiedName with
        | none => exact hg
        | some a =>
            obtain ⟨l₁, l₂, hf, -⟩ := List.lookup_eq_some_iff.mp hl
            exact hb.good (s.fullyQualifiedName, a) (by rw [hf]; simp)
    | _ => exact hg
  · rw [splice_literal, sum_weights_singleton]
    cases value with
    | symbol s =>
        rw [visitLiteral, weight, lookup_argWeights]
        cases (x'.frames.headD []).lookup s.fullyQualifiedName with
        | none => exact le_rfl
        | some a => exact le_rfl
    | _ => exact le_rfl
  · intro hx' h
    cases value with
    | symbol s =>
        rw [Visited.hasResult, visitLiteral, hx'] at h
        cases h
    | _ => cases h

mutual

theorem passes {n : Nat} {ps : Option (List String)} {x' : MacroExpander}
    (hS : Placement macros x S) (hx : x.frames = []) (hw : Increasing w)
    (henter : EnterPasses macros x S U rank w n) (hb : Binds x S U ps x') :
    ∀ {e : Expr}, S ps e → (∀ q, e.Sees x q → U q ∧ rank q < n) →
      ∃ v, Passed macros x S U w n x' e v
  | .literal v, hs, hc => passed_literal hb ⟨hS.weaken hs, fun q hq => (hc q hq).1⟩
  | .binaryOp op l r, hs, hc => by
      obtain ⟨hsl, hsr⟩ := hS.binaryOp.mp hs
      obtain ⟨vl, hl⟩ := passes hS hx hw henter hb hsl fun q hq => hc q (.inl hq)
      obtain ⟨vr, hr⟩ := passes hS hx hw henter hb hsr fun q hq => hc q (.inr hq)
      refine ⟨_, hl.run.binaryOp hr.run, ?_, ?_, ?_, ?_⟩
      · intro hx'
        rw [Visited.self_rebuilt, hl.self hx', hr.self hx']
      · intro e he
        rw [splice_binaryOp, List.mem_singleton] at he
        subst he
        exact ⟨hS.binaryOp.mpr ⟨hl.operand_good.placed, hr.operand_good.placed⟩, fun q hq =>
          hq.elim (hl.operand_good.uses q) (hr.operand_good.uses q)⟩
      · rw [splice_binaryOp, sum_weights_singleton, weight, weight]
        exact Nat.add_le_add hl.operand_le hr.operand_le
      · intro hx' h
        rw [splice_binaryOp, sum_weights_singleton, weight, weight]
        rw [Visited.hasResult_rebuilt, Bool.or_eq_true_iff] at h
        rcases h with h | h
        · exact Nat.add_lt_add_of_lt_of_le (hl.operand_lt hx' h) hr.operand_le
        · exact Nat.add_lt_add_of_le_of_lt hl.operand_le (hr.operand_lt hx' h)
  | .callProc target args, hs, hc => by
      obtain ⟨has, harity⟩ := hS.args hs
      cases hm : x'.macroOf target with
      | some m =>
          have hbase := hb.within.macroOf hx hm
          obtain ⟨called, hcalled, hlen⟩ := harity m hbase
          obtain ⟨hU, hrank⟩ := hc m (.inl hbase)
          have hgood : ∀ a ∈ args, Good x S U a := fun a ha =>
            ⟨hS.weaken (has a ha), fun q hq =>
              (hc q (.inr (Expr.anySees_iff.mpr ⟨a, ha, hq⟩))).1⟩
          obtain ⟨es, hes, hg, hle⟩ := henter hb.within hU hrank hcalled hlen hgood
          have hargs : List.Forall₂ (· ≤ ·) (weights w x [] args)
              (weights w x (argWeights w x (x'.frames.headD [])) args) :=
            weights_mono hw (fun p => Nat.zero_le _) args
          have hcall : Clean macros n x' (.callProc target args) ⟨es, .callProc target args⟩ := by
            rw [Clean, visit, hm]
            exact Partial.bind_run hes
          have hself : Good x S U (.callProc target args) := ⟨hS.weaken hs, fun q hq => (hc q hq).1⟩
          rcases es with - | ⟨r, es⟩
          · -- a macro without a body: the call is left
            refine ⟨_, hcall, fun _ => rfl, ?_, ?_, ?_⟩
            · intro r hr
              rw [splice_none, List.mem_singleton] at hr
              rwa [hr]
            · rw [splice_none, sum_weights_singleton]
              exact weight_mono hw (fun p => Nat.zero_le _) _
            · intro _ h
              cases h
          · have hlt : (weights w x [] (r :: es)).sum <
                weight w x (argWeights w x (x'.frames.headD [])) (.callProc target args) := by
              have hmono := hw m _ _ hargs
              rw [weight, hbase]
              simp only
              omega
            exact ⟨_, hcall, fun _ => rfl, hg, hlt.le, fun _ _ => hlt⟩
      | none =>
          obtain ⟨vs, hvs⟩ := passesAll hS hx hw henter hb has fun q hq => hc q (.inr hq)
          have hcall : ∀ m, w m (weights w x [] (vs.map Visited.operand))
              ≤ w m (weights w x (argWeights w x (x'.frames.headD [])) args) :=
            fun m => hw m _ _ hvs.operands
          refine ⟨_, .callProc hm hvs.run, ?_, ?_, ?_, ?_⟩
          · intro hx'
            rw [Visited.self_rebuilt, hvs.self hx']
          · intro e he
            rw [splice_callProc, List.mem_singleton] at he
            subst he
            refine ⟨hS.callProc hs ?_ fun e he => (hvs.operands_good e he).placed, ?_⟩
            · rw [List.length_map, hvs.length]
            · rintro q (hq | hq)
              · exact (hc q (.inl hq)).1
              · obtain ⟨e, he, hq⟩ := Expr.anySees_iff.mp hq
                exact (hvs.operands_good e he).uses q hq
          · rw [splice_callProc, sum_weights_singleton, weight, weight]
            refine Nat.add_le_add ?_ hvs.operands.sum_le_sum
            cases x.macroOf target with
            | none => exact le_rfl
            | some m => exact Nat.add_le_add_left (hcall m) 1
          · intro hx' h
            have hnone : x.macroOf target = none := by
              rw [← hb.within.macroOf_eq hx hx', hm]
            rw [Visited.hasResult_rebuilt] at h
            rw [splice_callProc, sum_weights_singleton, weight, weight, hnone]
            exact Nat.add_lt_add_left ((operands_le_splices vs).trans_lt (hvs.lt hx' h)) _
  | .setLocal l value, hs, hc => by
      rcases hS.setLocal hs with ⟨hnot, havoid⟩ | ⟨rfl, hsv, hset⟩
      · obtain ⟨v, hv, hself, hnone⟩ := still_run (e := value) hx hb hnot havoid
        have hself' : Expr.setLocal l v.operand = .setLocal l value := by
          rw [Visited.operand_eq_self hnone, hself]
        refine ⟨_, hv.setLocal fun _ => hnone, fun _ => hself', ?_, ?_, ?_⟩
        · intro e he
          rw [splice_none, List.mem_singleton, hself'] at he
          subst he
          exact ⟨hS.weaken hs, fun q hq => (hc q hq).1⟩
        · rw [splice_none, sum_weights_singleton]
          exact Nat.zero_le _
        · intro _ h
          cases h
      · -- in a script the node takes the new value
        have hx' := hb.script rfl
        obtain ⟨v, hv⟩ := passes hS hx hw henter hb hsv hc
        refine ⟨_, hv.run.setLocal fun h => absurd hx' h, fun h => absurd hx' h, ?_, ?_, ?_⟩
        · intro e he
          rw [splice_none, List.mem_singleton] at he
          subst he
          exact ⟨hset _ hv.operand_good.placed, hv.operand_good.uses⟩
        · rw [splice_none, sum_weights_singleton]
          exact Nat.zero_le _
        · intro _ h
          cases h
  | .when test actions, hs, hc => by
      obtain ⟨hst, hsa⟩ := hS.when.mp hs
      obtain ⟨vt, ht⟩ := passes hS hx hw henter hb hst fun q hq => hc q (.inl hq)
      obtain ⟨vs, hvs⟩ := passesAll hS hx hw henter hb hsa fun q hq => hc q (.inr hq)
      refine ⟨_, ht.run.when hvs.run, ?_, ?_, ?_, ?_⟩
      · intro hx'
        rw [Visited.self_rebuilt, ht.self hx', hvs.self hx']
      · intro e he
        rw [splice_when, List.mem_singleton] at he
        subst he
        have hactions : ∀ e ∈ vs.flatMap Visited.splice, Good x S U e := by
          intro e he
          obtain ⟨v, hv, he⟩ := List.mem_flatMap.mp he
          exact hvs.good v hv e he
        refine ⟨hS.when.mpr ⟨ht.operand_good.placed, fun e he => (hactions e he).placed⟩, ?_⟩
        rintro q (hq | hq)
        · exact ht.operand_good.uses q hq
        · obtain ⟨e, he, hq⟩ := Expr.anySees_iff.mp hq
          exact (hactions e he).uses q hq
      · rw [splice_when, sum_weights_singleton, weight, weight]
        exact Nat.add_le_add ht.operand_le hvs.le
      · intro hx' h
        rw [splice_when, sum_weights_singleton, weight, weight]
        rw [Visited.hasResult_rebuilt, Bool.or_eq_true_iff] at h
        rcases h with h | h
        · exact Nat.add_lt_add_of_lt_of_le (ht.operand_lt hx' h) hvs.le
        · exact Nat.add_lt_add_of_le_of_lt ht.operand_le (hvs.lt hx' h)
  | .quoted _, hs, hc | .unary .., hs, hc | .begin _, hs, hc | .while .., hs, hc
  | .cond .., hs, hc | .case .., hs, hc | .localDef .., hs, hc | .setField .., hs, hc
  | .loadField .., hs, hc | .import, hs, hc | .binding .., hs, hc | .let .., hs, hc
  | .letRx .., hs, hc | .list _, hs, hc | .throw _, hs, hc | .instanceOf .., hs, hc
  | .cast .., hs, hc | .new .., hs, hc | .newMap _, hs, hc | .loadInstanceMethod .., hs, hc => by
      exact passes_self rfl ⟨hS.weaken hs, fun q hq => (hc q hq).1⟩ rfl

theorem passesAll {n : Nat} {ps : Option (List String)} {x' : MacroExpander}
    (hS : Placement macros x S) (hx : x.frames = []) (hw : Increasing w)
    (henter : EnterPasses macros x S U rank w n) (hb : Binds x S U ps x') :
    ∀ {es : List Expr}, (∀ e ∈ es, S ps e) → (∀ q, Expr.AnySees x q es → U q ∧ rank q < n) →
      ∃ vs, PassedAll macros x S U w n x' es vs
  | [], _, _ => ⟨[], .nil⟩
  | e :: es, hs, hc => by
      obtain ⟨v, hv⟩ := passes hS hx hw henter hb (hs e List.mem_cons_self) fun q hq =>
        hc q (.inl hq)
      obtain ⟨vs, hvs⟩ := passesAll hS hx hw henter hb
        (fun e he => hs e (List.mem_cons_of_mem _ he)) fun q hq => hc q (.inr hq)
      exact ⟨v :: vs, .cons hv hvs⟩

end

/-- A macro call comes to good expressions, `w` of them still with calls to come. -/
theorem Ranked.enter (h : Ranked macros x S U rank) (hS : Placement macros x S) (hw : Increasing w)
    (hbody : ∀ {m called}, U m → macros[m]? = some called → ∀ ws,
      w m ws = (weights w x (called.args.zip ws) called.body).sum) (n : Nat) :
    EnterPasses macros x S U rank w n := by
  induction n with
  | zero => exact fun _ _ hr => absurd hr (Nat.not_lt_zero _)
  | succ n ih =>
      intro x' m called args hx' hU hr hc hlen hargs
      obtain ⟨hnodup, hplaced, hcalls⟩ := h.macros hU hc
      have hframe := bindArgs_eq_zip hnodup hlen
      have hbinds : Binds x S U (some called.args) (x'.pushScope (called.args.zip args)) := by
        refine ⟨⟨hx'.names, hx'.scope⟩, ?_, fun p hp => (lookup_bindArgs hframe p).mp hp, nofun⟩
        rintro ⟨p, a⟩ hp
        exact hargs a (List.of_mem_zip hp).2
      obtain ⟨vs, hvs⟩ := passesAll hS h.top hw ih hbinds hplaced fun q hq =>
        ⟨(hcalls q hq).1, (hcalls q hq).2.trans_le (Nat.le_of_lt_succ hr)⟩
      refine ⟨vs.flatMap Visited.splice, ?_, ?_, ?_⟩
      · refine enter_succ.mpr ⟨called, _, vs, _, hc, hframe, hvs.run, ?_⟩
        rw [hvs.self (List.cons_ne_nil _ _), modify_self hc]
      · intro r hr
        obtain ⟨v, hv, hr⟩ := List.mem_flatMap.mp hr
        exact hvs.good v hv r hr
      · have hle := hvs.le
        rw [hbody hU hc, ← argWeights_zip]
        exact hle

/-- The loop over a body comes to an end, each expression being what a pass without a result has
left: by induction on the weight of what is to be visited and, where a visit changes nothing, on
its length. -/
theorem expandAll_of_passes {n N : Nat} (hpass : ∀ e, Good x S U e →
      ∃ v, Passed macros x S U w n x e v) (hx : x.frames = []) {es : List Expr}
    (hes : ∀ e ∈ es, Good x S U e) (hN : (weights w x [] es).sum ≤ N) :
    ∃ k es', expandAll n x k es ⟨macros, false⟩ = some (es', ⟨macros, false⟩) ∧
      ∀ e' ∈ es', ∃ e v, Good x S U e ∧ Clean macros n x e v ∧ v.hasResult = false ∧
        e' = v.self := by
  induction N using Nat.strong_induction_on generalizing es with
  | _ N ihN =>
  induction es with
  | nil => exact ⟨0, [], rfl, by simp⟩
  | cons e es ihes =>
      obtain ⟨v, hv⟩ := hpass e (hes e List.mem_cons_self)
      have hrest : ∀ e ∈ es, Good x S U e := fun e he => hes e (List.mem_cons_of_mem _ he)
      rw [weights, List.sum_cons] at hN
      cases hr : v.hasResult with
      | true =>
          have hlt := hv.lt hx hr
          rw [Visited.splice_of_hasResult hr, hx] at hlt
          have hsmall : (weights w x [] (v.results ++ es)).sum < N := by
            rw [weights_append, List.sum_append]
            exact (Nat.add_lt_add_right hlt _).trans_le hN
          have hgood : ∀ e ∈ v.results ++ es, Good x S U e := by
            intro e he
            rcases List.mem_append.mp he with he | he
            · exact hv.good e (by rwa [Visited.splice_of_hasResult hr])
            · exact hrest e he
          obtain ⟨k, es', hrun, hleft⟩ := ihN _ hsmall hgood le_rfl
          refine ⟨k + 1, es', ?_, hleft⟩
          rw [expandAll, Partial.bind_run hv.run, if_pos hr]
          exact hrun
      | false =>
          obtain ⟨k, es', hrun, hleft⟩ := ihes hrest (le_of_add_le_right hN)
          refine ⟨k + 1, v.self :: es', ?_, ?_⟩
          · rw [expandAll, Partial.bind_run hv.run, hr]
            exact Partial.bind_run hrun
          · intro e' he'
            rcases List.mem_cons.mp he' with rfl | he'
            · exact ⟨e, v, hes e List.mem_cons_self, hv.run, hr, rfl⟩
            · exact hleft e' he'

/-- Where the macros that are used are ranked, the loop over a body comes to an end. -/
theorem Ranked.ends (h : Ranked macros x S U rank) (hS : Placement macros x S) {n : Nat}
    (hn : ∀ m, U m → rank m < n) {es : List Expr} (hes : ∀ e ∈ es, Good x S U e) :
    ∃ k es', expandAll n x k es ⟨macros, false⟩ = some (es', ⟨macros, false⟩) ∧
      ∀ e' ∈ es', ∃ e v, Good x S U e ∧ Clean macros n x e v ∧ v.hasResult = false ∧
        e' = v.self := by
  have hw := callWeight_mono x macros n
  have henter : EnterPasses macros x S U rank (callWeight x macros n) n :=
    h.enter hS hw (fun hm hc ws => h.callWeight_eq hm (hn _ hm) hc ws) n
  have hbinds : Binds x S U none x :=
    ⟨⟨rfl, rfl⟩, by simp [h.top], by simp [h.top], fun _ => h.top⟩
  exact expandAll_of_passes (fun e he => passes hS h.top hw henter hbinds he.placed fun q hq =>
    ⟨he.uses q hq, hn q (he.uses q hq)⟩) h.top hes le_rfl

end Pass

theorem exists_rank_lt (rank : MacroId → Nat) (k : Nat) : ∃ n, ∀ m < k, rank m < n := by
  refine ⟨((List.range k).map rank).sum + 1, fun m hm => Nat.lt_succ_of_le ?_⟩
  exact List.single_le_sum (fun _ _ => Nat.zero_le _) _
    (List.mem_map_of_mem (List.mem_range.mpr hm))

/-! ### Bodies whose visits write to no macro -/

section Sound

variable {macros : List Macro} {x : MacroExpander} {ps : Option (List String)} {m : MacroId}

theorem allSound_iff {es : List Expr} : AllSound macros x ps es ↔ ∀ e ∈ es, Sound macros x ps e := by
  induction es with
  | nil => simp [AllSound]
  | cons e es ih => simp [AllSound, ih]

mutual

/-- What is sound in a macro is sound in a script. -/
theorem Sound.weaken : ∀ {e : Expr}, Sound macros x ps e → Sound macros x none e
  | .binaryOp .., h => ⟨h.1.weaken, h.2.weaken⟩
  | .callProc .., h => ⟨AllSound.weaken h.1, h.2⟩
  | .setLocal .., h => ⟨h.1.weaken, nofun⟩
  | .when .., h => ⟨h.1.weaken, AllSound.weaken h.2⟩
  | .literal _, _ | .quoted _, _ | .unary .., _ | .begin _, _ | .while .., _ | .cond .., _
  | .case .., _ | .localDef .., _ | .setField .., _ | .loadField .., _ | .import, _
  | .binding .., _ | .let .., _ | .letRx .., _ | .list _, _ | .throw _, _ | .instanceOf .., _
  | .cast .., _ | .new .., _ | .newMap _, _ | .loadInstanceMethod .., _ => trivial

theorem AllSound.weaken : ∀ {es : List Expr}, AllSound macros x ps es → AllSound macros x none es
  | [], _ => trivial
  | _ :: _, h => ⟨h.1.weaken, AllSound.weaken h.2⟩

end

mutual

/-- The macros of the calls that the expander sees exist. -/
theorem Sound.found : ∀ {e : Expr}, Sound macros x ps e → e.Sees x m → m < macros.length
  | .binaryOp .., hs, hm => hm.elim hs.1.found hs.2.found
  | .callProc .., hs, hm => by
      rcases hm with hm | hm
      · obtain ⟨called, hc, -⟩ := hs.2 m hm
        exact (List.getElem?_eq_some_iff.mp hc).1
      · exact AllSound.found hs.1 hm
  | .setLocal _ e, hs, hm => Sound.found (e := e) hs.1 hm
  | .when .., hs, hm => hm.elim hs.1.found (AllSound.found hs.2)

theorem AllSound.found : ∀ {es : List Expr}, AllSound macros x ps es → Expr.AnySees x m es →
    m < macros.length
  | _ :: _, hs, hm => hm.elim hs.1.found (AllSound.found hs.2)

end

theorem SoundIn.found {es : List Expr} (h : SoundIn macros x es) (hm : Meets macros x es m) :
    m < macros.length := by
  cases hm with
  | here he hm => exact (allSound_iff.mp h.body _ he).found hm
  | there hm hc he hm' => exact (allSound_iff.mp (h.macros hm hc).2 _ he).found hm'

variable (macros x) in
theorem sound_placement : Placement macros x (Sound macros x) where
  weaken := Sound.weaken
  binaryOp := Iff.rfl
  args h := ⟨allSound_iff.mp h.1, h.2⟩
  callProc := by
    intro ps target args args' h hlen has
    refine ⟨allSound_iff.mpr has, ?_⟩
    rw [hlen]
    exact h.2
  setLocal := by
    intro ps l value h
    cases ps with
    | none => exact .inr ⟨rfl, h.1, fun _ hv => ⟨hv, nofun⟩⟩
    | some names => exact .inl (h.2 names rfl)
  when := and_congr Iff.rfl allSound_iff

end Sound

theorem expandAll_ends {macros : List Macro} {x : MacroExpander} {body : List Expr}
    (hx : x.frames = []) (hacyclic : Acyclic macros x body) (hsound : SoundIn macros x body) :
    ∃ n k body', expandAll n x k body ⟨macros, false⟩ = some (body', ⟨macros, false⟩) := by
  obtain ⟨rank, hrank⟩ := hacyclic
  obtain ⟨n, hn⟩ := exists_rank_lt rank macros.length
  have hranked : Ranked macros x (Sound macros x) (Meets macros x body) rank := by
    refine ⟨hx, fun {m called} hm hc => ?_⟩
    obtain ⟨hnodup, hs⟩ := hsound.macros hm hc
    refine ⟨hnodup, allSound_iff.mp hs, fun q hq => ?_⟩
    obtain ⟨e, he, hq⟩ := Expr.anySees_iff.mp hq
    exact ⟨.there hm hc he hq, hrank hm.uses hc he hq.calls⟩
  obtain ⟨k, body', hrun, -⟩ := hranked.ends (sound_placement macros x)
    (fun m hm => hn m (hsound.found hm))
    fun e he => ⟨allSound_iff.mp hsound.body e he, fun q hq => .here he hq⟩
  exact ⟨n, k, body', hrun⟩

/-- The expander for a script without a scope of its own, where the kernel's macros are visible. -/
def kernelExpander : MacroExpander := forBody kernelScope.names 0 none

theorem macroOf_zero : kernelExpander.macroOf (.literal (.symbol { name := "zero?" })) = some 0 :=
  rfl

theorem macroOf_even : kernelExpander.macroOf (.literal (.symbol { name := "even?" })) = some 1 :=
  rfl

theorem kernel_acyclic (body : List Expr) : Acyclic kernelMacros kernelExpander body := by
  refine ⟨id, ?_⟩
  rintro (- | - | m) m' called e - hc he h
  · cases hc
    obtain rfl := List.mem_singleton.mp he
    rcases h with h | h <;> cases h
  · cases hc
    obtain rfl := List.mem_singleton.mp he
    rcases h with h | h | h
    · rw [macroOf_zero] at h
      cases h
      exact Nat.zero_lt_one
    · cases h
    · rcases h with h | h
      · rcases h with h | h <;> cases h
      · cases h
  · cases hc

/-- `(even? 4)`. -/
def evenScript : List Expr :=
  [.callProc (.literal (.symbol { name := "even?" })) [.literal (.long 4)]]

theorem evenScript_sound : SoundIn kernelMacros kernelExpander evenScript where
  body := by
    refine ⟨⟨⟨trivial, trivial⟩, fun m hm => ?_⟩, trivial⟩
    rw [macroOf_even] at hm
    cases hm
    exact ⟨_, rfl, le_rfl⟩
  macros := by
    rintro (- | - | m) called - hc
    · cases hc
      exact ⟨by decide, ⟨trivial, trivial⟩, trivial⟩
    · cases hc
      refine ⟨by decide, ⟨⟨⟨trivial, trivial⟩, trivial⟩, fun m hm => ?_⟩, trivial⟩
      rw [macroOf_zero] at hm
      cases hm
      exact ⟨_, rfl, le_rfl⟩
    · cases hc

/-- `(defmacro store [x] (set! y x))`, with an expression in the place of the second `x`. -/
def storing (e : Expr) : List Macro := [⟨["x"], [.setLocal 1 e]⟩]

def storeScopes : Scopes where
  locals := [⟨"store", 0, some (.ofMacro 0)⟩, ⟨"y", 1, none⟩]
  scopes := [⟨none, [0, 1]⟩]

def storeCall (e : Expr) : Expr := .callProc (.literal (.symbol { name := "store" })) [e]

/-- `x`. -/
def storeParam : Expr := .literal (.symbol { name := "x" })

def storeExpander : MacroExpander := forBody storeScopes 0 none

/-- The macro `store` calls none. -/
theorem store_acyclic (body : List Expr) : Acyclic (storing storeParam) storeExpander body := by
  refine ⟨id, ?_⟩
  rintro (- | m) m' called e - hc he h
  · cases hc
    obtain rfl := List.mem_singleton.mp he
    cases h
  · cases hc

/-- Within calls of `store` its name is not bound. -/
theorem macroOf_store {x : MacroExpander} (hx : Within storeExpander x)
    (hf : ∀ f ∈ x.frames, f.lookup "store" = none) :
    x.macroOf (.literal (.symbol { name := "store" })) = some 0 := by
  obtain ⟨names, scope, frames⟩ := x
  obtain ⟨rfl, rfl⟩ := hx
  have hnot : ¬(frames.any fun f => (f.lookup "store").isSome) = true := by
    rw [List.any_eq_true]
    rintro ⟨f, hf', h⟩
    rw [hf f hf'] at h
    cases h
  exact (if_neg hnot).trans rfl

/-- With a call of `store` in its own body, no number of nested calls is enough. -/
theorem enter_store {x : MacroExpander} (hx : Within storeExpander x)
    (hf : ∀ f ∈ x.frames, f.lookup "store" = none) (n : Nat) (a : Expr) (written : Bool) :
    enter n x 0 [a] ⟨storing (storeCall (.literal (.long 1))), written⟩ = none := by
  rw [Option.eq_none_iff_forall_ne_some]
  intro r hr
  induction n generalizing x a r with
  | zero => cases hr
  | succ n ih =>
      obtain ⟨called, frame, vs, s', hc, hframe, hvs, -⟩ := enter_succ.mp hr
      cases hc
      cases hframe
      have hframes : ∀ f ∈ (x.pushScope [("x", a)]).frames, f.lookup "store" = none := by
        intro f hf'
        rcases List.mem_cons.mp hf' with rfl | hf'
        · rfl
        · exact hf f hf'
      have hx' : Within storeExpander (x.pushScope [("x", a)]) := ⟨hx.names, hx.scope⟩
      -- the visit of the body comes to its call, in a scope that has one frame more
      simp only [storeCall, visitAll, visit, macroOf_store hx' hframes, Partial.bind_eq_some] at hvs
      obtain ⟨_, _, ⟨_, _, ⟨es, _, hes, -⟩, -⟩, -⟩ := hvs
      exact ih hx' hframes _ _ hes

end MacroExpander

end Gel
