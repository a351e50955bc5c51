import Gel.MacroExpander
import Mathlib.Algebra.Ring.Nat
import Gel.Support.Partial

/-!
# Substitution — what a macro call stands for

`Expr.replace` puts expressions in the places of names, all at once and everywhere in an expression.
`expansion` is what an expression comes to when each macro call that the expander looks at stands
for the body of its macro, with the arguments in the places of the parameters.  The visitor results
in exactly that, and leaves the macros alone, when the expression `Fits` (`visit_iff`).
-/

namespace Gel

/-- Expressions for some names.  `mentions` says which names occur in the body of a lambda. -/
structure Replacement where
  frame : List (String × Expr)
  names : Scopes
  mentions : Nat → String → Bool

namespace Replacement

/-- Where a variable of this name is bound, the name stands for that variable. -/
def without (r : Replacement) (name : String) : Replacement :=
  { r with frame := r.frame.filter fun p => p.1 != name }

/-- Behind a binding of a `let`. -/
def behind (r : Replacement) : Expr → Replacement
  | .binding l _ => (r.names.locals[l]?.map fun x => r.without x.name).getD r
  | _ => r

/-- A lambda with one of the names in its body would have to be another lambda. -/
def ofLiteral (r : Replacement) : Value → Option Expr
  | .symbol s => some ((r.frame.lookup s.fullyQualifiedName).getD (.literal (.symbol s)))
  | .lambda id => if r.frame.any fun p => r.mentions id p.1 then none else some (.literal (.lambda id))
  | v => some (.literal v)

end Replacement

namespace Expr

mutual

/-- Simultaneous substitution. -/
def replace (r : Replacement) : Expr → Option Expr
  | literal v => r.ofLiteral v
  | quoted v => return quoted v
  | unary op e => return unary op (← e.replace r)
  | binaryOp op a b => return binaryOp op (← a.replace r) (← b.replace r)
  | begin es => return begin (← replaceAll r es)
  | .while t es => return .while (← t.replace r) (← replaceAll r es)
  | cond cs none => return cond (← replaceClauses r cs) none
  | cond cs (some e) => return cond (← replaceClauses r cs) (some (← e.replace r))
  | when t es => return when (← t.replace r) (← replaceAll r es)
  | case k cs => return case (← k.replace r) (← replaceClauses r cs)
  | localDef l e => return localDef l (← e.replace r)
  | setLocal l e => return setLocal l (← e.replace r)
  | setField f i e => return setField f (← i.replace r) (← e.replace r)
  | loadField i f => return loadField (← i.replace r) f
  | .import => return .import
  | callProc t args => return callProc (← t.replace r) (← replaceAll r args)
  | binding l e => return binding l (← e.replace r)
  | .let bs es => do
      let (bs, r) ← replaceBindings r bs
      return .let bs (← replaceAll r es)
  | letRx e ops => return letRx (← e.replace r) (← replaceOps r ops)
  | list es => return list (← replaceAll r es)
  | .throw e => return .throw (← e.replace r)
  | instanceOf c e => return instanceOf c (← e.replace r)
  | cast c e => return cast c (← e.replace r)
  | new c es => return new c (← replaceAll r es)
  | newMap es => return newMap (← replaceEntries r es)
  | loadInstanceMethod c s => return loadInstanceMethod c s

def replaceAll (r : Replacement) : List Expr → Option (List Expr)
  | [] => return []
  | e :: es => return (← e.replace r) :: (← replaceAll r es)

/-- The bindings of a `let`, and what is left to be replaced in its body. -/
def replaceBindings (r : Replacement) : List Expr → Option (List Expr × Replacement)
  | [] => return ([], r)
  | e :: es => do
      let b ← e.replace r
      let (bs, r) ← replaceBindings (r.behind e) es
      return (b :: bs, r)

def replaceClauses (r : Replacement) : List Clause → Option (List Clause)
  | [] => return []
  | .mk k as :: cs => return .mk (← k.replace r) (← replaceAll r as) :: (← replaceClauses r cs)

def replaceOps (r : Replacement) : List RxOp → Option (List RxOp)
  | [] => return []
  | .mk s args :: ops => return .mk s (← replaceAll r args) :: (← replaceOps r ops)

def replaceEntries (r : Replacement) : List Entry → Option (List Entry)
  | [] => return []
  | .mk k e :: es => return .mk k (← e.replace r) :: (← replaceEntries r es)

end

end Expr

/-- The only element of a list. -/
def only : List Expr → Option Expr
  | [e] => some e
  | _ => none

namespace MacroExpander

section Reference

variable (mentions : Nat → String → Bool) (macros : List Macro)

/-- The parameters of the macro call around, and the arguments in their places. -/
def replacement (y : MacroExpander) : Replacement := ⟨y.frames.headD [], y.names, mentions⟩

mutual

/-- What an expression comes to: its names are replaced everywhere, and each macro call that the
expander looks at by `enter`.  An operand is one expression, which a macro of several expressions
cannot stand for. -/
def expansion (enter : MacroExpander → MacroId → List Expr → Option (List Expr))
    (y : MacroExpander) : Expr → Option (List Expr)
  | .binaryOp op l r => do
      return [.binaryOp op (← only (← expansion enter y l)) (← only (← expansion enter y r))]
  | .callProc target args => match y.macroOf target with
      | some m => do enter y m (← Expr.replaceAll (y.replacement mentions) args)
      | none => do
          let target ← target.replace (y.replacement mentions)
          return [.callProc target (← (← expansions enter y args).mapM only)]
  | .setLocal l value => do return [.setLocal l (← only (← expansion enter y value))]
  | .when test actions => do
      return [.when (← only (← expansion enter y test)) (← expansions enter y actions).flatten]
  | e => (e.replace (y.replacement mentions)).map ([·])

def expansions (enter : MacroExpander → MacroId → List Expr → Option (List Expr))
    (y : MacroExpander) : List Expr → Option (List (List Expr))
  | [] => return []
  | e :: es => return (← expansion enter y e) :: (← expansions enter y es)

end

/-- A macro call stands for the body of its macro.  There is no list of results for an empty one:
no results are no change. -/
def expandCall : Nat → MacroExpander → MacroId → List Expr → Option (List Expr)
  | 0, _, _, _ => none
  | n + 1, y, m, args => do
      let called ← macros[m]?
      let frame ← bindArgs called.args args
      if called.body.isEmpty then none
      else (← expansions mentions (expandCall n) (y.pushScope frame) called.body).flatten

/-- How many expressions an expression comes to. -/
def width : Nat → MacroExpander → Expr → Nat
  | n, x, .callProc target args => match x.macroOf target with
      | none => 1
      | some m => match n, macros[m]? with
          | n + 1, some called => match bindArgs called.args args with
              | some frame => (called.body.map (width n (x.pushScope frame))).sum
              | none => 0
          | _, _ => 0
  | _, _, _ => 1

end Reference

mutual

/-- There is nothing to expand in the places that the expander looks at. -/
def Quiet (x : MacroExpander) : Expr → Prop
  | .literal v => x.visitLiteral v = []
  | .binaryOp _ l r => Quiet x l ∧ Quiet x r
  | .callProc target args => x.macroOf target = none ∧ AllQuiet x args
  | .when test actions => Quiet x test ∧ AllQuiet x actions
  | _ => True

def AllQuiet (x : MacroExpander) : List Expr → Prop
  | [] => True
  | e :: es => Quiet x e ∧ AllQuiet x es

end

section Condition

variable (mentions : Nat → String → Bool) (macros : List Macro)

mutual

/-- The names that `y` replaces are those that `x` replaces by the same expressions, wherever the
expander looks, and elsewhere there is nothing to replace: in other kinds of expressions, in the
target of a call, in the value of a `set!` in a macro.  The operands are `single`, that is, macro
calls that come to one expression or no macro calls. -/
def FitsIn (enter : MacroExpander → MacroExpander → MacroId → List Expr → List Expr → Prop)
    (single : MacroExpander → Expr → Prop) (x y : MacroExpander) : Expr → Prop
  | .literal v =>
      (y.replacement mentions).ofLiteral v = some ((x.visitLiteral v).headD (.literal v))
  | .binaryOp _ l r =>
      (FitsIn enter single x y l ∧ single x l) ∧ FitsIn enter single x y r ∧ single x r
  | .callProc target args => match x.macroOf target with
      | some m => ∃ args', Expr.replaceAll (y.replacement mentions) args = some args' ∧
          enter x y m args args'
      | none => target.replace (y.replacement mentions) = some target ∧
          AllFitIn enter single x y args ∧ ∀ e ∈ args, single x e
  | .setLocal _ value =>
      FitsIn enter single x y value ∧ single x value ∧ (x.frames ≠ [] → Quiet x value)
  | .when test actions =>
      (FitsIn enter single x y test ∧ single x test) ∧ AllFitIn enter single x y actions
  | e => e.replace (y.replacement mentions) = some e

def AllFitIn (enter : MacroExpander → MacroExpander → MacroId → List Expr → List Expr → Prop)
    (single : MacroExpander → Expr → Prop) (x y : MacroExpander) : List Expr → Prop
  | [] => True
  | e :: es => FitsIn enter single x y e ∧ AllFitIn enter single x y es

end

/-- The body of a macro fits, with the arguments as they stand in `x` and with their names replaced
in `y`. -/
def CallFits : Nat → MacroExpander → MacroExpander → MacroId → List Expr → List Expr → Prop
  | 0, _, _, _, _, _ => False
  | n + 1, x, y, m, args, args' => ∃ called frame frame', macros[m]? = some called ∧
      called.body ≠ [] ∧ bindArgs called.args args = some frame ∧
      bindArgs called.args args' = some frame' ∧
      AllFitIn mentions (CallFits n) (fun x e => width macros n x e = 1) (x.pushScope frame)
        (y.pushScope frame') called.body

/-- An expression whose macro calls, at most `n` inside one another, are expanded as they should. -/
def Fits (n : Nat) (x y : MacroExpander) (e : Expr) : Prop :=
  FitsIn mentions (CallFits mentions macros n) (fun x e => width macros n x e = 1) x y e

end Condition

end MacroExpander

/-! ### Results -/

namespace Visited

variable {v : Visited} {vs : List Visited} {c : Bool} {new self : Expr}

theorem hasResult_rebuilt : (rebuilt c new self).hasResult = c := by
  cases c <;> rfl

theorem self_rebuilt : (rebuilt c new self).self = self := rfl

theorem operand_eq_self (h : v.hasResult = false) : v.operand = v.self := by
  obtain ⟨rs, e⟩ := v
  cases rs with
  | nil => rfl
  | cons => cases h

theorem splice_ne_nil : v.splice ≠ [] := by
  obtain ⟨rs, e⟩ := v
  cases rs <;> simp [splice, hasResult]

theorem splice_of_hasResult (h : v.hasResult = true) : v.splice = v.results := if_pos h

theorem splice_of_not (h : v.hasResult = false) : v.splice = [v.self] := by
  rw [splice, h]
  rfl

theorem splice_rebuilt (h : c = false → new = self) : (rebuilt c new self).splice = [new] := by
  cases c with
  | true => rfl
  | false => rw [h rfl]; rfl

/-- What comes to one expression comes to its operand. -/
theorem splice_eq_operand (h : v.splice.length = 1) : v.splice = [v.operand] := by
  obtain ⟨rs, e⟩ := v
  rcases rs with - | ⟨r, - | ⟨r', rs⟩⟩
  · rfl
  · rfl
  · simp [splice, hasResult] at h

theorem map_operand (h : vs.any hasResult = false) : vs.map Visited.operand = vs.map Visited.self := by
  simp only [List.any_eq_false, Bool.not_eq_true] at h
  exact List.map_congr_left fun v hv => operand_eq_self (h v hv)

theorem flatMap_splice (h : ∀ v ∈ vs, v.hasResult = false) :
    vs.flatMap Visited.splice = vs.map Visited.self := by
  induction vs with
  | nil => rfl
  | cons v vs ih =>
      rw [List.flatMap_cons, splice_of_not (h v List.mem_cons_self),
        ih fun x hx => h x (List.mem_cons_of_mem _ hx)]
      rfl

/-- Where each of some expressions comes to one, they come to their operands. -/
theorem mapM_only (h : ∀ v ∈ vs, v.splice.length = 1) :
    (vs.map Visited.splice).mapM only = some (vs.map Visited.operand) := by
  induction vs with
  | nil => rfl
  | cons v vs ih =>
      rw [List.map_cons, List.mapM_cons, splice_eq_operand (h v List.mem_cons_self),
        ih fun x hx => h x (List.mem_cons_of_mem _ hx)]
      rfl

end Visited

namespace MacroExpander

/-! ### Visits that write nothing -/

/-- A visit that has not written to a macro's body has changed nothing, and within a macro not even
the visited node. -/
def Unwritten (enter : MacroExpander → MacroId → List Expr → Expand (List Expr)) : Prop :=
  ∀ {x m args s es s'}, enter x m args s = some (es, s') → s'.written = false → s' = s

section Unwritten

variable {enter : MacroExpander → MacroId → List Expr → Expand (List Expr)}

mutual

theorem visit_unwritten (he : Unwritten enter) {x : MacroExpander} : ∀ {e : Expr} {s v s'},
    visit enter x e s = some (v, s') → s'.written = false →
      s' = s ∧ (x.frames ≠ [] → v.self = e)
  | .literal _, s, v, s', h, _ => by
      cases h
      exact ⟨rfl, fun _ => rfl⟩
  | .binaryOp op l r, s, v, s', h, hw => by
      simp only [visit, Partial.bind_eq_some, Partial.pure_run] at h
      obtain ⟨vl, s₁, hl, vr, s₂, hr, hv⟩ := h
      cases hv
      obtain ⟨rfl, hr'⟩ := visit_unwritten he hr hw
      obtain ⟨rfl, hl'⟩ := visit_unwritten he hl hw
      exact ⟨rfl, fun hx => by rw [Visited.self_rebuilt, hl' hx, hr' hx]⟩
  | .callProc target args, s, v, s', h, hw => by
      rw [visit] at h
      cases hm : x.macroOf target with
      | some m =>
          rw [hm] at h
          obtain ⟨es, s₁, hes, hv⟩ := Partial.bind_eq_some.mp h
          cases hv
          exact ⟨he hes hw, fun _ => rfl⟩
      | none =>
          rw [hm] at h
          obtain ⟨vs, s₁, hvs, hv⟩ := Partial.bind_eq_some.mp h
          cases hv
          obtain ⟨rfl, hvs'⟩ := visitAll_unwritten he hvs hw
          exact ⟨rfl, fun hx => by rw [Visited.self_rebuilt, hvs' hx]⟩
  | .setLocal l value, s, v, s', h, hw => by
      rw [visit] at h
      obtain ⟨vv, s₁, hvv, h⟩ := Partial.bind_eq_some.mp h
      cases hr : vv.hasResult && !x.frames.isEmpty with
      | true =>
          rw [hr] at h
          cases h
          cases hw
      | false =>
          rw [hr] at h
          cases h
          obtain ⟨rfl, hself⟩ := visit_unwritten he hvv hw
          refine ⟨rfl, fun hx => ?_⟩
          have hnone : vv.hasResult = false := by simpa [List.isEmpty_iff, hx] using hr
          rw [Visited.operand_eq_self hnone, hself hx]
  | .when test actions, s, v, s', h, hw => by
      simp only [visit, Partial.bind_eq_some, Partial.pure_run] at h
      obtain ⟨vt, s₁, ht, vs, s₂, hvs, hv⟩ := h
      cases hv
      obtain ⟨rfl, hvs'⟩ := visitAll_unwritten he hvs hw
      obtain ⟨rfl, ht'⟩ := visit_unwritten he ht hw
      exact ⟨rfl, fun hx => by rw [Visited.self_rebuilt, ht' hx, hvs' hx]⟩
  | .quoted _, _, _, _, h, _ | .unary .., _, _, _, h, _ | .begin _, _, _, _, h, _
  | .while .., _, _, _, h, _ | .cond .., _, _, _, h, _ | .case .., _, _, _, h, _
  | .localDef .., _, _, _, h, _ | .setField .., _, _, _, h, _ | .loadField .., _, _, _, h, _
  | .import, _, _, _, h, _ | .binding .., _, _, _, h, _ | .let .., _, _, _, h, _
  | .letRx .., _, _, _, h, _ | .list _, _, _, _, h, _ | .throw _, _, _, _, h, _
  | .instanceOf .., _, _, _, h, _ | .cast .., _, _, _, h, _ | .new .., _, _, _, h, _
  | .newMap _, _, _, _, h, _ | .loadInstanceMethod .., _, _, _, h, _ => by
      cases h
      exact ⟨rfl, fun _ => rfl⟩

theorem visitAll_unwritten (he : Unwritten enter) {x : MacroExpander} : ∀ {es : List Expr} {s vs s'},
    visitAll enter x es s = some (vs, s') → s'.written = false →
      s' = s ∧ (x.frames ≠ [] → vs.map Visited.self = es)
  | [], s, vs, s', h, _ => by
      cases h
      exact ⟨rfl, fun _ => rfl⟩
  | e :: es, s, vs, s', h, hw => by
      simp only [visitAll, Partial.bind_eq_some, Partial.pure_run] at h
      obtain ⟨v, s₁, hv, vs', s₂, hvs, hr⟩ := h
      cases hr
      obtain ⟨rfl, hvs'⟩ := visitAll_unwritten he hvs hw
      obtain ⟨rfl, hv'⟩ := visit_unwritten he hv hw
      exact ⟨rfl, fun hx => by rw [List.map_cons, hv' hx, hvs' hx]⟩

end

end Unwritten

theorem modify_self {macros : List Macro} {m : MacroId} {called : Macro}
    (h : macros[m]? = some called) :
    (macros.modify m fun y => { y with body := called.body }) = macros := by
  refine List.ext_getElem? fun i => ?_
  rw [List.getElem?_modify]
  by_cases hi : m = i
  · subst hi
    simp [h]
  · simp [hi]

/-- What a macro call does. -/
theorem enter_succ {n : Nat} {x : MacroExpander} {m : MacroId} {args : List Expr} {s : MacroStore}
    {r : List Expr × MacroStore} : enter (n + 1) x m args s = some r ↔
      ∃ called frame vs s', s.macros[m]? = some called ∧ bindArgs called.args args = some frame ∧
        visitAll (enter n) (x.pushScope frame) called.body s = some (vs, s') ∧
        r = (vs.flatMap Visited.splice, { s' with
          macros := s'.macros.modify m fun y => { y with body := vs.map Visited.self } }) := by
  rw [enter, Partial.get_bind]
  simp only [Partial.bind_eq_some, Partial.lift_eq_some]
  constructor
  · rintro ⟨called, _, ⟨hc, rfl⟩, frame, _, ⟨hf, rfl⟩, vs, s', hvs, _, _, h, hr⟩
    cases h
    cases hr
    exact ⟨called, frame, vs, s', hc, hf, hvs, rfl⟩
  · rintro ⟨called, frame, vs, s', hc, hf, hvs, rfl⟩
    exact ⟨called, s, ⟨hc, rfl⟩, frame, s, ⟨hf, rfl⟩, vs, s', hvs, _, _, rfl, rfl⟩

theorem enter_unwritten (n : Nat) : Unwritten (enter n) := by
  induction n with
  | zero => exact fun h _ => by cases h
  | succ n ih =>
      intro x m args s es s' h hw
      obtain ⟨called, frame, vs, s₁, hc, -, hvs, hr⟩ := enter_succ.mp h
      cases hr
      obtain ⟨rfl, hself⟩ := visitAll_unwritten ih hvs hw
      rw [hself (List.cons_ne_nil _ _), modify_self hc]

/-! ### Names -/

/-- Two expanders that take the same calls for macro calls. -/
def Alike (x y : MacroExpander) : Prop := ∀ t, y.macroOf t = x.macroOf t

theorem macroOf_pushScope (x : MacroExpander) (f : List (String × Expr)) (s : Symbol) :
    (x.pushScope f).macroOf (.literal (.symbol s)) =
      if (f.lookup s.fullyQualifiedName).isSome then none
      else x.macroOf (.literal (.symbol s)) := by
  have hany : ((x.pushScope f).frames.any fun f => (f.lookup s.fullyQualifiedName).isSome)
      = ((f.lookup s.fullyQualifiedName).isSome ||
          x.frames.any fun f => (f.lookup s.fullyQualifiedName).isSome) := List.any_cons ..
  rw [macroOf, macroOf, hany]
  by_cases h : (f.lookup s.fullyQualifiedName).isSome = true
  · simp [h]
  · simp only [Bool.eq_false_iff.mpr h, Bool.false_or, Bool.false_eq_true, if_false]
    rfl

theorem lookup_bindArgs {ps : List String} {as : List Expr} {f : List (String × Expr)}
    (h : bindArgs ps as = some f) (p : String) : (f.lookup p).isSome = true ↔ p ∈ ps := by
  induction ps generalizing as f with
  | nil =>
      cases h
      simp
  | cons q ps ih =>
      cases as with
      | nil => cases h
      | cons a as =>
          simp only [bindArgs, Option.bind_eq_bind, Option.bind_eq_some_iff] at h
          obtain ⟨g, hg, h⟩ := h
          split at h
          · cases h
          · cases h
            rw [List.lookup_cons]
            by_cases hp : p = q
            · simp [hp]
            · simp [beq_eq_false_iff_ne.mpr hp, hp, ih hg]

theorem Alike.pushScope {x y : MacroExpander} (h : x.Alike y) {ps : List String}
    {as as' : List Expr} {f f' : List (String × Expr)} (hf : bindArgs ps as = some f)
    (hf' : bindArgs ps as' = some f') : (x.pushScope f).Alike (y.pushScope f') := by
  intro t
  cases t with
  | literal v =>
      cases v with
      | symbol s =>
          have hsame : (f'.lookup s.fullyQualifiedName).isSome
              = (f.lookup s.fullyQualifiedName).isSome := by
            rw [Bool.eq_iff_iff, lookup_bindArgs hf, lookup_bindArgs hf']
          rw [macroOf_pushScope, macroOf_pushScope, hsame, h]
      | _ => rfl
  | _ => rfl

/-! ### The shape of results -/

section Shape

variable {l r test target : Visited} {vs : List Visited} {op : BinaryOp} {t e : Expr}

theorem splice_literal (x : MacroExpander) (v : Value) :
    (⟨x.visitLiteral v, .literal v⟩ : Visited).splice
      = [(x.visitLiteral v).headD (.literal v)] := by
  cases v with
  | symbol n =>
      rw [visitLiteral]
      cases (x.frames.headD []).lookup n.fullyQualifiedName <;> rfl
  | _ => rfl

theorem splice_binaryOp : (Visited.rebuilt (l.hasResult || r.hasResult)
    (.binaryOp op l.operand r.operand) (.binaryOp op l.self r.self)).splice
      = [.binaryOp op l.operand r.operand] := by
  refine Visited.splice_rebuilt fun h => ?_
  obtain ⟨hl, hr⟩ := Bool.or_eq_false_iff.mp h
  rw [Visited.operand_eq_self hl, Visited.operand_eq_self hr]

theorem splice_callProc : (Visited.rebuilt (vs.any Visited.hasResult)
    (.callProc t (vs.map Visited.operand)) (.callProc t (vs.map Visited.self))).splice
      = [.callProc t (vs.map Visited.operand)] := by
  refine Visited.splice_rebuilt fun h => ?_
  rw [Visited.map_operand h]

theorem splice_when : (Visited.rebuilt (test.hasResult || vs.any Visited.hasResult)
    (.when test.operand (vs.flatMap Visited.splice))
    (.when test.self (vs.map Visited.self))).splice
      = [.when test.operand (vs.flatMap Visited.splice)] := by
  refine Visited.splice_rebuilt fun h => ?_
  obtain ⟨ht, hvs⟩ := Bool.or_eq_false_iff.mp h
  simp only [List.any_eq_false, Bool.not_eq_true] at hvs
  rw [Visited.operand_eq_self ht, Visited.flatMap_splice hvs]

theorem splice_none : (⟨[], e⟩ : Visited).splice = [e] := rfl

end Shape

/-! ### What an expression comes to -/

section Expansion

variable {mentions : Nat → String → Bool}
  {expand : MacroExpander → MacroId → List Expr → Option (List Expr)} {y : MacroExpander}
  {l r target value test : Expr} {args actions es : List Expr}

theorem only_eq_some {a : Expr} : only es = some a ↔ es = [a] := by
  rcases es with - | ⟨e, - | ⟨e', es⟩⟩ <;> simp [only]

theorem expansion_binaryOp {op : BinaryOp} :
    expansion mentions expand y (.binaryOp op l r) = some es ↔
      ∃ a b, expansion mentions expand y l = some [a] ∧ expansion mentions expand y r = some [b] ∧
        es = [.binaryOp op a b] := by
  simp only [expansion, Option.bind_eq_bind, Option.bind_eq_some_iff, only_eq_some, Option.pure_def,
    Option.some.injEq]
  constructor
  · rintro ⟨_, hl, a, rfl, _, hr, b, rfl, rfl⟩
    exact ⟨a, b, hl, hr, rfl⟩
  · rintro ⟨a, b, hl, hr, rfl⟩
    exact ⟨_, hl, a, rfl, _, hr, b, rfl, rfl⟩

theorem expansion_call {m : MacroId} (hm : y.macroOf target = some m) :
    expansion mentions expand y (.callProc target args) = some es ↔
      ∃ args', Expr.replaceAll (y.replacement mentions) args = some args' ∧
        expand y m args' = some es := by
  simp only [expansion, hm, Option.bind_eq_bind, Option.bind_eq_some_iff]

theorem expansion_callProc (hm : y.macroOf target = none) :
    expansion mentions expand y (.callProc target args) = some es ↔
      ∃ t ess as, target.replace (y.replacement mentions) = some t ∧
        expansions mentions expand y args = some ess ∧ ess.mapM only = some as ∧
        es = [.callProc t as] := by
  simp only [expansion, hm, Option.bind_eq_bind, Option.bind_eq_some_iff, Option.pure_def,
    Option.some.injEq]
  constructor
  · rintro ⟨t, ht, ess, hess, as, has, rfl⟩
    exact ⟨t, ess, as, ht, hess, has, rfl⟩
  · rintro ⟨t, ess, as, ht, hess, has, rfl⟩
    exact ⟨t, ht, ess, hess, as, has, rfl⟩

theorem expansion_setLocal {x : LocalId} :
    expansion mentions expand y (.setLocal x value) = some es ↔
      ∃ a, expansion mentions expand y value = some [a] ∧ es = [.setLocal x a] := by
  simp only [expansion, Option.bind_eq_bind, Option.bind_eq_some_iff, only_eq_some, Option.pure_def,
    Option.some.injEq]
  constructor
  · rintro ⟨_, hv, a, rfl, rfl⟩
    exact ⟨a, hv, rfl⟩
  · rintro ⟨a, hv, rfl⟩
    exact ⟨_, hv, a, rfl, rfl⟩

theorem expansion_when :
    expansion mentions expand y (.when test actions) = some es ↔
      ∃ a ess, expansion mentions expand y test = some [a] ∧
        expansions mentions expand y actions = some ess ∧ es = [.when a ess.flatten] := by
  simp only [expansion, Option.bind_eq_bind, Option.bind_eq_some_iff, only_eq_some, Option.pure_def,
    Option.some.injEq]
  constructor
  · rintro ⟨_, ht, a, rfl, ess, hess, rfl⟩
    exact ⟨a, ess, ht, hess, rfl⟩
  · rintro ⟨a, ess, ht, hess, rfl⟩
    exact ⟨_, ht, a, rfl, ess, hess, rfl⟩

end Expansion

section Width

variable {macros : List Macro} {x : MacroExpander} {target : Expr} {args : List Expr}

theorem width_call {n : Nat} {m : MacroId} {called : Macro} {frame : List (String × Expr)}
    (hm : x.macroOf target = some m) (hc : macros[m]? = some called)
    (hf : bindArgs called.args args = some frame) :
    width macros (n + 1) x (.callProc target args)
      = (called.body.map (width macros n (x.pushScope frame))).sum := by
  rw [width, hm]
  simp only [hc, hf]

theorem width_callProc (n : Nat) (hm : x.macroOf target = none) :
    width macros n x (.callProc target args) = 1 := by
  cases n <;> rw [width, hm]

end Width

/-! ### Visits that write to no macro -/

section Clean

variable {macros : List Macro} {n : Nat} {x : MacroExpander} {l r target value test e : Expr}
  {args actions es : List Expr} {v vl vr vt : Visited} {vs : List Visited}

/-- The visitor goes through an expression and writes to no macro. -/
def Clean (macros : List Macro) (n : Nat) (x : MacroExpander) (e : Expr) (v : Visited) : Prop :=
  visit (enter n) x e ⟨macros, false⟩ = some (v, ⟨macros, false⟩)

def AllClean (macros : List Macro) (n : Nat) (x : MacroExpander) (es : List Expr)
    (vs : List Visited) : Prop :=
  visitAll (enter n) x es ⟨macros, false⟩ = some (vs, ⟨macros, false⟩)

theorem Clean.binaryOp {op : BinaryOp} (hl : Clean macros n x l vl) (hr : Clean macros n x r vr) :
    Clean macros n x (.binaryOp op l r) (.rebuilt (vl.hasResult || vr.hasResult)
      (.binaryOp op vl.operand vr.operand) (.binaryOp op vl.self vr.self)) := by
  rw [Clean, visit, Partial.bind_run hl, Partial.bind_run hr]
  rfl

theorem Clean.callProc (hm : x.macroOf target = none) (h : AllClean macros n x args vs) :
    Clean macros n x (.callProc target args) (.rebuilt (vs.any Visited.hasResult)
      (.callProc target (vs.map Visited.operand)) (.callProc target (vs.map Visited.self))) := by
  rw [Clean, visit, hm]
  exact Partial.bind_run h

theorem Clean.setLocal {y : LocalId} (h : Clean macros n x value v)
    (hw : x.frames ≠ [] → v.hasResult = false) :
    Clean macros n x (.setLocal y value) ⟨[], .setLocal y v.operand⟩ := by
  have hnot : (v.hasResult && !x.frames.isEmpty) = false := by
    by_cases hx : x.frames = []
    · simp [hx]
    · rw [hw hx]
      rfl
  rw [Clean, visit, Partial.bind_run h, hnot]
  rfl

theorem Clean.when (ht : Clean macros n x test vt) (hvs : AllClean macros n x actions vs) :
    Clean macros n x (.when test actions) (.rebuilt (vt.hasResult || vs.any Visited.hasResult)
      (.when vt.operand (vs.flatMap Visited.splice)) (.when vt.self (vs.map Visited.self))) := by
  rw [Clean, visit, Partial.bind_run ht, Partial.bind_run hvs]
  rfl

theorem AllClean.cons (h : Clean macros n x e v) (hvs : AllClean macros n x es vs) :
    AllClean macros n x (e :: es) (v :: vs) := by
  rw [AllClean, visitAll, Partial.bind_run h, Partial.bind_run hvs]
  rfl

end Clean

/-! ### Expressions that fit -/

section Forward

variable {mentions : Nat → String → Bool} {macros : List Macro}

/-- What a macro call whose arguments fit comes to. -/
def Forward (mentions : Nat → String → Bool) (macros : List Macro) (n : Nat) : Prop :=
  ∀ {x y m args args'}, x.Alike y → CallFits mentions macros n x y m args args' →
    ∃ es, enter n x m args ⟨macros, false⟩ = some (es, ⟨macros, false⟩) ∧
      expandCall mentions macros n y m args' = some es ∧ es ≠ [] ∧
      ∀ target, x.macroOf target = some m →
        es.length = width macros n x (.callProc target args)

/-- A visit that has done what it should. -/
structure Visits (mentions : Nat → String → Bool) (macros : List Macro) (n : Nat)
    (x y : MacroExpander) (e : Expr) (v : Visited) : Prop where
  run : Clean macros n x e v
  expansion : expansion mentions (expandCall mentions macros n) y e = some v.splice
  width : v.splice.length = width macros n x e
  quiet : v.hasResult = false ↔ Quiet x e

theorem Visits.single {n : Nat} {x y : MacroExpander} {e : Expr} {v : Visited}
    (h : Visits mentions macros n x y e v) (hw : MacroExpander.width macros n x e = 1) :
    MacroExpander.expansion mentions (expandCall mentions macros n) y e = some [v.operand] := by
  rw [h.expansion, Visited.splice_eq_operand (h.width.trans hw)]

/-- An expression that is left alone. -/
theorem visits_self {n : Nat} {x y : MacroExpander} {e : Expr}
    (hrun : Clean macros n x e ⟨[], e⟩)
    (hexp : MacroExpander.expansion mentions (expandCall mentions macros n) y e
      = (e.replace (y.replacement mentions)).map ([·]))
    (hw : MacroExpander.width macros n x e = 1) (hq : Quiet x e)
    (hf : e.replace (y.replacement mentions) = some e) :
    ∃ v, Visits mentions macros n x y e v := by
  refine ⟨⟨[], e⟩, hrun, ?_, ?_, ?_⟩
  · rw [hexp, hf]
    rfl
  · rw [hw]
    rfl
  · exact ⟨fun _ => hq, fun _ => rfl⟩

mutual

theorem visit_of_fits {n : Nat} (ih : Forward mentions macros n) {x y : MacroExpander}
    (hxy : x.Alike y) : ∀ {e : Expr},
    Fits mentions macros n x y e → ∃ v, Visits mentions macros n x y e v
  | .literal v, hf => by
      have hv : (y.replacement mentions).ofLiteral v
          = some ((x.visitLiteral v).headD (.literal v)) := hf
      refine ⟨⟨x.visitLiteral v, .literal v⟩, rfl, ?_, ?_, ?_⟩
      · rw [splice_literal, expansion, Expr.replace, hv]
        · rfl
        all_goals nofun
      · rw [splice_literal]
        cases n <;> rfl
      · simp [Visited.hasResult, Quiet]
  | .binaryOp op l r, hf => by
      obtain ⟨⟨hl, hsl⟩, hr, hsr⟩ := hf
      obtain ⟨vl, hvl⟩ := visit_of_fits ih hxy hl
      obtain ⟨vr, hvr⟩ := visit_of_fits ih hxy hr
      refine ⟨.rebuilt (vl.hasResult || vr.hasResult) (.binaryOp op vl.operand vr.operand)
        (.binaryOp op vl.self vr.self), hvl.run.binaryOp hvr.run, ?_, ?_, ?_⟩
      · rw [splice_binaryOp]
        exact expansion_binaryOp.mpr ⟨_, _, hvl.single hsl, hvr.single hsr, rfl⟩
      · rw [splice_binaryOp]
        cases n <;> rfl
      · rw [Visited.hasResult_rebuilt, Bool.or_eq_false_iff, hvl.quiet, hvr.quiet, Quiet]
  | .callProc target args, hf => by
      rw [Fits, FitsIn] at hf
      cases hm : x.macroOf target with
      | some m =>
          rw [hm] at hf
          obtain ⟨args', hargs, hf⟩ := hf
          obtain ⟨es, hes, hexp, hne, hw⟩ := ih hxy hf
          have hres : (⟨es, .callProc target args⟩ : Visited).hasResult = true := by
            simpa [Visited.hasResult, List.isEmpty_iff] using hne
          refine ⟨⟨es, .callProc target args⟩, ?_, ?_, ?_, ?_⟩
          · rw [Clean, visit, hm]
            exact Partial.bind_run hes
          · rw [Visited.splice_of_hasResult hres]
            exact (expansion_call ((hxy target).trans hm)).mpr ⟨args', hargs, hexp⟩
          · rw [Visited.splice_of_hasResult hres]
            exact hw target hm
          · rw [hres, Quiet, hm]
            simp
      | none =>
          rw [hm] at hf
          obtain ⟨ht, has, hsingle⟩ := hf
          obtain ⟨vs, hvs, hexp, hw, hq⟩ := visitAll_of_fits ih hxy has
          refine ⟨.rebuilt (vs.any Visited.hasResult) (.callProc target (vs.map Visited.operand))
            (.callProc target (vs.map Visited.self)), .callProc hm hvs, ?_, ?_, ?_⟩
          · rw [splice_callProc]
            refine (expansion_callProc ((hxy target).trans hm)).mpr
              ⟨_, _, _, ht, hexp, Visited.mapM_only fun v hv => ?_, rfl⟩
            have hmem : v.splice.length ∈ args.map (width macros n x) :=
              hw ▸ List.mem_map_of_mem hv
            obtain ⟨e, he, hwe⟩ := List.mem_map.mp hmem
            rw [← hwe]
            exact hsingle e he
          · rw [splice_callProc, width_callProc n hm]
            rfl
          · rw [Visited.hasResult_rebuilt, hq, Quiet, hm]
            simp
  | .setLocal l value, hf => by
      obtain ⟨hv, hsv, hquiet⟩ := hf
      obtain ⟨v, hv⟩ := visit_of_fits ih hxy hv
      refine ⟨⟨[], .setLocal l v.operand⟩, hv.run.setLocal fun hx => hv.quiet.mpr (hquiet hx),
        ?_, ?_, ?_⟩
      · exact expansion_setLocal.mpr ⟨_, hv.single hsv, rfl⟩
      · cases n <;> rfl
      · exact ⟨fun _ => trivial, fun _ => rfl⟩
  | .when test actions, hf => by
      obtain ⟨⟨ht, hst⟩, has⟩ := hf
      obtain ⟨vt, hvt⟩ := visit_of_fits ih hxy ht
      obtain ⟨vs, hvs, hexp, hw, hq⟩ := visitAll_of_fits ih hxy has
      refine ⟨.rebuilt (vt.hasResult || vs.any Visited.hasResult)
        (.when vt.operand (vs.flatMap Visited.splice)) (.when vt.self (vs.map Visited.self)),
        hvt.run.when hvs, ?_, ?_, ?_⟩
      · rw [splice_when]
        exact expansion_when.mpr ⟨_, _, hvt.single hst, hexp, by rw [List.flatMap_def]⟩
      · rw [splice_when]
        cases n <;> rfl
      · rw [Visited.hasResult_rebuilt, Bool.or_eq_false_iff, hvt.quiet, hq, Quiet]
  | .quoted _, hf | .unary .., hf | .begin _, hf | .while .., hf | .cond .., hf | .case .., hf
  | .localDef .., hf | .setField .., hf | .loadField .., hf | .import, hf | .binding .., hf
  | .let .., hf | .letRx .., hf | .list _, hf | .throw _, hf | .instanceOf .., hf | .cast .., hf
  | .new .., hf | .newMap _, hf | .loadInstanceMethod .., hf => by
      exact visits_self rfl rfl (by cases n <;> rfl) trivial hf

theorem visitAll_of_fits {n : Nat} (ih : Forward mentions macros n) {x y : MacroExpander}
    (hxy : x.Alike y) : ∀ {es : List Expr},
    AllFitIn mentions (CallFits mentions macros n) (fun x e => width macros n x e = 1) x y es →
    ∃ vs, AllClean macros n x es vs ∧
      expansions mentions (expandCall mentions macros n) y es = some (vs.map Visited.splice) ∧
      vs.map (fun v => v.splice.length) = es.map (width macros n x) ∧
      (vs.any Visited.hasResult = false ↔ AllQuiet x es)
  | [], _ => ⟨[], rfl, rfl, rfl, by simp [AllQuiet]⟩
  | e :: es, hf => by
      obtain ⟨v, hv⟩ := visit_of_fits ih hxy hf.1
      obtain ⟨vs, hvs, hexp, hw, hq⟩ := visitAll_of_fits ih hxy hf.2
      refine ⟨v :: vs, .cons hv.run hvs, ?_, ?_, ?_⟩
      · rw [expansions, hv.expansion, hexp]
        rfl
      · rw [List.map_cons, List.map_cons, hw, hv.width]
      · rw [List.any_cons, Bool.or_eq_false_iff, hv.quiet, hq, AllQuiet]

end

theorem forward (n : Nat) : Forward mentions macros n := by
  induction n with
  | zero => exact fun _ h => h.elim
  | succ n ih =>
      intro x y m args args' hxy hf
      obtain ⟨called, frame, frame', hc, hne, hframe, hframe', hbody⟩ := hf
      obtain ⟨vs, hvs, hexp, hw, -⟩ := visitAll_of_fits ih (hxy.pushScope hframe hframe') hbody
      -- the body is as it was, so the macro is
      obtain ⟨-, hself⟩ := visitAll_unwritten (enter_unwritten n) hvs rfl
      have hbody' : vs.map Visited.self = called.body := hself (List.cons_ne_nil _ _)
      refine ⟨vs.flatMap Visited.splice, ?_, ?_, ?_, ?_⟩
      · refine enter_succ.mpr ⟨called, frame, vs, _, hc, hframe, hvs, ?_⟩
        rw [hbody', modify_self hc]
      · simp only [expandCall, hc, hframe', hexp, Option.bind_eq_bind, Option.bind_some]
        rw [if_neg (by simpa [List.isEmpty_iff] using hne), List.flatMap_def]
      · have hlen : vs ≠ [] := by
          rintro rfl
          exact hne hbody'.symm
        obtain ⟨v, vs, rfl⟩ := List.exists_cons_of_ne_nil hlen
        simp [Visited.splice_ne_nil]
      · intro target hm
        rw [width_call hm hc hframe, ← hw, List.length_flatMap]

end Forward

/-! ### Visits that end well -/

section Runs

variable {macros : List Macro} {n : Nat} {x : MacroExpander} {l r target value test e : Expr}
  {args actions es : List Expr} {v : Visited}

theorem clean_binaryOp {op : BinaryOp} (h : Clean macros n x (.binaryOp op l r) v) :
    ∃ vl vr, Clean macros n x l vl ∧ Clean macros n x r vr ∧
      v.splice = [.binaryOp op vl.operand vr.operand] := by
  simp only [Clean, visit, Partial.bind_eq_some, Partial.pure_run] at h
  obtain ⟨vl, s₁, hl, vr, s₂, hr, hv⟩ := h
  cases hv
  obtain ⟨rfl, -⟩ := visit_unwritten (enter_unwritten n) hr rfl
  exact ⟨vl, vr, hl, hr, splice_binaryOp⟩

theorem clean_call {m : MacroId} (hm : x.macroOf target = some m)
    (h : Clean macros n x (.callProc target args) v) :
    ∃ es, enter n x m args ⟨macros, false⟩ = some (es, ⟨macros, false⟩) ∧
      v = ⟨es, .callProc target args⟩ := by
  rw [Clean, visit, hm] at h
  obtain ⟨es, s₁, hes, hv⟩ := Partial.bind_eq_some.mp h
  cases hv
  exact ⟨es, hes, rfl⟩

theorem clean_callProc (hm : x.macroOf target = none)
    (h : Clean macros n x (.callProc target args) v) :
    ∃ vs, AllClean macros n x args vs ∧ v.splice = [.callProc target (vs.map Visited.operand)] := by
  rw [Clean, visit, hm] at h
  obtain ⟨vs, s₁, hvs, hv⟩ := Partial.bind_eq_some.mp h
  cases hv
  exact ⟨vs, hvs, splice_callProc⟩

theorem clean_setLocal {y : LocalId} (h : Clean macros n x (.setLocal y value) v) :
    ∃ vv, Clean macros n x value vv ∧ (x.frames ≠ [] → vv.hasResult = false) ∧
      v.splice = [.setLocal y vv.operand] := by
  rw [Clean, visit] at h
  obtain ⟨vv, s₁, hvv, h⟩ := Partial.bind_eq_some.mp h
  cases hr : vv.hasResult && !x.frames.isEmpty with
  | true =>
      rw [hr] at h
      cases h
  | false =>
      rw [hr] at h
      cases h
      exact ⟨vv, hvv, fun hx => by simpa [List.isEmpty_iff, hx] using hr, rfl⟩

theorem clean_when (h : Clean macros n x (.when test actions) v) :
    ∃ vt vs, Clean macros n x test vt ∧ AllClean macros n x actions vs ∧
      v.splice = [.when vt.operand (vs.flatMap Visited.splice)] := by
  simp only [Clean, visit, Partial.bind_eq_some, Partial.pure_run] at h
  obtain ⟨vt, s₁, ht, vs, s₂, hvs, hv⟩ := h
  cases hv
  obtain ⟨rfl, -⟩ := visitAll_unwritten (enter_unwritten n) hvs rfl
  exact ⟨vt, vs, ht, hvs, splice_when⟩

theorem allClean_cons {vs : List Visited} (h : AllClean macros n x (e :: es) vs) :
    ∃ v vs', Clean macros n x e v ∧ AllClean macros n x es vs' ∧ vs = v :: vs' := by
  simp only [AllClean, visitAll, Partial.bind_eq_some, Partial.pure_run] at h
  obtain ⟨v, s₁, hv, vs', s₂, hvs, hr⟩ := h
  cases hr
  obtain ⟨rfl, -⟩ := visitAll_unwritten (enter_unwritten n) hvs rfl
  exact ⟨v, vs', hv, hvs, rfl⟩

end Runs

/-! ### As many results -/

section Length

variable {mentions : Nat → String → Bool} {macros : List Macro}

/-- A macro call has as many results as it comes to expressions. -/
def SameLength (mentions : Nat → String → Bool) (macros : List Macro) (n : Nat) : Prop :=
  ∀ {x y m args args' es es'}, x.Alike y →
    enter n x m args ⟨macros, false⟩ = some (es, ⟨macros, false⟩) →
    expandCall mentions macros n y m args' = some es' → es ≠ [] ∧ es.length = es'.length

theorem length_of_replace {y : MacroExpander} {e : Expr} {es : List Expr}
    (h : (e.replace (y.replacement mentions)).map ([·]) = some es) : es.length = 1 := by
  obtain ⟨e', -, rfl⟩ := Option.map_eq_some_iff.mp h
  rfl

theorem clean_length {n : Nat} (ih : SameLength mentions macros n) {x y : MacroExpander}
    (hxy : x.Alike y) {e : Expr} {v : Visited} {es : List Expr} (h : Clean macros n x e v)
    (hexp : expansion mentions (expandCall mentions macros n) y e = some es) :
    v.splice.length = es.length := by
  cases e with
  | literal value =>
      cases h
      rw [splice_literal]
      rw [expansion] at hexp
      · exact (length_of_replace hexp).symm
      all_goals nofun
  | binaryOp op l r =>
      obtain ⟨vl, vr, -, -, hv⟩ := clean_binaryOp h
      obtain ⟨a, b, -, -, rfl⟩ := expansion_binaryOp.mp hexp
      rw [hv]
      rfl
  | callProc target args =>
      cases hm : x.macroOf target with
      | some m =>
          obtain ⟨es', hes', rfl⟩ := clean_call hm h
          obtain ⟨args', -, hexp'⟩ := (expansion_call ((hxy target).trans hm)).mp hexp
          obtain ⟨hne, hlen⟩ := ih hxy hes' hexp'
          rw [Visited.splice_of_hasResult (by simpa [Visited.hasResult, List.isEmpty_iff] using hne)]
          exact hlen
      | none =>
          obtain ⟨vs, -, hv⟩ := clean_callProc hm h
          obtain ⟨t, ess, as, -, -, -, rfl⟩ := (expansion_callProc ((hxy target).trans hm)).mp hexp
          rw [hv]
          rfl
  | setLocal y value =>
      obtain ⟨vv, -, -, hv⟩ := clean_setLocal h
      obtain ⟨a, -, rfl⟩ := expansion_setLocal.mp hexp
      rw [hv]
      rfl
  | when test actions =>
      obtain ⟨vt, vs, -, -, hv⟩ := clean_when h
      obtain ⟨a, ess, -, -, rfl⟩ := expansion_when.mp hexp
      rw [hv]
      rfl
  | _ =>
      cases h
      exact (length_of_replace hexp).symm

theorem allClean_length {n : Nat} (ih : SameLength mentions macros n) {x y : MacroExpander}
    (hxy : x.Alike y) {es : List Expr} {vs : List Visited} {ess : List (List Expr)}
    (h : AllClean macros n x es vs)
    (hexp : expansions mentions (expandCall mentions macros n) y es = some ess) :
    ess.map List.length = (vs.map Visited.splice).map List.length := by
  induction es generalizing vs ess with
  | nil =>
      cases h
      cases hexp
      rfl
  | cons e es ihs =>
      obtain ⟨v, vs, hv, hvs, rfl⟩ := allClean_cons h
      simp only [expansions, Option.bind_eq_bind, Option.bind_eq_some_iff, Option.pure_def,
        Option.some.injEq] at hexp
      obtain ⟨r, hr, rs, hrs, rfl⟩ := hexp
      rw [List.map_cons, List.map_cons, List.map_cons, ihs hvs hrs, clean_length ih hxy hv hr]

/-- A clean visit of a macro call is one of the macro's body. -/
theorem enter_clean {n : Nat} {x : MacroExpander} {m : MacroId} {args es : List Expr}
    (h : enter (n + 1) x m args ⟨macros, false⟩ = some (es, ⟨macros, false⟩)) :
    ∃ called frame vs, macros[m]? = some called ∧ bindArgs called.args args = some frame ∧
      AllClean macros n (x.pushScope frame) called.body vs ∧
      vs.map Visited.self = called.body ∧ es = vs.flatMap Visited.splice := by
  obtain ⟨called, frame, vs, s, hc, hframe, hvs, hr⟩ := enter_succ.mp h
  obtain ⟨rfl, hs⟩ := Prod.mk.injEq _ _ _ _ ▸ hr
  have hw : s.written = false := by
    have := congrArg MacroStore.written hs
    exact this.symm
  obtain ⟨rfl, hself⟩ := visitAll_unwritten (enter_unwritten n) hvs hw
  exact ⟨called, frame, vs, hc, hframe, hvs, hself (List.cons_ne_nil _ _), rfl⟩

theorem expandCall_succ {n : Nat} {y : MacroExpander} {m : MacroId} {args es : List Expr} :
    expandCall mentions macros (n + 1) y m args = some es ↔ ∃ called frame ess,
      macros[m]? = some called ∧ bindArgs called.args args = some frame ∧ called.body ≠ [] ∧
      expansions mentions (expandCall mentions macros n) (y.pushScope frame) called.body = some ess ∧
      es = ess.flatten := by
  simp only [expandCall, Option.bind_eq_bind, Option.bind_eq_some_iff]
  constructor
  · rintro ⟨called, hc, frame, hframe, h⟩
    split at h
    · cases h
    next hne =>
      obtain ⟨ess, hess, h⟩ := Option.bind_eq_some_iff.mp h
      cases h
      exact ⟨called, frame, ess, hc, hframe, by simpa [List.isEmpty_iff] using hne, hess, rfl⟩
  · rintro ⟨called, frame, ess, hc, hframe, hne, hess, rfl⟩
    refine ⟨called, hc, frame, hframe, ?_⟩
    rw [if_neg (by simpa [List.isEmpty_iff] using hne), hess]
    rfl

theorem sameLength (n : Nat) : SameLength mentions macros n := by
  induction n with
  | zero =>
      intro x y m args args' es es' hxy h _
      cases h
  | succ n ih =>
      intro x y m args args' es es' hxy h hexp
      obtain ⟨called, frame, vs, hc, hframe, hvs, hself, rfl⟩ := enter_clean h
      obtain ⟨called', frame', ess, hc', hframe', hne, hess, rfl⟩ := expandCall_succ.mp hexp
      cases hc.symm.trans hc'
      have hlen := allClean_length ih (hxy.pushScope hframe hframe') hvs hess
      constructor
      · have hvs : vs ≠ [] := by
          rintro rfl
          exact hne hself.symm
        obtain ⟨v, vs, rfl⟩ := List.exists_cons_of_ne_nil hvs
        simp [Visited.splice_ne_nil]
      · rw [List.flatMap_def, List.length_flatten, List.length_flatten, hlen]

end Length

/-! ### Visits that do what they should are of expressions that fit -/

section Backward

variable {mentions : Nat → String → Bool} {macros : List Macro}

/-- A macro call that comes to what it should has arguments that fit. -/
def Backward (mentions : Nat → String → Bool) (macros : List Macro) (n : Nat) : Prop :=
  ∀ {x y m args args' es}, x.Alike y →
    enter n x m args ⟨macros, false⟩ = some (es, ⟨macros, false⟩) →
    expandCall mentions macros n y m args' = some es → CallFits mentions macros n x y m args args'

theorem visits_of_clean {n : Nat} {x y : MacroExpander} (hxy : x.Alike y) {e : Expr} {v : Visited}
    (hf : Fits mentions macros n x y e) (h : Clean macros n x e v) :
    Visits mentions macros n x y e v := by
  obtain ⟨v', hv'⟩ := visit_of_fits (forward n) hxy hf
  cases hv'.run.symm.trans h
  exact hv'

/-- Operands, each of which comes to one expression. -/
theorem map_singleton_of_mapM {ess : List (List Expr)} {as : List Expr}
    (h : ess.mapM only = some as) : ess = as.map ([·]) := by
  induction ess generalizing as with
  | nil =>
      cases h
      rfl
  | cons es ess ih =>
      simp only [List.mapM_cons, Option.bind_eq_bind, Option.bind_eq_some_iff, only_eq_some,
        Option.pure_def, Option.some.injEq] at h
      obtain ⟨a, rfl, as, has, rfl⟩ := h
      rw [List.map_cons, ← ih has]

/-- One operand: what it comes to is one expression, and the visitor's. -/
theorem splice_of_single {n : Nat} {x y : MacroExpander} (hxy : x.Alike y) {e a : Expr}
    {v : Visited} (h : Clean macros n x e v)
    (hexp : expansion mentions (expandCall mentions macros n) y e = some [a])
    (ha : a = v.operand) :
    expansion mentions (expandCall mentions macros n) y e = some v.splice ∧
      v.splice.length = 1 := by
  have hlen : v.splice.length = 1 := clean_length (sameLength n) hxy h hexp
  rw [hexp, Visited.splice_eq_operand hlen, ha]
  exact ⟨rfl, rfl⟩

mutual

theorem fits_of_clean {n : Nat} (ih : Backward mentions macros n) {x y : MacroExpander}
    (hxy : x.Alike y) : ∀ {e : Expr} {v : Visited}, Clean macros n x e v →
    expansion mentions (expandCall mentions macros n) y e = some v.splice →
    Fits mentions macros n x y e
  | .literal value, v, h, hexp => by
      cases h
      rw [splice_literal] at hexp
      rw [expansion] at hexp
      · obtain ⟨e, he, heq⟩ := Option.map_eq_some_iff.mp hexp
        cases heq
        exact he
      all_goals nofun
  | .binaryOp op l r, v, h, hexp => by
      obtain ⟨vl, vr, hl, hr, hv⟩ := clean_binaryOp h
      obtain ⟨a, b, hel, her, hab⟩ := expansion_binaryOp.mp hexp
      obtain ⟨rfl, rfl⟩ : a = vl.operand ∧ b = vr.operand := by
        rw [hv] at hab
        cases hab
        exact ⟨rfl, rfl⟩
      obtain ⟨hel', hlenl⟩ := splice_of_single hxy hl hel rfl
      obtain ⟨her', hlenr⟩ := splice_of_single hxy hr her rfl
      have hfl := fits_of_clean ih hxy hl hel'
      have hfr := fits_of_clean ih hxy hr her'
      exact ⟨⟨hfl, (visits_of_clean hxy hfl hl).width.symm.trans hlenl⟩, hfr,
        (visits_of_clean hxy hfr hr).width.symm.trans hlenr⟩
  | .callProc target args, v, h, hexp => by
      rw [Fits, FitsIn]
      cases hm : x.macroOf target with
      | some m =>
          obtain ⟨es, hes, rfl⟩ := clean_call hm h
          obtain ⟨args', hargs, hexp'⟩ := (expansion_call ((hxy target).trans hm)).mp hexp
          obtain ⟨hne, -⟩ := sameLength n hxy hes hexp'
          rw [Visited.splice_of_hasResult (by simpa [Visited.hasResult, List.isEmpty_iff] using hne)]
            at hexp'
          exact ⟨args', hargs, ih hxy hes hexp'⟩
      | none =>
          obtain ⟨vs, hvs, hv⟩ := clean_callProc hm h
          obtain ⟨t, ess, as, ht, hess, has, heq⟩ :=
            (expansion_callProc ((hxy target).trans hm)).mp hexp
          obtain ⟨rfl, rfl⟩ : t = target ∧ as = vs.map Visited.operand := by
            rw [hv] at heq
            cases heq
            exact ⟨rfl, rfl⟩
          have hlen := allClean_length (sameLength n) hxy hvs hess
          obtain rfl := map_singleton_of_mapM has
          have hone : ∀ v ∈ vs, v.splice.length = 1 := by
            intro v hv
            have hmem := List.mem_map_of_mem (f := List.length) (List.mem_map_of_mem (f := Visited.splice) hv)
            rw [← hlen] at hmem
            obtain ⟨es, hes, hl⟩ := List.mem_map.mp hmem
            obtain ⟨a, -, rfl⟩ := List.mem_map.mp hes
            exact hl.symm
          have hsplice : (vs.map Visited.operand).map ([·]) = vs.map Visited.splice := by
            rw [List.map_map]
            exact List.map_congr_left fun v hv => (Visited.splice_eq_operand (hone v hv)).symm
          rw [hsplice] at hess
          have hfit := allFit_of_clean ih hxy hvs hess
          refine ⟨ht, hfit, fun e he => ?_⟩
          obtain ⟨vs', hvs', -, hw, -⟩ := visitAll_of_fits (forward n) hxy hfit
          cases hvs'.symm.trans hvs
          have hmem : width macros n x e ∈ vs.map fun v => v.splice.length :=
            hw ▸ List.mem_map_of_mem he
          obtain ⟨v, hv, hwv⟩ := List.mem_map.mp hmem
          exact hwv.symm.trans (hone v hv)
  | .setLocal l value, v, h, hexp => by
      obtain ⟨vv, hvv, hquiet, hv⟩ := clean_setLocal h
      obtain ⟨a, he, heq⟩ := expansion_setLocal.mp hexp
      obtain rfl : a = vv.operand := by
        rw [hv] at heq
        cases heq
        rfl
      obtain ⟨he', hlen⟩ := splice_of_single hxy hvv he rfl
      have hf := fits_of_clean ih hxy hvv he'
      have hvisits := visits_of_clean hxy hf hvv
      exact ⟨hf, hvisits.width.symm.trans hlen, fun hx => hvisits.quiet.mp (hquiet hx)⟩
  | .when test actions, v, h, hexp => by
      obtain ⟨vt, vs, ht, hvs, hv⟩ := clean_when h
      obtain ⟨a, ess, het, hess, heq⟩ := expansion_when.mp hexp
      obtain ⟨rfl, hflat⟩ : a = vt.operand ∧ (vs.map Visited.splice).flatten = ess.flatten := by
        rw [hv, List.flatMap_def] at heq
        injection heq with heq _
        injection heq with ht has
        exact ⟨ht.symm, has⟩
      have hlen := allClean_length (sameLength n) hxy hvs hess
      obtain rfl : vs.map Visited.splice = ess := List.eq_iff_flatten_eq.mpr ⟨hflat, hlen.symm⟩
      obtain ⟨het', hlent⟩ := splice_of_single hxy ht het rfl
      have hft := fits_of_clean ih hxy ht het'
      exact ⟨⟨hft, (visits_of_clean hxy hft ht).width.symm.trans hlent⟩,
        allFit_of_clean ih hxy hvs hess⟩
  | .quoted _, v, h, hexp | .unary .., v, h, hexp | .begin _, v, h, hexp | .while .., v, h, hexp
  | .cond .., v, h, hexp | .case .., v, h, hexp | .localDef .., v, h, hexp
  | .setField .., v, h, hexp | .loadField .., v, h, hexp | .import, v, h, hexp
  | .binding .., v, h, hexp | .let .., v, h, hexp | .letRx .., v, h, hexp | .list _, v, h, hexp
  | .throw _, v, h, hexp | .instanceOf .., v, h, hexp | .cast .., v, h, hexp | .new .., v, h, hexp
  | .newMap _, v, h, hexp | .loadInstanceMethod .., v, h, hexp => by
      cases h
      obtain ⟨e, he, heq⟩ := Option.map_eq_some_iff.mp hexp
      cases heq
      exact he

theorem allFit_of_clean {n : Nat} (ih : Backward mentions macros n) {x y : MacroExpander}
    (hxy : x.Alike y) : ∀ {es : List Expr} {vs : List Visited}, AllClean macros n x es vs →
    expansions mentions (expandCall mentions macros n) y es = some (vs.map Visited.splice) →
    AllFitIn mentions (CallFits mentions macros n) (fun x e => width macros n x e = 1) x y es
  | [], _, _, _ => trivial
  | e :: es, vs, h, hexp => by
      obtain ⟨v, vs, hv, hvs, rfl⟩ := allClean_cons h
      simp only [expansions, Option.bind_eq_bind, Option.bind_eq_some_iff, Option.pure_def,
        Option.some.injEq, List.map_cons, List.cons.injEq] at hexp
      obtain ⟨r, hr, rs, hrs, rfl, rfl⟩ := hexp
      exact ⟨fits_of_clean ih hxy hv hr, allFit_of_clean ih hxy hvs hrs⟩

end

theorem backward (n : Nat) : Backward mentions macros n := by
  induction n with
  | zero =>
      intro x y m args args' es hxy h _
      cases h
  | succ n ih =>
      intro x y m args args' es hxy h hexp
      obtain ⟨called, frame, vs, hc, hframe, hvs, -, rfl⟩ := enter_clean h
      obtain ⟨called', frame', ess, hc', hframe', hne, hess, hflat⟩ := expandCall_succ.mp hexp
      cases hc.symm.trans hc'
      have hlen := allClean_length (sameLength n) (hxy.pushScope hframe hframe') hvs hess
      rw [List.flatMap_def] at hflat
      obtain rfl : vs.map Visited.splice = ess := List.eq_iff_flatten_eq.mpr ⟨hflat, hlen.symm⟩
      exact ⟨called, frame, frame', hc, hne, hframe, hframe',
        allFit_of_clean ih (hxy.pushScope hframe hframe') hvs hess⟩

end Backward

/-- A visit of an expression, at any place outside of macros, results in what the expression comes
to, and the macros are as they were. -/
def Expands (mentions : Nat → String → Bool) (macros : List Macro) (n : Nat) (x : MacroExpander)
    (e : Expr) : Prop :=
  ∃ v, Clean macros n x e v ∧
    expansion mentions (expandCall mentions macros n) x e = some v.splice

/-- Macro calls are expanded to what they stand for exactly in the expressions that fit. -/
theorem expands_iff (mentions : Nat → String → Bool) (macros : List Macro) (n : Nat)
    (x : MacroExpander) (e : Expr) :
    Expands mentions macros n x e ↔ Fits mentions macros n x x e := by
  constructor
  · rintro ⟨v, hv, hexp⟩
    exact fits_of_clean (backward n) (fun _ => rfl) hv hexp
  · intro hf
    obtain ⟨v, hv⟩ := visit_of_fits (forward n) (fun _ => rfl) hf
    exact ⟨v, hv.run, hv.expansion⟩

/-- `zero?` and `even?` of the kernel. -/
def kernelMacros : List Macro :=
  [⟨["x"], [.binaryOp .equals (.literal (.symbol { name := "x" })) (.literal (.long 0))]⟩,
    ⟨["x"], [.callProc (.literal (.symbol { name := "zero?" }))
      [.binaryOp .modulus (.literal (.symbol { name := "x" })) (.literal (.long 2))]]⟩]

def kernelScope : MacroExpander where
  names := { locals := [⟨"zero?", 0, some (.ofMacro 0)⟩, ⟨"even?", 1, some (.ofMacro 1)⟩],
             scopes := [⟨none, [0, 1]⟩] }
  scope := 0

/-- `(even? 4)` becomes `(= (% x 2) 0)`: the argument of the inner call keeps the name of the outer
parameter. -/
theorem expands_even_fails :
    let call := Expr.callProc (.literal (.symbol { name := "even?" })) [.literal (.long 4)]
    Clean kernelMacros 2 kernelScope call ⟨[.binaryOp .equals
        (.binaryOp .modulus (.literal (.symbol { name := "x" })) (.literal (.long 2)))
        (.literal (.long 0))], call⟩ ∧
      ∀ n, ¬Expands (fun _ _ => false) kernelMacros n kernelScope call := by
  refine ⟨rfl, ?_⟩
  rintro (- | - | n) ⟨v, hv, hexp⟩
  · cases hv
  · cases hv
  · cases hv
    cases hexp

end MacroExpander

end Gel
