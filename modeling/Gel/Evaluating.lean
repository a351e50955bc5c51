import Gel.Formulas
import Gel.Bodies
import Gel.Growth
import Gel.Arity
import Gel.Completeness

/-!
# Evaluating — what a text evaluates to

`Runtime::Eval` from the text to the result: the text is parsed in a new scope, compiled as the body
of a lambda and called.  For the text of a formula the whole way is followed: the parser makes its
expression and touches nothing else, the code that is emitted for it runs to a return with its value
on top, and the call and the scope of the evaluation are left again.

* `Runtime.eval`: the executable model.
* `eval_formula`: the text of a formula evaluates to the value of the formula.
-/

namespace Gel

open Faulting FlowGraphBuilder FlowGraphCompiler Interpreter

namespace Runtime

/-- `Parser::ParseExpr` on a text; the scopes and the lambdas that the parser makes are the
runtime's. -/
def parseExpr (reg : Registry) (n : Nat) (text : String) (s : ScopeId) (m : Memory) :
    Except Fault (Option Expr × Memory) := do
  let (e, p) ← Parser.parseExpression reg n
    { Parser.ofString text s m.scopes with lambdas := m.lambdas }
  return (e, { m with scopes := p.scopes, lambdas := p.lambdas })

/-- `MacroExpander::ExpandAll`, which `CompileTarget` does first. -/
def expandBody (n : Nat) (s : ScopeId) (own : Option ScopeId) (body : List Expr) (m : Memory)
    (macros : MacroStore) : Except Fault (List Expr × MacroStore) :=
  match (MacroExpander.expandAllIn n n m.scopes s own body).run macros with
  | some r => .ok r
  | none => .error .undefined

/-- `Runtime::Eval`; a text without an expression leaves the lambda without a body. -/
def eval (cfg : Config) (reg : Registry) (host : Host) (n : Nat) (text : String)
    (macros : MacroStore) (rt : Runtime) : Except Fault (Value × MacroStore × Runtime) := do
  let (s, id, rt) := rt.enterEval
  let (e, m) ← parseExpr reg n text s rt.memory
  let (body, macros) ← expandBody n s none e.toList m macros
  let (_, rt) ← compileLambda cfg n id s { rt with memory := setBody id body m }
  let rt ← call cfg host n (.lambda id) [] rt
  let (v, rt) := rt.takeResult
  return (v, macros, rt.popScope)

end Runtime

/-! ### Parsing -/

/-- `ParseExpr` on the text of a form that is read quietly. -/
theorem Runtime.parseExpr_of_quiet {reg : Registry} {e : Source reg} (he : Parser.IsQuiet e)
    {n : Nat} (hn : e.size ≤ n) (s : ScopeId) (m : Memory) :
    Runtime.parseExpr reg n (.ofList e.print) s m = .ok (some e.toExpr, m) := by
  have hat : Parser.At reg
      { Parser.ofString (.ofList e.print) s m.scopes with lambdas := m.lambdas }
      (e.print ++ []) := by
    refine ⟨rfl, Option.some_ne_none _, .inl ⟨rfl, ?_, rfl, (by decide : (-1 : Int) < 0)⟩⟩
    simp [Parser.ofString]
  have hquiet := he hn Source.delimited_nil
  obtain ⟨q, hrun, -⟩ := hquiet.parses _ hat
  obtain ⟨-, hscopes, hlambdas⟩ := hquiet.untouched hat hrun
  rw [Runtime.parseExpr, hrun]
  change Except.ok (some e.toExpr, { m with scopes := q.scopes, lambdas := q.lambdas }) = _
  rw [hscopes, hlambdas]
  rfl

/-- There is nothing to expand where the expander sees no macro call. -/
theorem Runtime.expandBody_self {e : Expr} {s : ScopeId} {own : Option ScopeId} {m : Memory}
    (hsees : ∀ k, ¬e.Sees (MacroExpander.forBody m.scopes s own) k) {n : Nat} (hn : 0 < n)
    (macros : List Macro) :
    Runtime.expandBody n s own [e] m ⟨macros, false⟩ = .ok ([e], ⟨macros, false⟩) := by
  obtain ⟨k, rfl⟩ := Nat.exists_eq_succ_of_ne_zero hn.ne'
  have hbinds : MacroExpander.Binds (MacroExpander.forBody m.scopes s own) (fun _ _ => True)
      (fun _ => True) none (MacroExpander.forBody m.scopes s own) :=
    ⟨⟨rfl, rfl⟩, nofun, nofun, fun _ => rfl⟩
  obtain ⟨v, hv, hself, hnone⟩ : ∃ v, MacroExpander.Clean macros (k + 1)
      (MacroExpander.forBody m.scopes s own) e v ∧ v.self = e ∧ v.hasResult = false :=
    MacroExpander.still_run rfl hbinds hsees e.avoids_nil
  have hrun : (MacroExpander.expandAllIn (k + 1) (k + 1) m.scopes s own [e]).run ⟨macros, false⟩
      = some ([e], ⟨macros, false⟩) := by
    change MacroExpander.expandAll (k + 1) (MacroExpander.forBody m.scopes s own) (k + 1) [e]
      ⟨macros, false⟩ = _
    rw [MacroExpander.expandAll, Partial.bind_run hv, hnone, hself]
    cases k <;> rfl
  rw [Runtime.expandBody, hrun]

/-! ### Names -/

namespace Scopes

variable {m : Scopes}

theorem lookupHere_newScope (m : Scopes) (p : Option ScopeId) {s : ScopeId}
    (hs : s < m.scopes.length) (name : String) :
    (m.newScope p).2.lookupHere s name = m.lookupHere s name := by
  rw [lookupHere, lookupHere, localsOf, localsOf, newScope, List.getElem?_append_left hs]

/-- A lookup in a scope there was is what it was before a new scope. -/
theorem Rooted.lookupWithin_newScope (hm : m.Rooted) (p : Option ScopeId) (name : String) {n : Nat}
    {s : ScopeId} (hs : s < m.scopes.length) :
    (m.newScope p).2.lookupWithin name n s = m.lookupWithin name n s := by
  induction n generalizing s with
  | zero => rfl
  | succ n ih =>
      rw [lookupWithin, lookupWithin, lookupHere_newScope m p hs,
        (Scopes.Extended.newScope m p).parentOf hs]
      cases m.lookupHere s name with
      | some l => rfl
      | none =>
          cases hp : m.parentOf s with
          | none => rfl
          | some q => exact ih ((hm s q hp).trans hs)

/-- A lookup in a new scope is one in the scope around it. -/
theorem Rooted.lookup_newScope (hm : m.Rooted) {s : ScopeId} (hs : s < m.scopes.length)
    (name : String) : (m.newScope (some s)).2.lookup m.scopes.length name = m.lookup s name := by
  have hhere : (m.newScope (some s)).2.lookupHere m.scopes.length name = none := by
    simp [lookupHere, localsOf, Scopes.newScope]
  have hlength : (m.newScope (some s)).2.scopes.length = m.scopes.length + 1 := by
    simp [Scopes.newScope]
  rw [lookup, hlength, lookupWithin, hhere]
  dsimp only
  have hparent : (m.newScope (some s)).2.parentOf m.scopes.length = some s :=
    Gel.parentOf_newScope m s
  rw [hparent]
  exact hm.lookupWithin_newScope (some s) name hs

end Scopes

/-- Scopes and variables have been added, and those there were are as they were. -/
structure Scopes.Grows (m m' : Scopes) : Prop where
  scopes : m.scopes <+: m'.scopes
  locals : m.locals <+: m'.locals

/-- The variables of scopes are there. -/
def Scopes.Sound (m : Scopes) : Prop := ∀ s, ∀ l ∈ m.localsOf s, l < m.locals.length

namespace Scopes.Grows

variable {m m' m'' : Scopes} {s : ScopeId} {l : LocalId}

theorem refl (m : Scopes) : m.Grows m := ⟨List.prefix_refl _, List.prefix_refl _⟩

theorem trans (h : m.Grows m') (h' : m'.Grows m'') : m.Grows m'' :=
  ⟨h.scopes.trans h'.scopes, h.locals.trans h'.locals⟩

theorem newScope (m : Scopes) (p : Option ScopeId) : m.Grows (m.newScope p).2 :=
  ⟨List.prefix_append _ _, List.prefix_refl _⟩

theorem extended (h : m.Grows m') : m.Extended m' := ⟨h.scopes.map _, h.locals.map _⟩

theorem scope_eq (h : m.Grows m') (hs : s < m.scopes.length) : m'.scopes[s]? = m.scopes[s]? :=
  (getElem?_extended h.scopes (List.getElem?_eq_getElem hs)).trans (List.getElem?_eq_getElem hs).symm

theorem local_eq (h : m.Grows m') (hl : l < m.locals.length) : m'.locals[l]? = m.locals[l]? :=
  (getElem?_extended h.locals (List.getElem?_eq_getElem hl)).trans (List.getElem?_eq_getElem hl).symm

theorem localsOf (h : m.Grows m') (hs : s < m.scopes.length) : m'.localsOf s = m.localsOf s := by
  rw [Scopes.localsOf, Scopes.localsOf, h.scope_eq hs]

theorem lookupHere (h : m.Grows m') (hm : m.Sound) (hs : s < m.scopes.length) (name : String) :
    m'.lookupHere s name = m.lookupHere s name := by
  have hfind : ∀ ls : List LocalId, (∀ l ∈ ls, l < m.locals.length) →
      (ls.find? fun l => m'.locals[l]?.any fun x => x.name == name)
        = ls.find? fun l => m.locals[l]?.any fun x => x.name == name := by
    intro ls hls
    induction ls with
    | nil => rfl
    | cons l ls ih =>
        obtain ⟨hl, hls⟩ := List.forall_mem_cons.mp hls
        rw [List.find?_cons, List.find?_cons, h.local_eq hl, ih hls]
  rw [Scopes.lookupHere, Scopes.lookupHere, h.localsOf hs]
  exact hfind _ (hm s)

/-- **Names.**  A lookup in a scope there was finds what it found. -/
theorem lookup (h : m.Grows m') (hm : m.Sound) (hroot : m.Rooted) (hs : s < m.scopes.length)
    (name : String) : m'.lookup s name = m.lookup s name := by
  have hwithin : ∀ n s, s < m.scopes.length →
      m'.lookupWithin name n s = m.lookupWithin name n s := by
    intro n
    induction n with
    | zero => exact fun _ _ => rfl
    | succ n ih =>
        intro s hs
        rw [lookupWithin, lookupWithin, h.lookupHere hm hs, h.extended.parentOf hs]
        cases m.lookupHere s name with
        | some l => rfl
        | none =>
            cases hp : m.parentOf s with
            | none => rfl
            | some p => exact ih p ((hroot s p hp).trans hs)
  rw [Scopes.lookup, Scopes.lookup, hwithin _ _ hs]
  exact hroot.lookupWithin_eq name (hs.trans_le h.extended.length_le) hs

end Scopes.Grows

/-! ### Natives -/

/-- A scope whose variables are new has been added, and nothing else has changed. -/
structure Scopes.Adds (m m' : Scopes) : Prop where
  extended : m.Extended m'
  scopes : ∀ t, t ≠ m.scopes.length → m'.localsOf t = m.localsOf t
  locals : ∀ l, l < m.locals.length → m'.locals[l]? = m.locals[l]?
  length_le : m.locals.length ≤ m'.locals.length
  own : ∀ l ∈ m'.localsOf m.scopes.length, m.locals.length ≤ l ∧ l < m'.locals.length

namespace Scopes.Adds

variable {m m' : Scopes}

theorem newScope (m : Scopes) (p : Option ScopeId) : m.Adds (m.newScope p).2 := by
  refine ⟨.newScope m p, fun t ht => ?_, fun _ _ => rfl, le_rfl, ?_⟩
  · rcases Nat.lt_or_gt_of_ne ht with ht | ht
    · rw [localsOf, localsOf, Scopes.newScope, List.getElem?_append_left ht]
    · have hnew : (m.newScope p).2.scopes.length ≤ t := by
        rw [Scopes.newScope, List.length_append]
        exact ht
      rw [localsOf, localsOf, List.getElem?_eq_none hnew, List.getElem?_eq_none ht.le]
  · simp [localsOf, Scopes.newScope]

theorem newLocal (h : m.Adds m') (s : ScopeId) (name : String) (v : Option Value) :
    m.Adds (m'.newLocal s name v).2 where
  extended := h.extended.trans (.newLocal _ _ _ _)
  scopes := h.scopes
  locals l hl := by
    rw [← h.locals l hl, Scopes.newLocal, List.getElem?_append_left (hl.trans_le h.length_le)]
  length_le := h.length_le.trans (by simp [Scopes.newLocal])
  own l hl := by
    obtain ⟨hle, hlt⟩ := h.own l hl
    exact ⟨hle, hlt.trans_le (by simp [Scopes.newLocal])⟩

/-- A new variable is added to the new scope. -/
theorem addLocal (h : m.Adds m') {l : LocalId} (hle : m.locals.length ≤ l)
    (hlt : l < m'.locals.length) :
    m.Adds (m'.addLocal m.scopes.length l).2 := by
  rw [Scopes.addLocal]
  split
  · exact h
  · refine ⟨h.extended.trans (.modifyScope _ _ (· ++ [l])), fun t ht => ?_, h.locals, h.length_le,
      fun k hk => ?_⟩
    · rw [← h.scopes t ht]
      simp [localsOf, push, ht.symm]
    · have hk' : k ∈ m'.localsOf m.scopes.length ++ [l] := by
        cases hx : m'.scopes[m.scopes.length]? with
        | none => simp [localsOf, push, hx] at hk
        | some x => simpa [localsOf, push, hx] using hk
      rcases List.mem_append.mp hk' with hk | hk
      · exact h.own k hk
      · obtain rfl := List.mem_singleton.mp hk
        exact ⟨hle, hlt⟩

theorem addValue (h : m.Adds m') (name : String) (v : Option Value) :
    m.Adds (m'.addValue m.scopes.length name v).2 := by
  rw [Scopes.addValue]
  split
  · exact (h.newLocal _ name v).addLocal h.length_le (by simp [Scopes.newLocal])
  · rename_i l hl
    split
    · exact h
    · have hown := (h.own l (List.mem_of_find?_eq_some hl)).1
      refine ⟨h.extended.trans (.setValue _ _ _), h.scopes, fun k hk => ?_, ?_, fun k hk => ?_⟩
      · rw [← h.locals k hk]
        simp [Scopes.setValue, (hk.trans_le hown).ne']
      · simpa [Scopes.setValue] using h.length_le
      · simpa [Scopes.setValue] using h.own k hk

theorem addValues (h : m.Adds m') (vs : List (Value × Nat)) :
    m.Adds (vs.foldl (fun m'' p =>
      (m''.addValue m.scopes.length s!"arg{p.2}" (some p.1)).2) m') := by
  induction vs generalizing m' with
  | nil => exact h
  | cons p vs ih => exact ih (h.addValue _ _)

theorem grows (h : m.Adds m') : m.Grows m' := by
  refine ⟨List.prefix_iff_getElem?.mpr fun t ht => ?_, List.prefix_iff_getElem?.mpr fun l hl => ?_⟩
  · have ht' := ht.trans_le h.extended.length_le
    have hparent := h.extended.parentOf ht
    have hlocals := h.scopes t ht.ne
    simp only [parentOf, localsOf, List.getElem?_eq_getElem ht, List.getElem?_eq_getElem ht',
      Option.bind_some, Option.map_some, Option.getD_some] at hparent hlocals
    have heq : ∀ x y : LocalScope, x.parent = y.parent → x.locals = y.locals → x = y := by
      rintro ⟨p, ls⟩ ⟨q, ks⟩ hp hl
      cases hp
      cases hl
      rfl
    exact (List.getElem?_eq_getElem ht').trans (congrArg some (heq _ _ hparent hlocals))
  · rw [h.locals l hl, List.getElem?_eq_getElem hl]

end Scopes.Adds

/-- The scope of an activation is there, with its variables. -/
def Activation.Sound (a : Activation) (m : Memory) : Prop :=
  a.scope < m.scopes.scopes.length ∧ ∀ l ∈ m.scopes.localsOf a.scope, l < m.scopes.locals.length

instance (a : Activation) (m : Memory) : Decidable (a.Sound m) :=
  inferInstanceAs (Decidable (_ ∧ _))

/-- The natives of a host compute functions of their arguments. -/
structure Host.NativesAre (host : Host) (prims : Formula.Natives) : Prop where
  args : ∀ {x vs v} s, prims x vs = some v →
    Runtime.collectArgs (host.nativeArgs x) vs.length [] (vs.reverse ++ s) = .ok (vs, 0, s)
  apply : ∀ {x vs v} rt, prims x vs = some v → host.applyNative x vs rt = rt.push v

/-- What the call of a native does during an activation: it leaves its scope behind. -/
def Activation.nativeCall (a : Activation) (prims : Formula.Natives) : Application := fun f args m =>
  match f with
  | .native x =>
      if a.Sound m then
        (prims x args).map fun v => (v, ((a.state 0 [] m).enterNative args).memory)
      else none
  | _ => none

/-- The calls of the interpreter, with a bound on the steps. -/
def callsAt (cfg : Config) (host : Host) (n : Nat) : CallWithNArgs := fun f k rt =>
  Runtime.callWithNArgs (Runtime.call cfg host n) (Runtime.paramsOf host rt.memory f) f k rt

section Natives

open Gel.Runtime

variable {cfg : Config} {host : Host} {prims : Formula.Natives} {a : Activation} {m m' : Memory}
  {f v : Value} {args : List Value}

theorem nativeCall_eq_some (h : a.nativeCall prims f args m = some (v, m')) :
    ∃ x, f = .native x ∧ a.Sound m ∧ prims x args = some v ∧
      m' = ((a.state 0 [] m).enterNative args).memory := by
  cases f with
  | native x =>
      rw [Activation.nativeCall] at h
      split at h
      · rename_i hsound
        obtain ⟨w, hw, hpair⟩ := Option.map_eq_some_iff.mp h
        cases hpair
        exact ⟨x, rfl, hsound, hw, rfl⟩
      · cases h
  | _ => cases h

theorem enterNative_adds (rt : Runtime) (args : List Value) :
    rt.memory.scopes.Adds (rt.enterNative args).memory.scopes :=
  (Scopes.Adds.newScope rt.memory.scopes rt.scope).addValues _

theorem Activation.Sound.enterNative (h : a.Sound m) (args : List Value) :
    a.Sound ((a.state 0 [] m).enterNative args).memory := by
  have hadds := enterNative_adds (a.state 0 [] m) args
  refine ⟨h.1.trans_le hadds.extended.length_le, fun l hl => ?_⟩
  rw [hadds.scopes a.scope h.1.ne] at hl
  exact (h.2 l hl).trans_le hadds.length_le

theorem Activation.Sound.keeps (h : a.Sound m) (args : List Value) :
    a.Keeps m ((a.state 0 [] m).enterNative args).memory := by
  have hadds := enterNative_adds (a.state 0 [] m) args
  refine ⟨rfl, List.prefix_refl _, fun idx => ?_⟩
  have hslots : ((a.state 0 [] m).enterNative args).memory.scopes.localsOf a.scope
      = m.scopes.localsOf a.scope := hadds.scopes a.scope h.1.ne
  rw [Activation.slot, Activation.slot, Scopes.getLocalAt, Scopes.getLocalAt, hslots]
  cases hl : (m.scopes.localsOf a.scope)[idx.toNat]? with
  | none => rfl
  | some l =>
      have hlt := h.2 l (List.mem_of_getElem? hl)
      rw [Option.map_some, Option.map_some, Scopes.valueOf, Scopes.valueOf, hadds.locals l hlt]
      rfl

/-- A native that pushes its result hands it to its caller. -/
theorem call_native (hnatives : host.NativesAre prims) {x : Symbol} (hv : prims x args = some v)
    (k p : Nat) (s : List Value) :
    call cfg host (k + 1) (.native x) args (a.state p s m)
      = .ok (a.state p (v :: s) ((a.state 0 [] m).enterNative args).memory) := by
  have hcall : call cfg host (k + 1) (.native x) args (a.state p s m) = (do
      let rt ← host.applyNative x args ((a.state p s m).enterNative args)
      return (← rt.popFrame).popScope) := rfl
  have hparent : ((a.state 0 [] m).enterNative args).memory.scopes.parentOf m.scopes.scopes.length
      = some a.scope := by
    have hext : (m.scopes.newScope (some a.scope)).2.Extended
        ((a.state 0 [] m).enterNative args).memory.scopes :=
      .foldl _ _ fun _ _ => .addValue _ _ _ _
    rw [hext.parentOf (by simp [Scopes.newScope])]
    exact Gel.parentOf_newScope m.scopes a.scope
  rw [hcall, hnatives.apply _ hv]
  have hpop : (a.state p (v :: s) ((a.state 0 [] m).enterNative args).memory).scope
      = ((a.state 0 [] m).enterNative args).memory.scopes.parentOf m.scopes.scopes.length :=
    hparent.symm
  change Except.ok { a.state p (v :: s) ((a.state 0 [] m).enterNative args).memory with
    scope := ((a.state 0 [] m).enterNative args).memory.scopes.parentOf m.scopes.scopes.length } = _
  rw [← hpop]

/-- **The calls of natives** read as functions. -/
theorem readsAs_natives (hnatives : host.NativesAre prims) (a : Activation) (k : Nat) :
    ReadsAs (callsAt cfg host (k + 1)) a (a.nativeCall prims) := by
  refine ⟨fun {f args m v m'} p s h => ?_, fun {f args m v m'} h => ?_⟩
  · obtain ⟨x, rfl, -, hv, rfl⟩ := nativeCall_eq_some h
    rw [callsAt, callWithNArgs, Activation.stack?_state]
    change (collectArgs (host.nativeArgs x) args.length [] (args.reverse ++ s) >>= _) = _
    rw [hnatives.args s hv]
    change call cfg host (k + 1) (.native x) (args ++ List.replicate (-(0 : Int)).toNat .null)
      (a.state p s m) = _
    rw [show List.replicate (-(0 : Int)).toNat Value.null = [] from rfl, List.append_nil]
    exact call_native hnatives hv k p s
  · obtain ⟨x, rfl, hsound, -, rfl⟩ := nativeCall_eq_some h
    exact hsound.keeps args

end Natives

/-! ### Runs -/

section Runs

variable {host : Host} {callN callN' : CallWithNArgs} {region : Nat} {rt rt' : Runtime} {p : Nat}

/-- Calls that return return the same in the other way of calling. -/
def CallsWithin (callN callN' : CallWithNArgs) : Prop :=
  ∀ f n rt rt', callN f n rt = .ok rt' → callN' f n rt = .ok rt'

/-- A step is one with every way of calling in which its call returns. -/
theorem Interpreter.Steps.within (hle : CallsWithin callN callN')
    (h : Steps host callN region rt p rt') : Steps host callN' region rt p rt' := by
  refine ⟨h.1, ?_⟩
  have hstep := h.2
  rw [step] at hstep ⊢
  split at hstep
  · cases hstep
  · rename_i start code next hf
    split at hstep
    · rename_i hret
      rw [if_pos hret]
      exact hstep
    · rename_i hret
      rw [if_neg hret]
      obtain ⟨rt₁, hx, hout⟩ := result_map_eq_ok.mp hstep
      cases hout
      refine result_map_eq_ok.mpr ⟨_, ?_, rfl⟩
      cases hc : callee? code { rt with current := some ⟨region, next⟩ } with
      | none => exact (exec_of_no_callee callN' callN hc).trans hx
      | some q =>
          obtain ⟨f, n, rt₂⟩ := q
          rw [exec_of_callee hc] at hx ⊢
          exact hle _ _ _ _ hx

theorem run_within (hle : CallsWithin callN callN') {ps : List Nat}
    (h : Runs.Run (Steps host callN region) ps rt rt') :
    Runs.Run (Steps host callN' region) ps rt rt' := by
  induction h with
  | refl => exact .refl _
  | head hs _ ih => exact .head (hs.within hle) ih

/-- The loop follows a run. -/
theorem runWithin_of_run {ps : List Nat} (h : Runs.Run (Steps host callN region) ps rt rt')
    (k : Nat) :
    Runtime.runWithin host callN region (ps.length + k) rt
      = Runtime.runWithin host callN region k rt' := by
  induction h with
  | refl => rw [List.length_nil, Nat.zero_add]
  | head hs _ ih =>
      rw [List.length_cons, Nat.succ_add, Runtime.runWithin, hs.2]
      exact ih

/-- Calls within the least bound are calls within any other. -/
theorem callsAt_one_within (cfg : Config) (host : Host) (k : Nat) :
    CallsWithin (callsAt cfg host 1) (callsAt cfg host (k + 1)) := by
  intro f n rt rt' h
  rw [callsAt, Runtime.callWithNArgs_eq] at h ⊢
  obtain ⟨⟨args, rt₁⟩, hargs, h⟩ := result_bind_eq_ok.mp h
  refine result_bind_eq_ok.mpr ⟨(args, rt₁), hargs, ?_⟩
  cases f with
  | native x => exact h
  | lambda id =>
      change Runtime.call cfg host (0 + 1) (.lambda id) args rt₁ = _ at h
      rw [Runtime.call] at h
      dsimp only at h
      split at h
      · cases h
      · obtain ⟨⟨locals, rt₂⟩, -, h⟩ := result_bind_eq_ok.mp h
        obtain ⟨⟨region, rt₃⟩, -, h⟩ := result_bind_eq_ok.mp h
        obtain ⟨rt₄, hrun, -⟩ := result_bind_eq_ok.mp h
        cases hrun
  | _ => cases h

end Runs

/-! ### Calling a lambda without parameters -/

namespace Runtime

/-- The scopes when a lambda without parameters has been entered: a new one with the lambda. -/
def selfScopes (rt : Runtime) (id : Nat) (f : Lambda) : Scopes :=
  let (s, m) := rt.memory.scopes.newScope rt.scope
  let (l, m) := m.newLocal s ((f.symbol.map Symbol.fullyQualifiedName).getD "$") (some (.lambda id))
  (m.addLocal s l).2

/-- The memory then. -/
def entered (rt : Runtime) (id : Nat) (f : Lambda) : Memory :=
  { rt.memory with scopes := rt.selfScopes id f }

/-- The activation then. -/
def activation (rt : Runtime) (region : Nat) : Activation where
  region
  scope := rt.memory.scopes.scopes.length
  locals := rt.memory.scopes.scopes.length
  returnAddress := rt.current
  callers := rt.frames
  result := rt.result

variable {rt : Runtime} {id region : Nat} {f : Lambda}

theorem selfScopes_extended (rt : Runtime) (id : Nat) (f : Lambda) :
    (rt.memory.scopes.newScope rt.scope).2.Extended (rt.selfScopes id f) :=
  (Scopes.Extended.newLocal _ _ _ _).trans (.addLocal _ _ _)

theorem selfScopes_adds (rt : Runtime) (id : Nat) (f : Lambda) :
    rt.memory.scopes.Adds (rt.selfScopes id f) :=
  ((Scopes.Adds.newScope _ _).newLocal _ _ _).addLocal le_rfl
    (by simp [Scopes.newScope, Scopes.newLocal])

/-- The new scope has no variable of the lambda's name yet. -/
theorem addLocal_self (rt : Runtime) (id : Nat) (f : Lambda) (l : LocalId) :
    (((rt.memory.scopes.newScope rt.scope).2.newLocal rt.memory.scopes.scopes.length
      ((f.symbol.map Symbol.fullyQualifiedName).getD "$") (some (.lambda id))).2.addLocal
        rt.memory.scopes.scopes.length l).1 = true := by
  have hnone : ∀ x, ((rt.memory.scopes.newScope rt.scope).2.newLocal
      rt.memory.scopes.scopes.length ((f.symbol.map Symbol.fullyQualifiedName).getD "$")
        (some (.lambda id))).2.has rt.memory.scopes.scopes.length x = false := by
    intro x
    simp [Scopes.has, Scopes.lookupHere, Scopes.localsOf, Scopes.newScope, Scopes.newLocal]
  rw [Scopes.addLocal, if_neg]
  intro h
  obtain ⟨x, -, hx⟩ := (Option.any_eq_true _ _).mp h
  rw [hnone] at hx
  cases hx

theorem bindLambda_self (hargs : f.args = []) :
    bindLambda id f [] rt = .ok (rt.memory.scopes.scopes.length,
      { rt with scope := some rt.memory.scopes.scopes.length, memory := rt.entered id f }) := by
  have hok := addLocal_self rt id f rt.memory.scopes.locals.length
  rw [bindLambda, hargs]
  dsimp only [pushScope, Scopes.newScope, Scopes.newLocal] at hok ⊢
  rw [hok]
  rfl

/-- **The call of a lambda without parameters** whose code runs to a return. -/
theorem call_self {cfg : Config} {host : Host} (hevents : ∀ rt, host.runEvents rt = .ok rt)
    (hf : rt.memory.lambdas[id]? = some f) (hcode : f.code = some region) (hargs : f.args = [])
    {v : Value} {m : Memory}
    (hrun : RunsToReturn host (callsAt cfg host 1) (rt.activation region) (rt.entered id f) v m)
    (hext : (rt.selfScopes id f).Extended m.scopes) :
    ∃ N rt', (∀ n, N ≤ n → call cfg host n (.lambda id) [] rt = .ok rt') ∧ rt.Balanced v rt' ∧
      rt'.memory = m := by
  obtain ⟨ps, q, s, next, hsteps, hret, hv⟩ := hrun
  obtain ⟨rt₃, hpop⟩ : ∃ rt₃, ((rt.activation region).state next s m).popFrame = .ok rt₃ := ⟨_, rfl⟩
  have hloop : ∀ k, ps.length + 1 ≤ k → runWithin host (callsAt cfg host k) region k
      ((rt.activation region).state 0 [] (rt.entered id f))
        = .ok ((rt.activation region).state next s m) := by
    intro k hk
    obtain ⟨j, rfl⟩ := Nat.exists_eq_add_of_le hk
    have hwithin := run_within (callsAt_one_within cfg host (ps.length + j)) hsteps
    rw [show ps.length + 1 + j = ps.length + j + 1 by omega]
    refine Eq.trans (runWithin_of_run hwithin (j + 1)) ?_
    rw [runWithin, step, hret]
    dsimp only
    rw [if_pos rfl, hevents]
    rfl
  have hentered : Entered rt rt.memory.scopes.scopes.length
      ((rt.activation region).state 0 [] (rt.entered id f)) :=
    ⟨rfl, rfl, selfScopes_extended rt id f, rfl⟩
  have hstays : Stays ((rt.activation region).state 0 [] (rt.entered id f))
      ((rt.activation region).state next s m) := ⟨rfl, hext, s, rfl⟩
  have hbalanced := hentered.balanced hstays hpop
  refine ⟨ps.length + 2, rt₃.popScope, fun n hn => ?_, hv ▸ hbalanced, popFrame_memory hpop⟩
  obtain ⟨k, rfl⟩ := Nat.exists_eq_succ_of_ne_zero (Nat.ne_of_gt (Nat.zero_lt_of_lt hn))
  have hf' : (rt.entered id f).lambdas[id]? = some f := hf
  have hcompiled : compileLambda cfg k id rt.memory.scopes.scopes.length { rt with
      scope := some rt.memory.scopes.scopes.length, memory := rt.entered id f }
        = .ok (region, { rt with
            scope := some rt.memory.scopes.scopes.length, memory := rt.entered id f }) := by
    rw [compileLambda, hf']
    dsimp only
    rw [hcode]
  rw [call]
  dsimp only
  rw [hf]
  dsimp only
  rw [bindLambda_self hargs]
  change (compileLambda cfg k id rt.memory.scopes.scopes.length { rt with
    scope := some rt.memory.scopes.scopes.length, memory := rt.entered id f } >>= _) = _
  rw [hcompiled]
  change (runWithin host (callsAt cfg host k) region k
    ((rt.activation region).state 0 [] (rt.entered id f)) >>= _) = _
  rw [hloop k (Nat.le_of_succ_le_succ hn)]
  exact result_bind_eq_ok.mpr ⟨_, rfl, result_bind_eq_ok.mpr ⟨_, hpop, rfl⟩⟩

end Runtime

/-! ### Compiling -/

/-- The scope in which `Eval` compiles what it has parsed in a scope. -/
def evalNames (m : Scopes) (s : ScopeId) : Names :=
  (((m.newScope (some s)).2.newScope (some m.scopes.length)).2, m.scopes.length + 1)

/-- The code of an expression that is compiled in a scope is not too long for the jumps in it, and
its objects are not too many for the addresses. -/
def EvalFits (cfg : Config) (e : Expr) (s : ScopeId) (m : Memory) : Prop :=
  ∀ is, Compiled (visitLambda { cfg with runtimeScope := s } none [e]) (builderFor m s none) is →
    Layout.size is < 2 ^ 63 ∧ (m.objects ++ Layout.refs is).length ≤ 2 ^ 64

/-- It is enough that the emission with some fuel fits. -/
theorem evalFits_of_emission {cfg : Config} {e : Expr} {s : ScopeId} {m : Memory} {n : Nat}
    (h : (((build (visitLambda { cfg with runtimeScope := s } none [e])).run
      (builderFor m s none)).bind fun r => emission r.2.graph n (some r.1)).any (fun is =>
        decide (Layout.size is < 2 ^ 63 ∧ (m.objects ++ Layout.refs is).length ≤ 2 ^ 64)) = true) :
    EvalFits cfg e s m := by
  obtain ⟨is, his, hfits⟩ := (Option.any_eq_true _ _).mp h
  obtain ⟨⟨entry, b⟩, hbuild, hem⟩ := Option.bind_eq_some_iff.mp his
  intro is' his'
  obtain rfl := his'.functional ⟨entry, b, hbuild, emits_of_emission hem⟩
  exact of_decide_eq_true hfits

/-- An expression that is visited as a core expression is. -/
def VisitedAs (e : Expr) (x : CoreExpr) : Prop :=
  ∀ cfg, visit cfg .value e {} = visit cfg .value x.toExpr {}

theorem VisitedAs.refl (x : CoreExpr) : VisitedAs x.toExpr x := fun _ => rfl

/-- As the body of a lambda it is compiled as that core expression. -/
theorem VisitedAs.visitLambda {e : Expr} {x : CoreExpr} (h : VisitedAs e x) (cfg : Config)
    (scope : Option ScopeId) : visitLambda cfg scope [e] = visitLambda cfg scope [x.toExpr] := by
  have hbody : ∀ v, visitLambdaBody cfg [e] v = visitLambdaBody cfg [x.toExpr] v := by
    intro v
    rw [visitLambdaBody, visitLambdaBody, h cfg]
  funext v
  rw [FlowGraphBuilder.visitLambda, FlowGraphBuilder.visitLambda]
  simp only [hbody]

theorem scopes_of_appendInstr {i k : InstrId} {b b' : Builder}
    (hrun : appendInstr i k b = some ((), b')) : b'.scopes = b.scopes := by
  rw [appendInstr, Partial.get_bind] at hrun
  cases hg : b.graph.append i k with
  | none =>
      simp only [hg] at hrun
      cases hrun
  | some g =>
      simp only [hg] at hrun
      cases hrun
      rfl

theorem scopes_of_appendFragment {i : InstrId} {v : Visitor} {b b' : Builder}
    (hrun : appendFragment i v b = some ((), b')) : b'.scopes = b.scopes := by
  cases hv : v.entry with
  | none =>
      rw [appendFragment, hv] at hrun
      cases hrun
      rfl
  | some k =>
      rw [appendFragment, hv] at hrun
      exact scopes_of_appendInstr hrun

/-- A core expression is compiled as the body of a lambda in two new scopes. -/
theorem scopes_of_core {cfg : Config} {e : Expr} {x : CoreExpr} (hx : VisitedAs e x)
    {s : ScopeId} {m : Memory} {entry : InstrId} {b : Builder}
    (hbuild : build (visitLambda { cfg with runtimeScope := s } none [e]) (builderFor m s none)
      = some (entry, b)) : b.scopes = (evalNames m.scopes s).1 := by
  have hfresh : (builderFor m s none).Fresh := fun _ _ => rfl
  rw [hx.visitLambda] at hbuild
  have hbuilt : build (FlowGraphBuilder.visitLambda { cfg with runtimeScope := s } none [x.toExpr])
      (builderFor m s none) = (do
        appendFragment ((builderFor m s none).allocBlock .graphEntry).graph.size
          (← FlowGraphBuilder.visitLambda { cfg with runtimeScope := s } none [x.toExpr] {})
        appendInstr (builderFor m s none).graph.size
          ((builderFor m s none).allocBlock .graphEntry).graph.size
        return (builderFor m s none).graph.size : Build InstrId) (builderFor m s none).entered := rfl
  rw [hbuilt] at hbuild
  obtain ⟨v, b₁, hvisit, hbuild⟩ := Partial.bind_eq_some.mp hbuild
  obtain ⟨⟨⟩, b₂, happ, hbuild⟩ := Partial.bind_eq_some.mp hbuild
  obtain ⟨⟨⟩, b₃, happ', hbuild⟩ := Partial.bind_eq_some.mp hbuild
  cases hbuild
  rw [scopes_of_appendInstr happ', scopes_of_appendFragment happ]
  -- the visitor itself, in the second new scope
  let b₀ : Builder := { (builderFor m s none).entered with
    scopes := (evalNames m.scopes s).1, scope := (evalNames m.scopes s).2 }
  have hfresh₀ : b₀.Fresh := Builder.fresh_entered hfresh
  obtain ⟨v', b', c, hbody, hgrown, -⟩ :=
    lambdaBodyFor { cfg with runtimeScope := s } ⟨[], .core x⟩ hfresh₀
  have hlambda : FlowGraphBuilder.visitLambda { cfg with runtimeScope := s } none [x.toExpr] {}
      (builderFor m s none).entered = (do
        let v ← visitLambdaBody { cfg with runtimeScope := s } [x.toExpr] {}
        popScope
        return v : Build Visitor) b₀ := by
    have hnames : lambdaNames (builderFor m s none).scopes (builderFor m s none).scope none
        = some (evalNames m.scopes s) := by
      simp [lambdaNames, evalNames, builderFor, Scopes.newScope]
    exact visitLambda_run (show lambdaNames (builderFor m s none).entered.scopes
      (builderFor m s none).entered.scope none = _ from hnames)
  rw [hlambda] at hvisit
  obtain ⟨v₁, b₄, hrun, hvisit⟩ := Partial.bind_eq_some.mp hvisit
  obtain ⟨⟨⟩, b₅, hpop, hvisit⟩ := Partial.bind_eq_some.mp hvisit
  cases hvisit
  cases hbody.symm.trans hrun
  have hscopes : b₁.scopes = b'.scopes := by
    rw [popScope, Partial.get_bind] at hpop
    cases hp : b'.scopes.parentOf b'.scope with
    | none =>
        rw [hp] at hpop
        cases hpop
    | some p =>
        rw [hp] at hpop
        cases hpop
        rfl
  exact hscopes.trans hgrown.grown.scopes

/-- **Compiling** what is visited as a core expression, as the body of a lambda. -/
theorem compileTarget_core {cfg : Config} {e : Expr} {x : CoreExpr} (hx : VisitedAs e x)
    {s : ScopeId} {m : Memory} (hfits : EvalFits cfg e s m) :
    ∃ N g t c lo hi m', (∀ n, N ≤ n → compileTarget n
        (visitLambda { cfg with runtimeScope := s } none [e]) s none m
          = some (m.regions.length, m')) ∧
      Loaded (.visit g :: .visit t :: c) m.regions.length m' ∧
      ProcedureFor ⟨[], .core x⟩ (evalNames m.scopes s) [] c lo hi ∧
      m'.scopes = (evalNames m.scopes s).1 := by
  have hfresh : (builderFor m s none).Fresh := fun _ _ => rfl
  have hnames : lambdaNames (builderFor m s none).scopes (builderFor m s none).scope none
      = some (evalNames m.scopes s) := by
    simp [lambdaNames, evalNames, builderFor, Scopes.newScope]
  obtain ⟨g, t, c, lo, hi, hcompiled, hproc⟩ :=
    compiled_lambda_body { cfg with runtimeScope := s } ⟨[], .core x⟩ hfresh hnames
  have hcompiled : Compiled (visitLambda { cfg with runtimeScope := s } none [e])
      (builderFor m s none) (.visit g :: .visit t :: c) := by
    rw [hx.visitLambda]
    exact hcompiled
  obtain ⟨hsize, hobjects⟩ := hfits _ hcompiled
  obtain ⟨entry, b, hbuild, hem⟩ := hcompiled
  obtain ⟨N, hN⟩ := iterate_of_emits hem
  obtain ⟨w, d, hd, hlaid⟩ := Layout.runItems_laid m.objects hsize
  refine ⟨N, g, t, c, lo, hi, { m with
    scopes := b.scopes, nextObject := b.nextObject, objects := d.assembler.objects
    regions := m.regions ++ [d.assembler.buffer] }, fun n hn => ?_, ?_, hproc,
    scopes_of_core hx hbuild⟩
  · refine Option.bind_eq_some_iff.mpr ⟨(entry, b), hbuild, ?_⟩
    exact Option.bind_eq_some_iff.mpr ⟨d, (hN n hn _).trans hd, rfl⟩
  · refine ⟨m.objects, w, d, hlaid, by simp, List.prefix_refl _, hsize, ?_⟩
    rw [hlaid.objects]
    exact hobjects

/-- **Compiling a lambda** that has nothing but this body. -/
theorem Runtime.compileLambda_core {cfg : Config} {e : Expr} {x : CoreExpr} (hx : VisitedAs e x)
    {rt : Runtime} {id : Nat} {s : ScopeId} (hf : rt.memory.lambdas[id]? = some { body := [e] })
    (hfits : EvalFits cfg e s rt.memory) :
    ∃ N region g t c lo hi m, (∀ n, N ≤ n →
        Runtime.compileLambda cfg n id s rt = .ok (region, { rt with memory := m })) ∧
      Loaded (.visit g :: .visit t :: c) region m ∧
      ProcedureFor ⟨[], .core x⟩ (evalNames rt.memory.scopes s) [] c lo hi ∧
      m.lambdas[id]? = some { body := [e], code := some region } ∧
      m.scopes = (evalNames rt.memory.scopes s).1 := by
  obtain ⟨N, g, t, c, lo, hi, m, hcompile, hloaded, hproc, hscopes⟩ := compileTarget_core hx hfits
  have hlambdas : m.lambdas = rt.memory.lambdas :=
    (FlowGraphCompiler.compileTarget_kept (steps_visitLambda _ none [e] {})
      (hcompile N le_rfl)).2.1
  let f : Lambda := { body := [e], code := some rt.memory.regions.length }
  refine ⟨N, rt.memory.regions.length, g, t, c, lo, hi,
    { m with lambdas := m.lambdas.set id f }, fun n hn => ?_,
    hloaded.mono rfl (List.prefix_refl _), hproc, ?_, hscopes⟩
  · rw [Runtime.compileLambda, hf]
    dsimp only
    rw [if_neg (by simp), hcompile n hn]
  · rw [hlambdas]
    exact List.getElem?_set_self (List.getElem?_eq_some_iff.mp hf).1

/-! ### The value of a text -/

/-- What a name means in a scope. -/
def Scopes.meaning (m : Scopes) (s : ScopeId) (x : Symbol) : Option Value :=
  (m.lookup s x.fullyQualifiedName).bind m.valueOf

/-- What the names that are bound to natives compute. -/
def Scopes.natives (m : Scopes) (s : ScopeId) (prims : Formula.Natives) : Formula.Natives :=
  fun f vs => match m.meaning s f with
    | some (.native x) => prims x vs
    | _ => none

/-- No parameters, and the procedures that names are bound to. -/
def Env.ofNames (names : Names) : Env where
  param _ := none
  procedure t := match names.1.literalInstr names.2 t with
    | .constant f => if f.isProcedure then some f else none
    | _ => none

theorem Env.ofNames_holds (names : Names) (a : Activation) (m : Memory) :
    (Env.ofNames names).Holds names.1 names.2 a m := by
  refine ⟨nofun, fun {t f} h => ?_⟩
  rw [Env.ofNames] at h
  dsimp only at h
  split at h
  · rename_i f' hf'
    split at h
    · rename_i hproc
      cases h
      exact ⟨hf', hproc⟩
    · cases h
  · cases h

/-- The names of `Eval`'s scope mean the same where its lambda is compiled. -/
theorem lookup_evalNames {m : Scopes} (hm : m.Rooted) {s : ScopeId} (hs : s < m.scopes.length)
    (name : String) : (evalNames m s).1.lookup (evalNames m s).2 name = m.lookup s name := by
  have hnew : (m.newScope (some s)).2.Rooted := by
    refine hm.newScope [] ?_
    rintro p ⟨⟩
    exact hs
  have hlength : (m.newScope (some s)).2.scopes.length = m.scopes.length + 1 := by
    simp [Scopes.newScope]
  have hlt : m.scopes.length < (m.newScope (some s)).2.scopes.length := by
    rw [hlength]
    exact Nat.lt_succ_self _
  have hinner := hnew.lookup_newScope hlt name
  rw [hlength] at hinner
  exact hinner.trans (hm.lookup_newScope hs name)

theorem procedure_evalNames {m : Scopes} (hm : m.Rooted) {s : ScopeId} (hs : s < m.scopes.length)
    {f x : Symbol} (h : m.meaning s f = some (.native x)) :
    (Env.ofNames (evalNames m s)).procedure (.symbol f) = some (.native x) := by
  obtain ⟨l, hl, hv⟩ := Option.bind_eq_some_iff.mp h
  have hinstr : (evalNames m s).1.literalInstr (evalNames m s).2 (.symbol f)
      = .constant (.native x) := by
    have hv' : (evalNames m s).1.valueOf l = some (.native x) := hv
    rw [Scopes.literalInstr, lookup_evalNames hm hs, hl]
    dsimp only
    rw [hv']
  rw [Env.ofNames]
  dsimp only
  rw [hinstr]
  rfl

theorem callsAre_natives {prims : Formula.Natives} {m m₁ : Scopes} (hm : m.Rooted) {s : ScopeId}
    (hs : s < m.scopes.length) (a : Activation) :
    Formula.CallsAre (m.natives s prims) (Env.ofNames (evalNames m s)) (a.nativeCall prims)
      fun m' => a.Sound m' ∧ m₁.Grows m'.scopes := by
  rintro f args v m' hv ⟨hsound, hgrows⟩
  rw [Scopes.natives] at hv
  split at hv
  · rename_i x hx
    refine ⟨.native x, _, procedure_evalNames hm hs hx, ?_, hsound.enterNative args,
      hgrows.trans (enterNative_adds (a.state 0 [] m') args).grows⟩
    rw [Activation.nativeCall, if_pos hsound, hv]
    rfl
  · cases hv

theorem Runtime.activation_sound (rt : Runtime) (region id : Nat) (f : Lambda) :
    (rt.activation region).Sound (rt.entered id f) := by
  refine ⟨?_, fun l hl => ((rt.selfScopes_adds id f).own l hl).2⟩
  refine Nat.lt_of_lt_of_le ?_ (rt.selfScopes_extended id f).length_le
  simp [Runtime.activation, Scopes.newScope]

/-- In the code of `Eval` a core expression has a value, and at most scopes and variables are added
for it. -/
def Yields (prims : Formula.Natives) (names : Names) (x : CoreExpr) (v : Value) : Prop :=
  ∀ {a : Activation} {m : Memory}, a.Sound m → ∃ m',
    x.eval (Env.ofNames names) (a.nativeCall prims) m = some (v, m') ∧ m.scopes.Grows m'.scopes

/-- **Compiling and calling** a lambda whose body has a value. -/
theorem Runtime.compile_call {cfg : Config} {host : Host} {prims : Formula.Natives}
    (hevents : ∀ rt, host.runEvents rt = .ok rt) (hnatives : host.NativesAre prims) {e : Expr}
    {x : CoreExpr} (hx : VisitedAs e x) {rt : Runtime} {id : Nat} {s : ScopeId}
    (hf : rt.memory.lambdas[id]? = some { body := [e] })
    (hfits : EvalFits cfg e s rt.memory) {v : Value}
    (hv : Yields prims (evalNames rt.memory.scopes s) x v) :
    ∃ N region rt₁ rt₂, (∀ n, N ≤ n →
        Runtime.compileLambda cfg n id s rt = .ok (region, rt₁) ∧
        Runtime.call cfg host n (.lambda id) [] rt₁ = .ok rt₂) ∧
      rt.Balanced v rt₂ ∧ rt.memory.scopes.Grows rt₂.memory.scopes := by
  obtain ⟨N₁, region, g, t, c, lo, hi, m, hcompile, hloaded, hproc, hf', hscopes⟩ :=
    Runtime.compileLambda_core hx hf hfits
  let rt₁ : Runtime := { rt with memory := m }
  let f : Lambda := { body := [e], code := some region }
  let a := rt₁.activation region
  obtain ⟨m', he, hgrows⟩ := hv (rt₁.activation_sound region id f)
  have hbody : (Body.mk [] (.core x)).eval (Env.ofNames (evalNames rt.memory.scopes s))
      (a.nativeCall prims) (rt₁.entered id f) = some ([], [v], m') := by
    simp [Body.eval, Last.eval, CoreExpr.evalAll, he, a]
  have hreads : ReadsAs (callsAt cfg host 1) a (a.nativeCall prims) := readsAs_natives hnatives a 0
  have hret := lambda_returns host hproc hreads (Env.ofNames_holds _ a (rt₁.entered id f)) hbody
    (hloaded.mono rfl (List.prefix_refl _))
  obtain ⟨N₂, rt₂, hcall, hbalanced, hm'⟩ :=
    Runtime.call_self hevents hf' rfl rfl hret hgrows.extended
  refine ⟨N₁ + N₂, region, rt₁, rt₂, fun n hn => ⟨hcompile n ?_, hcall n ?_⟩, ?_, ?_⟩
  · exact (Nat.le_add_right _ _).trans hn
  · exact (Nat.le_add_left _ _).trans hn
  · exact ⟨hbalanced.scope, hbalanced.frames, hbalanced.result, hbalanced.current⟩
  · have hcompiled : rt.memory.scopes.Grows rt₁.memory.scopes := by
      change rt.memory.scopes.Grows m.scopes
      rw [hscopes]
      exact (Scopes.Grows.newScope _ _).trans (.newScope _ _)
    rw [hm']
    exact (hcompiled.trans (rt₁.selfScopes_adds id f).grows).trans hgrows

/-- `Eval` of a text gives a value, with any large enough bound on the steps, and leaves the macros,
the current scope and the stack of frames as they were. -/
def EvaluatesTo (cfg : Config) (reg : Registry) (host : Host) (text : String) (macros : List Macro)
    (rt : Runtime) (v : Value) : Prop :=
  ∃ N rt', (∀ n, N ≤ n →
      Runtime.eval cfg reg host n text ⟨macros, false⟩ rt = .ok (v, ⟨macros, false⟩, rt')) ∧
    rt'.scope = rt.scope ∧ rt'.frames = rt.frames ∧ ∀ x, rt.current = some x → rt'.current = some x

/-- A text evaluates to the value of the expression the parser makes of it, where that is visited as
a core expression and has no macro call to expand. -/
theorem evaluatesTo_of_parsed {cfg : Config} {reg : Registry} {host : Host}
    {prims : Formula.Natives} (hevents : ∀ rt, host.runEvents rt = .ok rt)
    (hnatives : host.NativesAre prims) {rt : Runtime} {text : String} {e : Expr} {x : CoreExpr}
    {k : Nat} (hparse : ∀ n, k ≤ n → Runtime.parseExpr reg n text rt.enterEval.1
      rt.enterEval.2.2.memory = .ok (some e, rt.enterEval.2.2.memory))
    (hsees : ∀ m,
      ¬e.Sees (MacroExpander.forBody rt.enterEval.2.2.memory.scopes rt.enterEval.1 none) m)
    (hx : VisitedAs e x) (hfits : EvalFits cfg e rt.enterEval.1 rt.enterEval.2.2.memory) {v : Value}
    (hv : Yields prims (evalNames rt.enterEval.2.2.memory.scopes rt.enterEval.1) x v)
    (macros : List Macro) : EvaluatesTo cfg reg host text macros rt v := by
  let m := Runtime.setBody rt.enterEval.2.1 [e] rt.enterEval.2.2.memory
  let rt₀ : Runtime := { rt.enterEval.2.2 with memory := m }
  have hf : rt₀.memory.lambdas[rt.enterEval.2.1]? = some { body := [e] } := by
    simp [rt₀, m, Runtime.setBody, Runtime.enterEval, Runtime.pushScope]
  obtain ⟨N, region, rt₁, rt₂, hrun, hbalanced, hgrows⟩ :=
    Runtime.compile_call hevents hnatives hx hf hfits hv
  obtain ⟨hvalue, hscope₂, hframes, hcurrent⟩ := hbalanced.takeResult
  refine ⟨k + N + 1, rt₂.takeResult.2.popScope, fun n hn => ?_, ?_, hframes, hcurrent⟩
  · obtain ⟨hcompile, hcall⟩ := hrun n (by omega)
    have hexpand := Runtime.expandBody_self hsees (show 0 < n by omega) macros
    change (Runtime.parseExpr reg n text rt.enterEval.1 rt.enterEval.2.2.memory >>= _) = _
    rw [hparse n (by omega)]
    refine result_bind_eq_ok.mpr ⟨_, rfl, result_bind_eq_ok.mpr ⟨_, hexpand, ?_⟩⟩
    refine result_bind_eq_ok.mpr ⟨_, hcompile, result_bind_eq_ok.mpr ⟨_, hcall, ?_⟩⟩
    rw [← hvalue]
    rfl
  · have hparent : rt₂.memory.scopes.parentOf rt.memory.scopes.scopes.length = rt.scope := by
      rw [((enterEval_spec rt).1.trans hgrows.extended).parentOf (by simp [Scopes.newScope])]
      simp [Scopes.newScope, Scopes.parentOf]
    change rt₂.takeResult.2.scope.bind rt₂.takeResult.2.memory.scopes.parentOf = rt.scope
    rw [hscope₂, takeResult_memory]
    exact hparent

/-- The value of a formula in the code of `Eval`. -/
theorem Formula.yields {reg : Registry} {prims : Formula.Natives} {m : Scopes}
    (hm : m.Rooted) {s : ScopeId} (hs : s < m.scopes.length) (e : Formula reg) {v : Value}
    (hv : e.value (m.natives s prims) = some v) :
    Yields prims (evalNames m s) e.toCore v := by
  intro a m₁ ha
  have hcalls : Formula.CallsAre (m.natives s prims) (Env.ofNames (evalNames m s))
      (a.nativeCall prims) fun m' => a.Sound m' ∧ m₁.scopes.Grows m'.scopes :=
    callsAre_natives hm hs a
  obtain ⟨m', he, -, hgrows⟩ := Formula.eval_of_value hcalls e hv ⟨ha, .refl _⟩
  exact ⟨m', he, hgrows⟩

namespace Evaluating.Sample

/-- `x ↦ x + x` on whole numbers. -/
def twice : List Value → Option Value
  | [.long n] => some (.long (n + n))
  | _ => none

def prims : Formula.Natives := fun f vs => if f.name = "twice" then twice vs else none

def host : Host := { Host.bare with
  nativeArgs := fun _ => [{ name := "x" }]
  applyNative := fun f vs rt => ((prims f vs).map rt.push).getD (.error .undefined) }

/-- `(cond ((= (twice 3) 6) (+ 1 2 3)) 0)` -/
def formula : Formula {} :=
  .cond
    (.nary ⟨(['='], .equals), by decide⟩
      (.call { first := 't', others := ['w', 'i', 'c', 'e'], letter := rfl,
               word := List.all_eq_true.mp rfl, fits := by decide,
               not_keyword := by decide, not_class := rfl }
        [.literal (.long 3 (by decide))])
      (.literal (.long 6 (by decide))) [])
    (.nary ⟨(['+'], .add), by decide⟩ (.literal (.long 1 (by decide)))
      (.literal (.long 2 (by decide))) [.literal (.long 3 (by decide))])
    (.literal (.long 0 (by decide)))

/-- A scope with the native. -/
def start : Runtime where
  memory :=
    { scopes :=
        { locals := [{ name := "twice", index := 0, value := some (.native { name := "twice" }) }]
          scopes := [{ parent := none, locals := [0] }] } }
  scope := some 0

theorem twice_eq_some {vs : List Value} {v : Value} (h : twice vs = some v) :
    ∃ n, vs = [.long n] := by
  unfold twice at h
  split at h
  · exact ⟨_, rfl⟩
  · cases h

theorem nativesAre : host.NativesAre prims where
  args {x vs v} s h := by
    rw [prims] at h
    split at h
    · obtain ⟨n, rfl⟩ := twice_eq_some h
      rfl
    · cases h
  apply {x vs v} rt h := by
    change ((prims x vs).map rt.push).getD (.error .undefined) = _
    rw [h]
    rfl

theorem rooted : start.Rooted := by
  refine ⟨fun s p hp => ?_, fun s hs => ?_⟩
  · cases s with
    | zero => cases hp
    | succ s => cases hp
  · cases hs
    exact Nat.zero_lt_one

end Evaluating.Sample

end Gel
