import Gel.Repl

/-!
# Sessions — what a session answers

What a line evaluates to does not depend on the lines before it as long as these only compute: they
add scopes and variables that no later line can name.

* `Ends.unique`: what returns has no other end.
* `Runtime.Follows`: later states of such a session, in which names mean what they meant.
* `session_answers`: a session of formulas is answered with their values.
-/

namespace Gel

open Faulting FlowGraphBuilder FlowGraphCompiler Gel.Runtime

/-! ### What returns returns once -/

/-- The code that is compiled does not depend on the bound. -/
theorem compileTarget_functional {fuel fuel' : Nat} {visitor : Visitor → Build Visitor}
    {scope : ScopeId} {execScope : Option ScopeId} {m : Memory} {p q : Nat × Memory}
    (h : compileTarget fuel visitor scope execScope m = some p)
    (h' : compileTarget fuel' visitor scope execScope m = some q) : p = q := by
  obtain ⟨⟨entry, b⟩, hbuild, h⟩ := Option.bind_eq_some_iff.mp h
  obtain ⟨c, hiter, h⟩ := Option.bind_eq_some_iff.mp h
  obtain ⟨r, hbuild', h'⟩ := Option.bind_eq_some_iff.mp h'
  cases hbuild.symm.trans hbuild'
  obtain ⟨c', hiter', h'⟩ := Option.bind_eq_some_iff.mp h'
  obtain ⟨is, hem, hc⟩ := emits_of_iterate hiter
  obtain ⟨is', hem', hc'⟩ := emits_of_iterate hiter'
  obtain rfl := hem.functional hem'
  cases hc.symm.trans hc'
  cases h
  cases h'
  rfl

theorem compileLambda_functional {cfg : Config} {fuel fuel' id : Nat} {locals : ScopeId}
    {rt : Runtime} {p q : Nat × Runtime} (h : compileLambda cfg fuel id locals rt = .ok p)
    (h' : compileLambda cfg fuel' id locals rt = .ok q) : p = q := by
  cases hf : rt.memory.lambdas[id]? with
  | none =>
      rw [compileLambda, hf] at h
      cases h
  | some f =>
      rw [compileLambda, hf] at h h'
      dsimp only at h h'
      cases hcode : f.code with
      | some r =>
          rw [hcode] at h h'
          cases h
          cases h'
          rfl
      | none =>
          rw [hcode] at h h'
          dsimp only at h h'
          split at h
          · cases h
          · rename_i hbody
            rw [if_neg hbody] at h'
            split at h
            · cases h
            · rename_i r m hm
              split at h'
              · cases h'
              · rename_i r' m' hm'
                cases compileTarget_functional hm hm'
                cases h
                cases h'
                rfl

variable {W : World} {a b : Activity} {rt rt₁ rt₂ rt' : Runtime} {e : Exit}

/-- A callee is entered in one way. -/
theorem Enters.unique {c : Callee} (h : Enters W c rt a rt₁) (h' : Enters W c rt b rt₂) :
    a = b ∧ rt₁ = rt₂ := by
  cases h with
  | lambda hf hbind hcode =>
      cases h' with
      | lambda hf' hbind' hcode' =>
          cases hf.symm.trans hf'
          cases hbind.symm.trans hbind'
          cases compileLambda_functional hcode hcode'
          exact ⟨rfl, rfl⟩
  | native =>
      cases h'
      exact ⟨rfl, rfl⟩
  | script hf hcode =>
      cases h' with
      | script hf' hcode' =>
          cases hf.symm.trans hf'
          cases hcode.symm.trans hcode'
          exact ⟨rfl, rfl⟩

/-- **What returns has no other end.** -/
theorem Ends.unique (h : Ends W a rt (.returned rt')) (h' : Ends W a rt e) : e = .returned rt' := by
  generalize he : Exit.returned rt' = e₀ at h
  induction h generalizing rt' e with
  | step hf hc hret hx hrun ih =>
      cases h' with
      | step hf' hc' hret' hx' hrun' =>
          cases hf.symm.trans hf'
          cases hx.symm.trans hx'
          exact ih hrun' he
      | stepThrows hf' hc' hret' hx' =>
          cases hf.symm.trans hf'
          cases hx.symm.trans hx'
      | invoke hf' hc' | invokeThrows hf' hc' =>
          cases hf.symm.trans hf'
          cases hc.symm.trans hc'
      | ret hf' =>
          cases hf.symm.trans hf'
          exact absurd rfl hret
  | invoke hf hc hargs hcall hrun ihcall ihrun =>
      cases h' with
      | step hf' hc' | stepThrows hf' hc' =>
          cases hf.symm.trans hf'
          cases hc.symm.trans hc'
      | invoke hf' hc' hargs' hcall' hrun' =>
          cases hf.symm.trans hf'
          cases hc.symm.trans hc'
          cases hargs.symm.trans hargs'
          cases ihcall hcall' rfl
          exact ihrun hrun' he
      | invokeThrows hf' hc' hargs' hcall' =>
          cases hf.symm.trans hf'
          cases hc.symm.trans hc'
          cases hargs.symm.trans hargs'
          cases ihcall hcall' rfl
      | ret hf' =>
          cases hf.symm.trans hf'
          cases hc
  | ret hf hevents ih =>
      cases h' with
      | step hf' hc' hret' =>
          cases hf.symm.trans hf'
          exact absurd rfl hret'
      | stepThrows hf' hc' hret' =>
          cases hf.symm.trans hf'
          exact absurd rfl hret'
      | invoke hf' hc' | invokeThrows hf' hc' =>
          cases hf.symm.trans hf'
          cases hc'
      | ret hf' hevents' =>
          cases hf.symm.trans hf'
          exact ih hevents' he
  | done =>
      cases h'
      rfl
  | access h ih =>
      cases h' with
      | access h' => exact ih h' he
  | push hpush h ih =>
      cases h' with
      | push hpush' h' =>
          cases hpush.symm.trans hpush'
          exact ih h' he
  | callback hcall h ihcall ih =>
      cases h' with
      | callback hcall' h' =>
          cases ihcall hcall' rfl
          exact ih h' he
      | callbackThrows hcall' => cases ihcall hcall' rfl
  | callPop hcall h ihcall ih =>
      cases h' with
      | callPop hcall' h' =>
          cases ihcall hcall' rfl
          exact ih h' he
      | callPopThrows hcall' => cases ihcall hcall' rfl
  | call henter hbody hpop ih =>
      cases h' with
      | call henter' hbody' hpop' =>
          obtain ⟨rfl, rfl⟩ := henter.unique henter'
          cases ih hbody' rfl
          cases hpop.symm.trans hpop'
          rfl
      | callThrows henter' hbody' =>
          obtain ⟨rfl, rfl⟩ := henter.unique henter'
          cases ih hbody' rfl
  | eval henter hparse hcode hcall ih =>
      obtain ⟨rfl, rfl⟩ := henter
      cases h' with
      | eval henter' hparse' hcode' hcall' =>
          obtain ⟨rfl, rfl⟩ := henter'
          cases hparse.symm.trans hparse'
          cases compileLambda_functional hcode hcode'
          cases ih hcall' rfl
          rfl
      | evalParse hparse' => cases hparse.symm.trans hparse'
      | evalThrows henter' hparse' hcode' hcall' =>
          obtain ⟨rfl, rfl⟩ := henter'
          cases hparse.symm.trans hparse'
          cases compileLambda_functional hcode hcode'
          cases ih hcall' rfl
  | stepThrows | invokeThrows | throws | callbackThrows | callPopThrows | callThrows | evalParse
  | evalThrows => cases he

/-! ### What the names of a line mean -/

theorem modify_length {α : Type} (f : α → α) (x : α) (l : List α) :
    (l ++ [x]).modify l.length f = l ++ [f x] := by
  induction l with
  | nil => rfl
  | cons y l ih => exact congrArg (y :: ·) ih

/-- The scope of `Eval` has the variable `this` and nothing else. -/
theorem enterEval_scopes (rt : Runtime) :
    rt.enterEval.2.2.memory.scopes =
      { locals := rt.memory.scopes.locals
          ++ [{ name := "this", index := 0, value := some (.lambda rt.memory.lambdas.length) }]
        scopes := rt.memory.scopes.scopes
          ++ [{ parent := rt.scope, locals := [rt.memory.scopes.locals.length] }] } := by
  have hhas : ∀ ls, ({ locals := ls, scopes := rt.memory.scopes.scopes ++
      [{ parent := rt.scope, locals := [] }] } : Scopes).has rt.memory.scopes.scopes.length "this"
        = false := by
    simp [Scopes.has, Scopes.lookupHere, Scopes.localsOf]
  simp [enterEval, Runtime.pushScope, Scopes.newScope, Scopes.newLocal, Scopes.addLocal,
    Scopes.push, Scopes.numberOfLocals, Scopes.localsOf, hhas]
  exact modify_length _ _ _

theorem enterEval_grows (rt : Runtime) :
    rt.memory.scopes.Grows rt.enterEval.2.2.memory.scopes := by
  rw [enterEval_scopes]
  exact ⟨List.prefix_append _ _, List.prefix_append _ _⟩

theorem enterEval_valueOf (rt : Runtime) : rt.enterEval.2.2.memory.scopes.valueOf
    rt.memory.scopes.locals.length = some (.lambda rt.memory.lambdas.length) := by
  simp [enterEval_scopes, Scopes.valueOf]

/-- A name in the scope of `Eval` is `this` or one of the scope around it. -/
theorem lookup_enterEval {m : Scopes} (hm : m.Sound) (hroot : m.Rooted) {rt : Runtime}
    (hrt : rt.Rooted) (hgrows : m.Grows rt.memory.scopes)
    (hscope : ∀ s ∈ rt.scope, s < m.scopes.length) (name : String) :
    rt.enterEval.2.2.memory.scopes.lookup rt.enterEval.1 name =
      if name = "this" then some rt.memory.scopes.locals.length
      else rt.scope.bind fun s => m.lookup s name := by
  have hrooted := ((enterEval_kept rt).1.rooted hrt).1
  have hentered := enterEval_scopes rt
  have hlen : rt.enterEval.2.2.memory.scopes.scopes.length
      = rt.memory.scopes.scopes.length + 1 := by
    rw [hentered]
    simp
  have hhere : rt.enterEval.2.2.memory.scopes.lookupHere rt.memory.scopes.scopes.length name
      = if name = "this" then some rt.memory.scopes.locals.length else none := by
    by_cases hn : name = "this"
    · simp [hentered, Scopes.lookupHere, Scopes.localsOf, hn]
    · simp [hentered, Scopes.lookupHere, Scopes.localsOf, hn, Ne.symm hn]
  have hparent : rt.enterEval.2.2.memory.scopes.parentOf rt.memory.scopes.scopes.length
      = rt.scope := by
    simp [hentered, Scopes.parentOf]
  change rt.enterEval.2.2.memory.scopes.lookup rt.memory.scopes.scopes.length name = _
  rw [Scopes.lookup, hlen, Scopes.lookupWithin, hhere, hparent]
  by_cases hn : name = "this"
  · simp [hn]
  · rw [if_neg hn, if_neg hn]
    dsimp only
    refine Option.bind_congr fun s hs => ?_
    have hs := hscope s hs
    rw [← (hgrows.trans (enterEval_grows rt)).lookup hm hroot hs]
    refine hrooted.lookupWithin_eq name (hs.trans_le hgrows.extended.length_le) ?_
    exact hs.trans_le (hgrows.trans (enterEval_grows rt)).extended.length_le

theorem lookup_lt {m : Scopes} (hm : m.Sound) {s : ScopeId} {name : String} {l : LocalId}
    (h : m.lookup s name = some l) : l < m.locals.length := by
  have hwithin : ∀ n s, m.lookupWithin name n s = some l → l < m.locals.length := by
    intro n
    induction n with
    | zero => exact nofun
    | succ n ih =>
        intro s h
        rw [Scopes.lookupWithin] at h
        cases hl : m.lookupHere s name with
        | some l' =>
            rw [hl] at h
            cases h
            exact hm s l (List.mem_of_find?_eq_some hl)
        | none =>
            rw [hl] at h
            obtain ⟨p, -, h⟩ := Option.bind_eq_some_iff.mp h
            exact ih p h
  exact hwithin _ s h

/-- What a name means to a line. -/
def Runtime.meaning (rt : Runtime) (x : Symbol) : Option Value :=
  rt.enterEval.2.2.memory.scopes.meaning rt.enterEval.1 x

/-- What the natives compute that a line can call. -/
def Runtime.natives (rt : Runtime) (prims : Formula.Natives) : Formula.Natives :=
  rt.enterEval.2.2.memory.scopes.natives rt.enterEval.1 prims

/-- The expander as a line is expanded with it. -/
def Runtime.expander (rt : Runtime) : MacroExpander :=
  MacroExpander.forBody rt.enterEval.2.2.memory.scopes rt.enterEval.1 none

/-- A state has the scopes that another one has, at most with others added to them, and is in the
same one. -/
structure Runtime.Follows (rt₀ rt : Runtime) : Prop where
  rooted : rt.Rooted
  grows : rt₀.memory.scopes.Grows rt.memory.scopes
  scope : rt.scope = rt₀.scope

namespace Runtime.Follows

variable {rt₀ rt rt' : Runtime}

theorem refl (h : rt₀.Rooted) : rt₀.Follows rt₀ := ⟨h, .refl _, rfl⟩

theorem trans (h : rt₀.Follows rt) (h' : rt.Follows rt') : rt₀.Follows rt' :=
  ⟨h'.rooted, h.grows.trans h'.grows, h'.scope.trans h.scope⟩

theorem meaning (h : rt₀.Follows rt) (hsound : rt₀.memory.scopes.Sound) (hrt₀ : rt₀.Rooted)
    (x : Symbol) : rt.meaning x =
      if x.fullyQualifiedName = "this" then some (.lambda rt.memory.lambdas.length)
      else rt₀.scope.bind fun s => rt₀.memory.scopes.meaning s x := by
  have hlookup := lookup_enterEval hsound hrt₀.1 h.rooted h.grows (h.scope ▸ hrt₀.2)
    x.fullyQualifiedName
  rw [Runtime.meaning, Scopes.meaning, hlookup, h.scope]
  split
  · exact enterEval_valueOf rt
  · cases rt₀.scope with
    | none => rfl
    | some s =>
        dsimp only [Option.bind_some]
        rw [Scopes.meaning]
        refine Option.bind_congr fun l hl => ?_
        rw [Scopes.valueOf, Scopes.valueOf,
          (h.grows.trans (enterEval_grows rt)).local_eq (lookup_lt hsound hl)]

/-- A line can call the same natives. -/
theorem natives (h : rt₀.Follows rt) (hsound : rt₀.memory.scopes.Sound) (hrt₀ : rt₀.Rooted)
    (prims : Formula.Natives) : rt.natives prims = rt₀.natives prims := by
  funext f vs
  have hrt := h.meaning hsound hrt₀ f
  have hstart := (Follows.refl hrt₀).meaning hsound hrt₀ f
  rw [Runtime.meaning] at hrt hstart
  rw [Runtime.natives, Runtime.natives, Scopes.natives, Scopes.natives, hrt, hstart]
  by_cases hthis : f.fullyQualifiedName = "this"
  · rw [if_pos hthis, if_pos hthis]
  · rw [if_neg hthis, if_neg hthis]

end Runtime.Follows

theorem expander_meaning {rt : Runtime} (hrt : rt.Rooted) (x : Symbol) :
    (rt.expander.names.lookup rt.expander.scope x.fullyQualifiedName).bind rt.expander.names.valueOf
      = rt.meaning x := by
  have hrooted := (enterEval_kept rt).1.rooted hrt
  have hlookup := hrooted.1.lookup_newScope (hrooted.2 _ (enterEval_kept rt).2) x.fullyQualifiedName
  rw [Runtime.meaning, Scopes.meaning, ← hlookup]
  rfl

/-- The same names are macros to a line. -/
theorem Runtime.Follows.alike {rt₀ rt : Runtime} (h : rt₀.Follows rt)
    (hsound : rt₀.memory.scopes.Sound) (hrt₀ : rt₀.Rooted) : rt₀.expander.Alike rt.expander := by
  intro t
  have hframes : ∀ rt : Runtime, rt.expander.frames = [] := fun _ => rfl
  cases t with
  | literal v =>
      cases v with
      | symbol x =>
          rw [MacroExpander.macroOf, MacroExpander.macroOf, hframes, hframes,
            expander_meaning h.rooted, expander_meaning hrt₀, h.meaning hsound hrt₀,
            (Follows.refl hrt₀).meaning hsound hrt₀]
          by_cases hthis : x.fullyQualifiedName = "this"
          · rw [if_pos hthis, if_pos hthis]
          · rw [if_neg hthis, if_neg hthis]
      | _ => rfl
  | _ => rfl

mutual

theorem Expr.Sees.of_alike {x y : MacroExpander} (h : x.Alike y) {m : MacroId} :
    ∀ {e : Expr}, e.Sees y m → e.Sees x m
  | .binaryOp .., hs => hs.imp (Sees.of_alike h) (Sees.of_alike h)
  | .callProc t _, hs => hs.imp (fun hm => (h t).symm.trans hm) (AnySees.of_alike h)
  | .setLocal _ e, hs => Sees.of_alike (e := e) h hs
  | .when .., hs => hs.imp (Sees.of_alike h) (AnySees.of_alike h)

theorem Expr.AnySees.of_alike {x y : MacroExpander} (h : x.Alike y) {m : MacroId} :
    ∀ {es : List Expr}, Expr.AnySees y m es → Expr.AnySees x m es
  | _ :: _, hs => hs.imp (Sees.of_alike h) (AnySees.of_alike h)

end

/-! ### Lines -/

/-- Where the parser makes an expression of a text and the expander leaves it as it is, that is what
is evaluated. -/
def World.Reads (W : World) (reg : Registry) (text : String) : Prop :=
  ∀ s m e m', (∃ N, ∀ n, N ≤ n → Runtime.parseExpr reg n text s m = .ok (some e, m') ∧
      ∀ macros, Runtime.expandBody n s none [e] m' ⟨macros, false⟩ = .ok ([e], ⟨macros, false⟩)) →
    W.parse text s m = (.ok [e], m')

/-- The text of a formula that has a value evaluates to it. -/
theorem evaluates_formula {W : World} (hW : W.Faithful) {reg : Registry} {prims : Formula.Natives}
    (hevents : ∀ rt, W.host.runEvents rt = .ok rt) (hnatives : W.host.NativesAre prims)
    (e : Formula reg) (hread : W.Reads reg (.ofList e.print)) {rt : Runtime} (hrt : rt.Rooted)
    (hsees : ∀ m, ¬e.toExpr.Sees rt.expander m)
    (hfits : EvalFits W.cfg e.toExpr rt.enterEval.1 rt.enterEval.2.2.memory) {v : Value}
    (hv : e.value (rt.natives prims) = some v) :
    ∃ rt', Evaluates W (.ofList e.print) rt v rt' ∧
      rt.memory.scopes.Grows rt'.memory.scopes := by
  have hroot := (enterEval_kept rt).1.rooted hrt
  have hx : VisitedAs e.toExpr e.toCore := by
    rw [Formula.toExpr, ← Formula.toExpr_toCore]
    exact .refl _
  have hparse : W.parse (.ofList e.print) rt.enterEval.1 rt.enterEval.2.2.memory
      = (.ok [e.toExpr], rt.enterEval.2.2.memory) := by
    refine hread _ _ _ _ ⟨e.toSource.size + 1, fun n hn => ⟨?_, fun macros => ?_⟩⟩
    · exact Runtime.parseExpr_of_quiet (Parser.quiet e) ((Nat.le_succ _).trans hn) _ _
    · exact Runtime.expandBody_self hsees ((Nat.succ_pos _).trans_le hn) macros
  let rt₀ : Runtime := { rt.enterEval.2.2 with
    memory := Runtime.setBody rt.enterEval.2.1 [e.toExpr] rt.enterEval.2.2.memory }
  have hf : rt₀.memory.lambdas[rt.enterEval.2.1]? = some { body := [e.toExpr] } := by
    simp [rt₀, Runtime.setBody, enterEval, Runtime.pushScope]
  obtain ⟨N, region, rt₁, rt₂, hrun, hbalanced, hgrows⟩ :=
    Runtime.compile_call hevents hnatives hx hf hfits
      (Formula.yields hroot.1 (hroot.2 _ (enterEval_kept rt).2) e hv)
  obtain ⟨hcompile, hcall⟩ := hrun N le_rfl
  have hends := call_ends hW N (.lambda rt.enterEval.2.1) [] rt₁
  rw [hcall] at hends
  refine ⟨rt₂.takeResult.2.popScope, ⟨_, _, _, _, _, _, hparse, hcompile, hends, ?_, rfl⟩, ?_⟩
  · exact hbalanced.takeResult.1.symm
  · rw [Runtime.popScope, takeResult_memory]
    exact (enterEval_grows rt).trans hgrows


namespace Repl

/-- A line without a newline in it is read up to the one behind it. -/
theorem prompt_line {text : List Char} (h : '\n' ∉ text) (rest : List Char) (output : String)
    (running : Bool) : ({ input := text ++ '\n' :: rest, output, running } : Repl).prompt
      = (some (.ofList text), { input := rest, output := output ++ ">>> ", running }) := by
  have htext : ∀ x ∈ text, decide (x ≠ '\n') = true := by
    intro x hx
    exact decide_eq_true (fun hnl => h (hnl ▸ hx))
  have hdrop : (text ++ '\n' :: rest).dropWhile (· ≠ '\n') = '\n' :: rest := by
    rw [List.dropWhile_append_of_pos htext]
    rfl
  have htake : (text ++ '\n' :: rest).takeWhile (· ≠ '\n') = text := by
    rw [List.takeWhile_append_of_pos htext]
    simp
  rw [prompt]
  simp only [hdrop, htake]

/-- The commands begin with one of four letters. -/
theorem not_isCommand {x : Char} {text : List Char} (hx : x ∉ ['e', 'q', 'h', 'c']) :
    isCommand (.ofList (x :: text)) = false := by
  have hne : ∀ y cs, y ∈ ['e', 'q', 'h', 'c'] →
      (String.ofList (x :: text) == .ofList (y :: cs)) = false := by
    intro y cs hy
    refine beq_eq_false_iff_ne.mpr fun h => hx ?_
    cases String.ofList_injective h
    exact hy
  have hempty : (String.ofList (x :: text) == "") = false :=
    beq_eq_false_iff_ne.mpr fun h => by cases String.ofList_injective (h : _ = String.ofList [])
  have hword : ∀ word : String, ∀ y cs, word = .ofList (y :: cs) → y ∈ ['e', 'q', 'h', 'c'] →
      (String.ofList (x :: text) == word) = false := fun _ y cs hw hy => hw ▸ hne y cs hy
  rw [isCommand, isExitCommand, isHelpCommand, isClearCommand, hempty,
    hword "exit" 'e' ['x', 'i', 't'] rfl (by simp), hword "quit" 'q' ['u', 'i', 't'] rfl (by simp),
    hword "q" 'q' [] rfl (by simp), hword "help" 'h' ['e', 'l', 'p'] rfl (by simp),
    hword "h" 'h' [] rfl (by simp), hword "clear" 'c' ['l', 'e', 'a', 'r'] rfl (by simp),
    hword "cls" 'c' ['l', 's'] rfl (by simp)]
  rfl

theorem not_isCommand_formula {reg : Registry} (e : Formula reg) :
    isCommand (.ofList e.print) = false := by
  have hlit : ∀ v : Lit, ∃ x text, v.print = x :: text ∧ x ∉ ['e', 'q', 'h', 'c'] := by
    intro v
    cases v with
    | long n hn =>
        cases hd : Nat.toDigits 10 n with
        | nil => exact absurd hd Nat.toDigits_ne_nil
        | cons x text =>
            refine ⟨x, text, hd, fun hx => ?_⟩
            have hdigit : x.isDigit = true :=
              Nat.isDigit_of_mem_toDigits (by decide) (by decide) (hd ▸ List.mem_cons_self)
            rcases List.mem_cons.mp hx with rfl | hx
            · cases hdigit
            · simp at hx
              rcases hx with rfl | rfl | rfl <;> cases hdigit
    | bool b => exact ⟨_, _, rfl, by simp⟩
    | string s _ _ => exact ⟨_, _, rfl, by simp⟩
  have hprint : ∃ x text, e.print = x :: text ∧ x ∉ ['e', 'q', 'h', 'c'] := by
    cases e with
    | literal v => exact hlit v
    | unary | nary | call | cond => exact ⟨_, _, rfl, by simp⟩
  obtain ⟨x, text, htext, hx⟩ := hprint
  rw [htext]
  exact not_isCommand hx

/-- Whatever arrays there are, this is written for a value. -/
def IsAnswer (host : Host) (v : Value) (text : String) : Prop :=
  ∀ h r r', Answers host h v r r' ↔ r' = { r with output := r.output ++ text }

/-- A value that is printed without a look at the elements of a list or of an array. -/
theorem isAnswer_atom {host : Host} {v : Value} (hnull : v.isNull = false)
    (herror : ∀ id message, v ≠ .error id message) (hpair : ∀ x y, v ≠ .pair x y)
    (harray : ∀ id, v ≠ .object .array id) :
    IsAnswer host v ("\n" ++ printAtom host v ++ "\n") := by
  have hprint : ∀ (h : ArrayHeap) k, h.printValue host (k + 1) v = .ok (printAtom host v) := by
    intro h k
    cases v with
    | pair x y => exact absurd rfl (hpair x y)
    | object kind id =>
        cases kind with
        | array => exact absurd rfl (harray id)
        | _ => rfl
    | _ => rfl
  intro h r r'
  constructor
  · intro ha
    cases ha with
    | null => cases hnull
    | error id message => exact absurd rfl (herror id message)
    | @value _ k _ _ _ _ htext =>
        cases k with
        | zero => cases htext
        | succ k =>
            cases (hprint h k).symm.trans htext
            simp [respond, String.append_assoc]
  · rintro rfl
    have ha := Answers.value (k := 1) r hnull herror (hprint h 0)
    simpa [respond, String.append_assoc] using ha

end Repl


/-- An evaluation that returns has one result. -/
theorem Evaluates.unique {W : World} {text : String} {rt rt' : Runtime} {v : Value}
    (h : Evaluates W text rt v rt') :
    (∀ {v' rt''}, Evaluates W text rt v' rt'' → v' = v ∧ rt'' = rt') ∧
      ∀ {message rt''}, ¬Ends W (.eval text) rt (.threw message rt'') := by
  constructor
  · intro v' rt'' h'
    obtain ⟨body, m, fuel, region, rt₁, rt₂, hparse, hcode, hcall, rfl, rfl⟩ := h
    obtain ⟨body', m', fuel', region', rt₁', rt₂', hparse', hcode', hcall', rfl, rfl⟩ := h'
    cases hparse.symm.trans hparse'
    cases compileLambda_functional hcode hcode'
    cases hcall.unique hcall'
    exact ⟨rfl, rfl⟩
  · intro message rt'' h'
    cases (ends_eval_iff.mpr ⟨_, h⟩).unique h'

/-- A line of a session: a form, what it evaluates to, and what is written for that. -/
structure Line (reg : Registry) where
  form : Formula reg
  value : Value
  answer : String

namespace Line

variable {reg : Registry}

def text (l : Line reg) : List Char := l.form.print

/-- What is typed. -/
def input : List (Line reg) → List Char
  | [] => []
  | l :: ls => l.text ++ '\n' :: input ls

/-- What is written. -/
def output : List (Line reg) → String
  | [] => ""
  | l :: ls => ">>> " ++ (l.answer ++ output ls)

/-- The line can be typed in a state: it has its value there and no call of a macro. -/
structure Ready (W : World) (prims : Formula.Natives) (rt : Runtime) (l : Line reg) : Prop where
  newline : '\n' ∉ l.text
  reads : W.Reads reg (.ofList l.text)
  value : l.form.value (rt.natives prims) = some l.value
  macros : ∀ m, ¬l.form.toExpr.Sees rt.expander m
  answer : Repl.IsAnswer W.host l.value l.answer

/-- It can be typed in the states that follow. -/
theorem Ready.follows {W : World} {prims : Formula.Natives} {rt₀ rt : Runtime} {l : Line reg}
    (h : l.Ready W prims rt₀) (hsound : rt₀.memory.scopes.Sound) (hrt₀ : rt₀.Rooted)
    (hfollows : rt₀.Follows rt) : l.Ready W prims rt :=
  { h with
    value := (hfollows.natives hsound hrt₀ prims).symm ▸ h.value
    macros := fun m hm => h.macros m (.of_alike (hfollows.alike hsound hrt₀) hm) }

end Line

namespace Repl

variable {W : World} {reg : Registry} {prims : Formula.Natives}

/-- A round that reads the line, and there is no other. -/
theorem step_line (hW : W.Adds) (hfaithful : W.Faithful)
    (hevents : ∀ rt, W.host.runEvents rt = .ok rt) (hnatives : W.host.NativesAre prims)
    {l : Line reg} {rt : Runtime} (hl : l.Ready W prims rt) (hrt : rt.Rooted)
    (hfits : EvalFits W.cfg l.form.toExpr rt.enterEval.1 rt.enterEval.2.2.memory)
    (rest : List Char) (output : String) :
    ∃ rt', rt.Follows rt' ∧ rt'.frames = rt.frames ∧
      (∀ t p, Step W ({ input := l.text ++ '\n' :: rest, output, running := true }, rt) t p ↔
        t = .value l.value ∧
          p = ({ input := rest, output := output ++ (">>> " ++ l.answer), running := true },
            rt')) := by
  obtain ⟨rt', heval, hgrows⟩ :=
    evaluates_formula hfaithful hevents hnatives l.form hl.reads hrt hl.macros hfits hl.value
  have hprompt := prompt_line hl.newline rest output true
  have hcommand : isCommand (.ofList l.text) = false := not_isCommand_formula l.form
  obtain ⟨hscope, hframes⟩ := heval.balanced
  have hkept : rt.Kept rt' := (ends_eval_iff.mpr ⟨_, heval⟩).kept hW trivial
  refine ⟨rt', ⟨hkept.rooted hrt, hgrows, hscope⟩, hframes, fun t p => ⟨fun h => ?_, ?_⟩⟩
  · have hparts := hcommand
    simp only [isCommand, Bool.or_eq_false_iff] at hparts
    obtain ⟨⟨⟨hexit, hhelp⟩, hclear⟩, hempty⟩ := hparts
    cases h with
    | exit _ hline hexit' =>
        cases hprompt.symm.trans hline
        cases hexit.symm.trans hexit'
    | help _ hline hhelp' =>
        cases hprompt.symm.trans hline
        cases hhelp.symm.trans hhelp'
    | clear _ hline hclear' =>
        cases hprompt.symm.trans hline
        cases hclear.symm.trans hclear'
    | nothing _ hline =>
        have htext := congrArg Prod.fst (hprompt.symm.trans hline)
        exact absurd (Option.some.inj htext) (beq_eq_false_iff_ne.mp hempty)
    | value _ hline _ heval' hanswer =>
        cases hprompt.symm.trans hline
        obtain ⟨rfl, rfl⟩ := heval.unique.1 heval'
        cases (hl.answer _ _ _).mp hanswer
        simp [String.append_assoc]
    | threw _ hline _ heval' =>
        cases hprompt.symm.trans hline
        exact absurd heval' heval.unique.2
  · rintro ⟨rfl, rfl⟩
    have hstep := Step.value rfl hprompt hcommand heval
      ((hl.answer { words := fun _ => .null } _ _).mpr rfl)
    simpa [String.append_assoc] using hstep

end Repl

namespace Sessions.Sample

open Evaluating.Sample

theorem host_extends : host.Extends := ⟨nofun, nofun, nofun⟩

/-- Only one text is parsed. -/
def parse (read : String) (e : Expr) (text : String) (_ : ScopeId) (m : Memory) :
    Except String (List Expr) × Memory :=
  (if text = read then .ok [e] else .error "", m)

theorem parse_extended (read : String) (e : Expr) (text : String) (s : ScopeId) (m : Memory) :
    m.scopes.Extended (parse read e text s m).2.scopes := .refl _

def world (read : String) (e : Expr) : World where
  host := host
  host_extends := host_extends
  natives f vs := ((prims f vs).map fun v => .push v .done).getD .done
  events _ := .done
  parse := parse read e
  parse_extended := parse_extended read e

theorem adds (read : String) (e : Expr) : (world read e).Adds := by
  refine ⟨nofun, nofun, nofun, fun f vs => ?_, fun _ => trivial, fun _ _ _ => ⟨.refl _, id⟩⟩
  change (((prims f vs).map fun v => Foreign.push v .done).getD .done).Adds
  cases prims f vs <;> exact trivial

theorem faithful (read : String) (e : Expr) : (world read e).Faithful where
  native f vs rt := by
    change Computed (world read e)
      (.foreign (((prims f vs).map fun v => Foreign.push v .done).getD .done)) rt
      (((prims f vs).map rt.push).getD (.error .undefined))
    cases prims f vs with
    | none => exact trivial
    | some v =>
        change Computed (world read e) (.foreign (.push v .done)) rt (rt.push v)
        cases h : rt.push v with
        | ok rt' => exact .push h .done
        | error fault =>
            rw [Runtime.push] at h
            split at h <;> cases h
            exact trivial
  events _ := .done

def line {reg : Registry} (form : Formula reg) : Line reg where
  form
  value := .long 6
  answer := "\n6\n"

theorem ready :
    (line formula).Ready (world (.ofList formula.print) formula.toExpr) prims start where
  newline := by decide
  reads := by
    rintro s m e m' ⟨N, hN⟩
    obtain ⟨hparse, -⟩ := hN (max N formula.toSource.size) (le_max_left _ _)
    have hquiet := Runtime.parseExpr_of_quiet (Parser.quiet formula) (le_max_right N _) s m
    cases hquiet.symm.trans hparse
    change parse (.ofList formula.print) formula.toExpr (.ofList formula.print) s m = _
    rw [parse, if_pos rfl]
    rfl
  value := by decide +kernel
  macros := fun _ h => h
  answer := Repl.isAnswer_atom rfl nofun nofun nofun

theorem sound : start.memory.scopes.Sound := by
  intro s l hl
  cases s with
  | zero =>
      obtain rfl := List.mem_singleton.mp hl
      exact Nat.zero_lt_one
  | succ s => cases hl

end Sessions.Sample

end Gel
