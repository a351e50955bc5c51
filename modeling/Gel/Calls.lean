import Gel.Scoping

/-!
# Calls — nested runs and how they end

A call runs the interpreter or a native, and both call again: the interpreter at its call
operations, a native and the callbacks of the event loop through `Call` and `CallPop`.  `Ends` says
how such a run ends, and in which state: it returns, or an exception leaves it.  Nothing between the
`throw` and the caller of `Eval` catches one, so an exception leaves a run in the state it was
thrown in.

* `call_ends`: the calls of the executable model end this way.
-/

namespace Gel

/-- What a native, or a callback of the event loop, does with the runtime before it returns:
`access` is a change of objects that leaves the stack of frames and the current scope alone, `push`
is `NativeProcedureEntry::Return`. -/
inductive Foreign where
  | done
  | throws (message : String)
  | access (change : Runtime → Memory)
      (extended : ∀ rt : Runtime, rt.memory.scopes.Extended (change rt).scopes) (next : Runtime → Foreign)
  | push (v : Value) (next : Foreign)
  | call (f : Value) (args : List Value) (next : Foreign)
  | callPop (f : Value) (args : List Value) (next : Value → Foreign)

/-- What the host does to objects leaves scopes where they are. -/
structure Host.Extends (host : Host) : Prop where
  newInstance : ∀ {c args m v m'}, host.newInstance c args m = .ok (v, m') →
    m.scopes.Extended m'.scopes
  newObservable : ∀ {v m o m'}, host.newObservable v m = .ok (o, m') → m.scopes.Extended m'.scopes
  setField : ∀ {i f v m m'}, host.setField i f v m = .ok m' → m.scopes.Extended m'.scopes

/-- The surroundings of a run: the natives, what the event loop has to do when a procedure returns,
and the parser, which fails with the message of a `gel::Exception`. -/
structure World where
  cfg : Config := {}
  host : Host
  host_extends : host.Extends
  natives : Symbol → List Value → Foreign
  events : Runtime → Foreign
  parse : String → ScopeId → Memory → Except String (List Expr) × Memory
  parse_extended : ∀ text s (m : Memory), m.scopes.Extended (parse text s m).2.scopes

/-- What `Runtime::Call` runs. -/
inductive Callee where
  | procedure (f : Value) (args : List Value)
  | script (id : Nat)

inductive Activity where
  | run (region : Nat)
  | foreign (code : Foreign)
  | call (c : Callee)
  | eval (text : String)

/-- How a run ends: it returns, or an exception with a message leaves it. -/
inductive Exit where
  | returned (rt : Runtime)
  | threw (message : String) (rt : Runtime)

namespace Runtime

/-- The arguments a procedure takes from the caller's stack, null for each optional one that is
missing. -/
def takeArgs (params : List Argument) (numArgs : Nat) (rt : Runtime) :
    Except Fault (List Value × Runtime) :=
  match rt.stack? with
  | none => .error .undefined
  | some s => do
      let (args, remaining, s) ← collectArgs params numArgs [] s
      return (args ++ List.replicate (-remaining).toNat .null, rt.setStack s)

theorem callWithNArgs_eq (call : Value → List Value → Runtime → Except Fault Runtime)
    (params : List Argument) (f : Value) (n : Nat) (rt : Runtime) :
    callWithNArgs call params f n rt = (do
      let (args, rt) ← takeArgs params n rt
      call f args rt) := by
  rw [callWithNArgs, takeArgs]
  cases rt.stack? with
  | none => rfl
  | some s =>
      simp only [bind_assoc]
      rfl

/-- A new scope with the arguments of a native, and the frame it runs on. -/
def enterNative (args : List Value) (rt : Runtime) : Runtime :=
  let (locals, rt) := rt.pushScope
  let scopes := args.zipIdx.foldl (fun m (v, i) => (m.addValue locals s!"arg{i}" (some v)).2)
    rt.memory.scopes
  { rt with memory := { rt.memory with scopes } }.pushFrame locals

/-- A new scope with the variables of a script, and the frame it runs on. -/
def enterScript (script : Script) (rt : Runtime) : Runtime :=
  let (locals, rt) := rt.pushScope
  let scopes := (rt.memory.scopes.addScope locals script.scope).2
  { rt with memory := { rt.memory with scopes } }.pushFrame locals

/-- What `Eval` does before it parses: a new scope, a lambda without arguments, and the lambda as
the variable `this`. -/
def enterEval (rt : Runtime) : ScopeId × Nat × Runtime :=
  let (s, rt) := rt.pushScope
  let id := rt.memory.lambdas.length
  let (l, scopes) := rt.memory.scopes.newLocal s "this" (some (.lambda id))
  let (_, scopes) := scopes.addLocal s l
  (s, id, { rt with memory := { rt.memory with scopes, lambdas := rt.memory.lambdas ++ [{}] } })

/-- The body `Eval` has parsed. -/
def setBody (id : Nat) (body : List Expr) (m : Memory) : Memory :=
  { m with lambdas := m.lambdas.modify id fun f => { f with body } }

end Runtime

open Gel.Runtime

/-- The procedure a call operation invokes, with the number of its arguments. -/
def callee? (code : Bytecode) (rt : Runtime) : Option (Value × Nat × Runtime) :=
  match code with
  | .invoke f n | .invokeNative f n => if f.isProcedure then some (f, n.toNat, rt) else none
  | .invokeDynamic n => match rt.pop with
      | .ok (f, rt) => if f.isProcedure then some (f, n.toNat, rt) else none
      | .error _ => none
  | _ => none

/-- The call of an operation that calls nothing. -/
def noCall : Interpreter.CallWithNArgs := fun _ _ _ => .error .fatal

/-- What a callee runs, once `Runtime::Call` has pushed its scope and its frame. -/
inductive Enters (W : World) : Callee → Runtime → Activity → Runtime → Prop where
  | lambda {id fuel region locals : Nat} {args f rt rt₁ rt₂}
      (hf : rt.memory.lambdas[id]? = some f) (hbind : bindLambda id f args rt = .ok (locals, rt₁))
      (hcode : compileLambda W.cfg fuel id locals rt₁ = .ok (region, rt₂)) :
      Enters W (.procedure (.lambda id) args) rt (.run region)
        { rt₂.pushFrame locals with current := some ⟨region, 0⟩ }
  | native {x args rt} :
      Enters W (.procedure (.native x) args) rt (.foreign (W.natives x args)) (rt.enterNative args)
  | script {id region : Nat} {f rt} (hf : rt.memory.scripts[id]? = some f)
      (hcode : f.code = some region) :
      Enters W (.script id) rt (.run region)
        { rt.enterScript f with current := some ⟨region, 0⟩ }

/-- `Ends W a rt e`: from the state `rt` the activity `a` ends with `e`. -/
inductive Ends (W : World) : Activity → Runtime → Exit → Prop where
  /-- An operation of the interpreter that calls nothing. -/
  | step {region start next code rt rt₁ e} (hf : Interpreter.fetch region rt = some (start, code, next))
      (hc : callee? code { rt with current := some ⟨region, next⟩ } = none) (hret : code ≠ .ret)
      (hx : Interpreter.exec W.host noCall region start code
        { rt with current := some ⟨region, next⟩ } = .ok rt₁)
      (hrun : Ends W (.run region) rt₁ e) : Ends W (.run region) rt e
  /-- An operation that throws has taken operands from the stack. -/
  | stepThrows {region start next code rt message s}
      (hf : Interpreter.fetch region rt = some (start, code, next))
      (hc : callee? code { rt with current := some ⟨region, next⟩ } = none) (hret : code ≠ .ret)
      (hx : Interpreter.exec W.host noCall region start code
        { rt with current := some ⟨region, next⟩ } = .error (.thrown message))
      (hs : ∀ t, rt.stack? = some t → s <:+ t) :
      Ends W (.run region) rt
        (.threw message ({ rt with current := some ⟨region, next⟩ }.setStack s))
  /-- A call operation whose procedure returns. -/
  | invoke {region start next code rt f n rt₁ args rt₂ rt₃ e}
      (hf : Interpreter.fetch region rt = some (start, code, next))
      (hc : callee? code { rt with current := some ⟨region, next⟩ } = some (f, n, rt₁))
      (hargs : takeArgs (paramsOf W.host rt₁.memory f) n rt₁ = .ok (args, rt₂))
      (hcall : Ends W (.call (.procedure f args)) rt₂ (.returned rt₃))
      (hrun : Ends W (.run region) rt₃ e) : Ends W (.run region) rt e
  | invokeThrows {region start next code rt f n rt₁ args rt₂ message rt₃}
      (hf : Interpreter.fetch region rt = some (start, code, next))
      (hc : callee? code { rt with current := some ⟨region, next⟩ } = some (f, n, rt₁))
      (hargs : takeArgs (paramsOf W.host rt₁.memory f) n rt₁ = .ok (args, rt₂))
      (hcall : Ends W (.call (.procedure f args)) rt₂ (.threw message rt₃)) :
      Ends W (.run region) rt (.threw message rt₃)
  /-- `Ret` runs the event loop. -/
  | ret {region start next rt e} (hf : Interpreter.fetch region rt = some (start, .ret, next))
      (hevents : Ends W (.foreign (W.events { rt with current := some ⟨region, next⟩ }))
        { rt with current := some ⟨region, next⟩ } e) : Ends W (.run region) rt e
  | done {rt} : Ends W (.foreign .done) rt (.returned rt)
  | throws {message rt} : Ends W (.foreign (.throws message)) rt (.threw message rt)
  | access {change hext next rt e} (h : Ends W (.foreign (next rt)) { rt with memory := change rt } e) :
      Ends W (.foreign (.access change hext next)) rt e
  | push {v next rt rt₁ e} (hpush : rt.push v = .ok rt₁) (h : Ends W (.foreign next) rt₁ e) :
      Ends W (.foreign (.push v next)) rt e
  | callback {f args next rt rt₁ e} (hcall : Ends W (.call (.procedure f args)) rt (.returned rt₁))
      (h : Ends W (.foreign next) rt₁ e) : Ends W (.foreign (.call f args next)) rt e
  | callbackThrows {f args next rt message rt₁}
      (hcall : Ends W (.call (.procedure f args)) rt (.threw message rt₁)) :
      Ends W (.foreign (.call f args next)) rt (.threw message rt₁)
  | callPop {f args next rt rt₁ e} (hcall : Ends W (.call (.procedure f args)) rt (.returned rt₁))
      (h : Ends W (.foreign (next rt₁.takeResult.1)) rt₁.takeResult.2 e) :
      Ends W (.foreign (.callPop f args next)) rt e
  | callPopThrows {f args next rt message rt₁}
      (hcall : Ends W (.call (.procedure f args)) rt (.threw message rt₁)) :
      Ends W (.foreign (.callPop f args next)) rt (.threw message rt₁)
  /-- A callee that returns: its frame and its scope are popped. -/
  | call {c body rt rt₁ rt₂ rt₃} (henter : Enters W c rt body rt₁)
      (hbody : Ends W body rt₁ (.returned rt₂)) (hpop : rt₂.popFrame = .ok rt₃) :
      Ends W (.call c) rt (.returned rt₃.popScope)
  /-- An exception leaves a call past the statements that pop. -/
  | callThrows {c body rt rt₁ message rt₂} (henter : Enters W c rt body rt₁)
      (hbody : Ends W body rt₁ (.threw message rt₂)) : Ends W (.call c) rt (.threw message rt₂)
  | eval {text rt s id body m fuel region rt₂ rt₃} (henter : rt.enterEval.1 = s ∧ rt.enterEval.2.1 = id)
      (hparse : W.parse text s rt.enterEval.2.2.memory = (.ok body, m))
      (hcode : compileLambda W.cfg fuel id s { rt.enterEval.2.2 with memory := setBody id body m }
        = .ok (region, rt₂))
      (hcall : Ends W (.call (.procedure (.lambda id) [])) rt₂ (.returned rt₃)) :
      Ends W (.eval text) rt (.returned rt₃.takeResult.2.popScope)
  | evalParse {text rt message m}
      (hparse : W.parse text rt.enterEval.1 rt.enterEval.2.2.memory = (.error message, m)) :
      Ends W (.eval text) rt (.threw message { rt.enterEval.2.2 with memory := m })
  | evalThrows {text rt s id body m fuel region rt₂ message rt₃}
      (henter : rt.enterEval.1 = s ∧ rt.enterEval.2.1 = id)
      (hparse : W.parse text s rt.enterEval.2.2.memory = (.ok body, m))
      (hcode : compileLambda W.cfg fuel id s { rt.enterEval.2.2 with memory := setBody id body m }
        = .ok (region, rt₂))
      (hcall : Ends W (.call (.procedure (.lambda id) [])) rt₂ (.threw message rt₃)) :
      Ends W (.eval text) rt (.threw message rt₃)

/-! ### The executable model -/

section Exec

variable {host : Host} {region start : Nat} {code : Bytecode} {rt : Runtime}

theorem exec_of_callee {call : Interpreter.CallWithNArgs} {f : Value} {n : Nat} {rt₁ : Runtime}
    (h : callee? code rt = some (f, n, rt₁)) :
    Interpreter.exec host call region start code rt = call f n rt₁ := by
  cases code with
  | invoke g k | invokeNative g k =>
      rw [callee?] at h
      split at h
      · rename_i hg
        cases h
        exact if_pos hg
      · cases h
  | invokeDynamic k =>
      rw [callee?] at h
      cases hp : rt.pop with
      | error e =>
          rw [hp] at h
          cases h
      | ok p =>
          rw [hp] at h
          dsimp only at h
          split at h
          · rename_i hg
            cases h
            change (rt.pop >>= fun p => Interpreter.invoke host call p.1 k p.2) = _
            rw [hp]
            exact if_pos hg
          · cases h
  | _ => cases h

/-- Without a callee, it does not matter what a call would do. -/
theorem exec_of_no_callee (call call' : Interpreter.CallWithNArgs) (h : callee? code rt = none) :
    Interpreter.exec host call region start code rt
      = Interpreter.exec host call' region start code rt := by
  cases code with
  | invoke g k | invokeNative g k =>
      have hg : ¬ g.isProcedure = true := fun hg => by
        rw [callee?, if_pos hg] at h
        cases h
      exact (if_neg hg).trans (if_neg hg).symm
  | invokeDynamic k =>
      change (rt.pop >>= fun p => Interpreter.invoke host call p.1 k p.2)
        = (rt.pop >>= fun p => Interpreter.invoke host call' p.1 k p.2)
      cases hp : rt.pop with
      | error e => rfl
      | ok p =>
          have hg : ¬ p.1.isProcedure = true := fun hg => by
            rw [callee?, hp] at h
            dsimp only at h
            rw [if_pos hg] at h
            cases h
          exact (if_neg hg).trans (if_neg hg).symm
  | _ => rfl

end Exec

/-- What the executable model computes for an activity is one of its ends. -/
def Computed (W : World) (a : Activity) (rt : Runtime) : Except Fault Runtime → Prop
  | .ok rt' => Ends W a rt (.returned rt')
  | .error (.thrown message) => ∃ rt', Ends W a rt (.threw message rt')
  | .error _ => True

/-- The natives and the event loop of the host do what the world says of them. -/
structure World.Faithful (W : World) : Prop where
  native : ∀ x args rt, Computed W (.foreign (W.natives x args)) rt (W.host.applyNative x args rt)
  events : ∀ rt, Computed W (.foreign (W.events rt)) rt (W.host.runEvents rt)

section Model

variable {W : World} {a b : Activity} {rt rt' : Runtime}

/-- An activity that goes on as another one ends as that does. -/
theorem Computed.of_ends {r : Except Fault Runtime} (h : Computed W a rt r)
    (hends : ∀ e, Ends W a rt e → Ends W b rt' e) : Computed W b rt' r := by
  cases r with
  | ok _ => exact hends _ h
  | error e => cases e with
      | thrown m =>
          obtain ⟨rt', h⟩ := h
          exact ⟨rt', hends _ h⟩
      | _ => trivial

/-- The calls the interpreter makes are calls of this world. -/
def Calls (W : World) (callN : Interpreter.CallWithNArgs) : Prop :=
  ∀ f n rt, ∃ call : Value → List Value → Runtime → Except Fault Runtime,
    callN f n rt = callWithNArgs call (paramsOf W.host rt.memory f) f n rt ∧
      ∀ args rt, Computed W (.call (.procedure f args)) rt (call f args rt)

theorem collectArgs_not_thrown {ps : List Argument} {k : Int} {args s : List Value}
    {message : String} : collectArgs ps k args s ≠ .error (.thrown message) := by
  induction ps generalizing k args s with
  | nil => nofun
  | cons p ps ih =>
      unfold collectArgs
      split
      · dsimp only
        split <;> nofun
      · split
        · split
          · exact ih
          · nofun
        · split
          · exact ih
          · nofun

/-- Taking arguments throws nothing. -/
theorem takeArgs_not_thrown {ps : List Argument} {n : Nat} {message : String} :
    takeArgs ps n rt ≠ .error (.thrown message) := by
  rw [takeArgs]
  split
  · intro h
    cases h
  · rename_i s _
    cases hc : collectArgs ps n [] s with
    | ok p =>
        intro h
        cases h
    | error e =>
        intro h
        cases h
        exact collectArgs_not_thrown hc

/-- **The interpreter's loop** ends as the world says. -/
theorem runWithin_ends (hW : W.Faithful) {callN : Interpreter.CallWithNArgs} (hcall : Calls W callN)
    (region fuel : Nat) (rt : Runtime) :
    Computed W (.run region) rt (runWithin W.host callN region fuel rt) := by
  induction fuel generalizing rt with
  | zero => trivial
  | succ k ih =>
      rw [runWithin, Interpreter.step]
      cases hf : Interpreter.fetch region rt with
      | none => trivial
      | some p =>
          obtain ⟨start, code, next⟩ := p
          dsimp only
          by_cases hret : code = .ret
          · subst hret
            have hevents := (hW.events { rt with current := some ⟨region, next⟩ }).of_ends
              fun e h => Ends.ret hf h
            rw [if_pos rfl]
            cases hr : W.host.runEvents { rt with current := some ⟨region, next⟩ } with
            | ok rt' | error e => rwa [hr] at hevents
          · rw [if_neg hret]
            cases hc : callee? code { rt with current := some ⟨region, next⟩ } with
            | none =>
                rw [exec_of_no_callee callN noCall hc]
                cases hx : Interpreter.exec W.host noCall region start code
                    { rt with current := some ⟨region, next⟩ } with
                | ok rt₁ => exact (ih rt₁).of_ends fun e h => .step hf hc hret hx h
                | error e => cases e with
                    | thrown m => exact ⟨_, .stepThrows hf hc hret hx fun t _ => List.nil_suffix⟩
                    | _ => trivial
            | some q =>
                obtain ⟨f, n, rt₁⟩ := q
                obtain ⟨call, hcallN, hends⟩ := hcall f n rt₁
                rw [exec_of_callee hc, hcallN, callWithNArgs_eq]
                cases hargs : takeArgs (paramsOf W.host rt₁.memory f) n rt₁ with
                | error e => cases e with
                    | thrown m => exact absurd hargs takeArgs_not_thrown
                    | _ => trivial
                | ok r =>
                    obtain ⟨args, rt₂⟩ := r
                    have hf' := hends args rt₂
                    change Computed W _ rt (Outcome.running <$> call f args rt₂ >>= _)
                    cases hx : call f args rt₂ with
                    | ok rt₃ =>
                        rw [hx] at hf'
                        exact (ih rt₃).of_ends fun e h => .invoke hf hc hargs hf' h
                    | error e => cases e with
                        | thrown m =>
                            rw [hx] at hf'
                            obtain ⟨rt₃, hf'⟩ := hf'
                            exact ⟨rt₃, .invokeThrows hf hc hargs hf'⟩
                        | _ => trivial

theorem popFrame_not_thrown {message : String} : rt.popFrame ≠ .error (.thrown message) := by
  rw [popFrame]
  split <;> nofun

theorem bindLambda_not_thrown {id : Nat} {f : Lambda} {args : List Value} {message : String} :
    bindLambda id f args rt ≠ .error (.thrown message) := by
  have hargs : ∀ locals ps vs (m : Scopes), bindArgs locals ps vs m ≠ .error (.thrown message) := by
    intro locals ps
    induction ps with
    | nil =>
        intro vs m h
        cases h
    | cons p ps ih =>
        intro vs m
        cases vs with
        | nil =>
            intro h
            cases h
        | cons v vs =>
            rw [bindArgs]
            dsimp only
            split
            · exact ih _ _
            · intro h
              cases h
  rw [bindLambda]
  dsimp only
  split
  · intro h
    cases h
  · intro h
    cases hb : bindArgs rt.pushScope.1 f.args.reverse args _ with
    | ok m =>
        rw [hb] at h
        cases h
    | error e =>
        rw [hb] at h
        cases h
        exact hargs _ _ _ _ hb

theorem compileLambda_not_thrown {cfg : Config} {fuel id : Nat} {locals : ScopeId}
    {message : String} : compileLambda cfg fuel id locals rt ≠ .error (.thrown message) := by
  rw [compileLambda]
  split
  · intro h
    cases h
  · split
    · intro h
      cases h
    · split
      · intro h
        cases h
      · dsimp only
        split <;> (intro h; cases h)

/-- A callee's body, and what the call does behind it. -/
theorem Computed.call {c : Callee} {rt₁ : Runtime} {r : Except Fault Runtime}
    (henter : Enters W c rt a rt₁) (h : Computed W a rt₁ r) :
    Computed W (.call c) rt (do return (← (← r).popFrame).popScope) := by
  cases r with
  | ok rt₂ =>
      cases hpop : rt₂.popFrame with
      | ok rt₃ =>
          change Computed W _ _ (rt₂.popFrame >>= fun rt => pure rt.popScope)
          rw [hpop]
          exact Ends.call henter h hpop
      | error e =>
          change Computed W _ _ (rt₂.popFrame >>= fun rt => pure rt.popScope)
          rw [hpop]
          cases e with
          | thrown m => exact absurd hpop popFrame_not_thrown
          | _ => trivial
  | error e => cases e with
      | thrown m =>
          obtain ⟨rt₂, h⟩ := h
          exact ⟨rt₂, .callThrows henter h⟩
      | _ => trivial

/-- **The executable model.**  What `call` computes, and the exception it fails with, is how the
call ends. -/
theorem call_ends (hW : W.Faithful) (n : Nat) (f : Value) (args : List Value) (rt : Runtime) :
    Computed W (.call (.procedure f args)) rt (Runtime.call W.cfg W.host n f args rt) := by
  induction n generalizing f args rt with
  | zero => trivial
  | succ n ih =>
      have hcalls : Calls W fun f k rt =>
          callWithNArgs (Runtime.call W.cfg W.host n) (paramsOf W.host rt.memory f) f k rt :=
        fun f k rt => ⟨_, rfl, ih f⟩
      cases f with
      | lambda id =>
          rw [Runtime.call]
          dsimp only
          cases hf : rt.memory.lambdas[id]? with
          | none => trivial
          | some lambda =>
              dsimp only
              cases hbind : bindLambda id lambda args rt with
              | error e => cases e with
                  | thrown m => exact absurd hbind bindLambda_not_thrown
                  | _ => trivial
              | ok p =>
                  obtain ⟨locals, rt₁⟩ := p
                  change Computed W _ _ (compileLambda W.cfg n id locals rt₁ >>= _)
                  cases hcode : compileLambda W.cfg n id locals rt₁ with
                  | error e => cases e with
                      | thrown m => exact absurd hcode compileLambda_not_thrown
                      | _ => trivial
                  | ok q =>
                      obtain ⟨region, rt₂⟩ := q
                      exact (runWithin_ends hW hcalls region n _).call (.lambda hf hbind hcode)
      | native x => exact (hW.native x args _).call .native
      | _ => trivial

/-- What `Call(Script*)` computes. -/
theorem callScript_ends (hW : W.Faithful) (n id : Nat) (rt : Runtime) :
    Computed W (.call (.script id)) rt (Runtime.callScript W.cfg W.host n id rt) := by
  have hcalls : Calls W fun f k rt =>
      callWithNArgs (Runtime.call W.cfg W.host n) (paramsOf W.host rt.memory f) f k rt :=
    fun f k rt => ⟨_, rfl, call_ends hW n f⟩
  rw [Runtime.callScript]
  cases hf : rt.memory.scripts[id]? with
  | none => trivial
  | some script =>
      dsimp only
      cases hcode : script.code with
      | none => trivial
      | some region => exact (runWithin_ends hW hcalls region n _).call (.script hf hcode)

end Model

end Gel
