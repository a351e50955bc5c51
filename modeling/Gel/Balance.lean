import Gel.Calls
import Gel.Machine

/-!
# Balance — what a call leaves behind

A call that returns puts the current scope and the stack of frames back, hands one value to the
caller and returns to the caller's address (`calls_balanced`).  From code it also takes as many
arguments off the caller's stack as the procedure has parameters, which is all of them only when no
more were passed.  A call that an exception leaves keeps its scope and its frame (`failed_changes`).
-/

namespace Gel

open Faulting Gel.Runtime

namespace Runtime

/-- The runtime after something that works on the operation stack of the top frame. -/
structure Stays (rt rt' : Runtime) : Prop where
  scope : rt'.scope = rt.scope
  scopes : rt.memory.scopes.Extended rt'.memory.scopes
  frames : ∃ s, rt'.frames = (rt.setStack s).frames

namespace Stays

variable {rt rt' rt'' : Runtime}

theorem setStack (rt : Runtime) (s : List Value) : rt.Stays (rt.setStack s) :=
  ⟨rfl, .refl _, s, rfl⟩

theorem refl (rt : Runtime) : rt.Stays rt := by
  refine ⟨rfl, .refl _, rt.stack?.getD [], ?_⟩
  cases h : rt.frames <;> simp [Runtime.setStack, Runtime.stack?, h]

theorem trans (h : rt.Stays rt') (h' : rt'.Stays rt'') : rt.Stays rt'' := by
  obtain ⟨s, hs⟩ := h.frames
  obtain ⟨t, ht⟩ := h'.frames
  refine ⟨h'.scope.trans h.scope, h.scopes.trans h'.scopes, t, ?_⟩
  rw [ht, Runtime.setStack, hs]
  cases hf : rt.frames <;> simp [Runtime.setStack, hf]

theorem memory {m : Memory} (h : rt.memory.scopes.Extended m.scopes) :
    rt.Stays { rt with memory := m } := ⟨rfl, h, (refl rt).frames⟩

theorem current (rt : Runtime) (x : Option Address) : rt.Stays { rt with current := x } :=
  ⟨rfl, .refl _, (refl rt).frames⟩

theorem push {v : Value} (h : rt.push v = .ok rt') : rt.Stays rt' := by
  rw [Runtime.push] at h
  split at h
  · cases h
    exact setStack _ _
  · cases h

theorem pop {v : Value} (h : rt.pop = .ok (v, rt')) : rt.Stays rt' := by
  rw [Runtime.pop] at h
  split at h
  · cases h
    exact setStack _ _
  · cases h

theorem jumpTo {region : Nat} {target : Int} (h : rt.jumpTo region target = .ok rt') :
    rt.Stays rt' := by
  rw [Runtime.jumpTo] at h
  split at h
  · cases h
    exact current _ _
  · cases h

end Stays

end Runtime

section Exec

variable {host : Host} {region start : Nat} {code : Bytecode} {rt rt' : Runtime}

/-- An error is thrown for what is not a procedure. -/
theorem invalid_not_ok {message : String} :
    (do Interpreter.throw (← rt.push (.error 0 message))) ≠ Except.ok rt' := by
  intro h
  obtain ⟨rt₁, hpush, h⟩ := result_bind_eq_ok.mp h
  obtain ⟨⟨v, rt₂⟩, -, h⟩ := result_bind_eq_ok.mp h
  dsimp only at h
  split at h <;> cases h

theorem jump_stays {op : Op} {target : Int} (h : Interpreter.jump region op target rt = .ok rt') :
    rt.Stays rt' := by
  cases op with
  | jump => exact .jumpTo h
  | jnz =>
      obtain ⟨⟨v, rt₁⟩, hp, h⟩ := result_bind_eq_ok.mp h
      refine (Stays.pop hp).trans ?_
      change (if v.truth = true then Except.ok rt₁ else rt₁.jumpTo region target) = _ at h
      split at h
      · cases h
        exact .refl _
      · exact .jumpTo h
  | jne =>
      obtain ⟨⟨v, rt₁⟩, hp, h⟩ := result_bind_eq_ok.mp h
      obtain ⟨⟨w, rt₂⟩, hq, h⟩ := result_bind_eq_ok.mp h
      obtain ⟨r, -, h⟩ := result_bind_eq_ok.mp h
      refine ((Stays.pop hp).trans (.pop hq)).trans ?_
      change (if r = true then Except.ok rt₂ else rt₂.jumpTo region target) = _ at h
      split at h
      · cases h
        exact .refl _
      · exact .jumpTo h
  | _ => cases h

/-- An operation that calls nothing works on the operation stack. -/
theorem exec_stays (hhost : host.Extends) (hc : callee? code rt = none)
    (h : Interpreter.exec host noCall region start code rt = .ok rt') : rt.Stays rt' := by
  cases code with
  | nop | ret =>
      cases h
      exact .refl _
  | push v => exact .push h
  | pop =>
      obtain ⟨p, hp, rfl⟩ := result_map_eq_ok.mp h
      exact .pop hp
  | dup => cases h
  | lookup =>
      obtain ⟨⟨v, rt₁⟩, hp, h⟩ := result_bind_eq_ok.mp h
      refine (Stays.pop hp).trans ?_
      dsimp only at h
      split at h
      · exact .push h
      · cases h
      · cases h
  | throw =>
      obtain ⟨⟨v, rt₁⟩, hp, h⟩ := result_bind_eq_ok.mp h
      dsimp only at h
      split at h <;> cases h
  | storeLocal idx =>
      change Interpreter.storeLocal idx rt = _ at h
      rw [Interpreter.storeLocal] at h
      split at h
      · cases h
      · obtain ⟨⟨v, rt₁⟩, hp, h⟩ := result_bind_eq_ok.mp h
        cases h
        exact (Stays.pop hp).trans (.memory (.setValue _ _ _))
  | loadLocal idx =>
      change Interpreter.loadLocal idx rt = _ at h
      rw [Interpreter.loadLocal] at h
      split at h
      · cases h
      · exact .push h
  | invoke f n | invokeNative f n =>
      rw [callee?] at hc
      split at hc
      · cases hc
      · rename_i hf
        change (if f.isProcedure then _ else _) = _ at h
        rw [if_neg hf] at h
        exact absurd h invalid_not_ok
  | invokeDynamic n =>
      obtain ⟨⟨f, rt₁⟩, hp, h⟩ := result_bind_eq_ok.mp h
      rw [callee?, hp] at hc
      dsimp only at hc
      split at hc
      · cases hc
      · rename_i hf
        change (if f.isProcedure then _ else _) = _ at h
        rw [if_neg hf] at h
        exact absurd h invalid_not_ok
  | checkInstance c =>
      change Interpreter.checkInstance c rt = _ at h
      unfold Interpreter.checkInstance at h
      split at h
      · split at h
        · cases h
          exact .refl _
        · cases h
      · cases h
      · cases h
  | jump op offset => exact jump_stays h
  | cast c =>
      obtain ⟨⟨v, rt₁⟩, hp, h⟩ := result_bind_eq_ok.mp h
      refine (Stays.pop hp).trans ?_
      dsimp only at h
      split at h
      · obtain ⟨⟨o, m⟩, hm, h⟩ := result_bind_eq_ok.mp h
        exact (Stays.memory (hhost.newObservable hm)).trans (.push h)
      · cases h
        exact .refl _
  | new c n =>
      cases c with
      | cls c =>
          obtain ⟨⟨v, m⟩, hm, h⟩ := result_bind_eq_ok.mp h
          have hpop : rt.Stays (rt.popN n.toNat).2 := by
            rw [popN]
            split
            · exact .setStack _ _
            · exact .refl _
          exact (hpop.trans (.memory (hhost.newInstance hm))).trans (.push h)
      | _ => cases h
  | loadField f =>
      obtain ⟨⟨v, rt₁⟩, hp, h⟩ := result_bind_eq_ok.mp h
      obtain ⟨x, -, h⟩ := result_bind_eq_ok.mp h
      exact (Stays.pop hp).trans (.push h)
  | storeField f =>
      obtain ⟨⟨v, rt₁⟩, hp, h⟩ := result_bind_eq_ok.mp h
      obtain ⟨⟨x, rt₂⟩, hq, h⟩ := result_bind_eq_ok.mp h
      obtain ⟨m, hm, h⟩ := result_bind_eq_ok.mp h
      cases h
      exact ((Stays.pop hp).trans (.pop hq)).trans (.memory (hhost.setField hm))
  | unary op =>
      obtain ⟨⟨v, rt₁⟩, hp, h⟩ := result_bind_eq_ok.mp h
      obtain ⟨x, -, h⟩ := result_bind_eq_ok.mp h
      exact (Stays.pop hp).trans (.push h)
  | binary op =>
      obtain ⟨⟨v, rt₁⟩, hp, h⟩ := result_bind_eq_ok.mp h
      obtain ⟨⟨w, rt₂⟩, hq, h⟩ := result_bind_eq_ok.mp h
      obtain ⟨x, -, h⟩ := result_bind_eq_ok.mp h
      exact ((Stays.pop hp).trans (.pop hq)).trans (.push h)

end Exec

/-! ### Entering and leaving a callee -/

/-- The call has put scope and frames back, and handed `v` to the caller. -/
structure Runtime.Balanced (rt : Runtime) (v : Value) (rt' : Runtime) : Prop where
  scope : rt'.scope = rt.scope
  frames : rt'.frames = (rt.setStack (v :: rt.stack?.getD [])).frames
  result : rt.frames = [] → rt'.result = some v
  current : ∀ x, rt.current = some x → rt'.current = some x

/-- The state in which a callee starts: a new scope, and a frame with an empty operation stack that
returns to the current address. -/
structure Entered (rt : Runtime) (locals : ScopeId) (rt₁ : Runtime) : Prop where
  locals_eq : locals = rt.memory.scopes.scopes.length
  scope : rt₁.scope = some locals
  scopes : (rt.memory.scopes.newScope rt.scope).2.Extended rt₁.memory.scopes
  frames : rt₁.frames = { locals, returnAddress := rt.current, stack := [] } :: rt.frames

theorem Enters.entered {W : World} {c : Callee} {rt rt₁ : Runtime} {body : Activity}
    (h : Enters W c rt body rt₁) : ∃ locals, Entered rt locals rt₁ := by
  cases h with
  | lambda hf hbind hcode =>
      obtain ⟨scopes, hscopes, rfl, rfl⟩ := bindLambda_spec hbind
      obtain ⟨m, hm, rfl⟩ := compileLambda_spec hcode
      exact ⟨_, rfl, rfl, hscopes.trans hm, rfl⟩
  | native =>
      refine ⟨_, rfl, rfl, ?_, rfl⟩
      exact .foldl _ _ fun m p => .addValue m _ _ _
  | script hf hcode => exact ⟨_, rfl, rfl, .addScope _ _ _, rfl⟩

/-- **Leaving a callee.**  If its body has worked on its own operation stack only, popping its frame
and its scope balances the call; what it left on top is the value. -/
theorem Entered.balanced {rt rt₁ rt₂ rt₃ : Runtime} {locals : ScopeId} (h : Entered rt locals rt₁)
    (hbody : rt₁.Stays rt₂) (hpop : rt₂.popFrame = .ok rt₃) :
    rt.Balanced ((rt₂.stack?.getD []).headD .null) rt₃.popScope := by
  obtain ⟨s, hs⟩ := hbody.frames
  have hframes : rt₂.frames = { locals, returnAddress := rt.current, stack := s } :: rt.frames := by
    rw [hs, Runtime.setStack, h.frames]
  have hparent : rt₂.memory.scopes.parentOf locals = rt.scope := by
    have hlt : locals < (rt.memory.scopes.newScope rt.scope).2.scopes.length := by
      simp [h.locals_eq, Scopes.newScope]
    rw [(h.scopes.trans hbody.scopes).parentOf hlt, Scopes.parentOf, h.locals_eq]
    simp [Scopes.newScope]
  have hscope : rt₂.scope = some locals := hbody.scope.trans h.scope
  rw [popFrame, hframes] at hpop
  cases hpop
  have hstack : rt₂.stack? = some s := by rw [Runtime.stack?, hframes]; rfl
  rw [hstack]
  have hback : rt₂.scope.bind rt₂.memory.scopes.parentOf = rt.scope := by rw [hscope]; exact hparent
  cases hf : rt.frames with
  | nil =>
      cases hc : rt.current with
      | none | some x =>
          refine ⟨hback, ?_, fun _ => rfl, ?_⟩
          · simp [popScope, Runtime.setStack, hf]
          · simp [popScope, hc]
  | cons f fs =>
      cases hc : rt.current with
      | none | some x =>
          refine ⟨hback, ?_, fun h => absurd h (hf ▸ List.cons_ne_nil _ _), ?_⟩
          · simp [popScope, Runtime.setStack, Runtime.stack?, hf]
          · simp [popScope, hc]

/-- A balanced call adds a value to the caller's stack. -/
theorem Runtime.Balanced.stays {rt rt' : Runtime} {v : Value} (h : rt.Balanced v rt')
    (hs : rt.memory.scopes.Extended rt'.memory.scopes) : rt.Stays rt' := ⟨h.scope, hs, _, h.frames⟩

/-- `CallPop` takes the value off again. -/
theorem Runtime.Balanced.takeResult {rt rt' : Runtime} {v : Value} (h : rt.Balanced v rt') :
    rt'.takeResult.1 = v ∧ rt'.takeResult.2.scope = rt.scope ∧
      rt'.takeResult.2.frames = rt.frames ∧
      ∀ x, rt.current = some x → rt'.takeResult.2.current = some x := by
  have hframes := h.frames
  cases hf : rt.frames with
  | nil =>
      have hf' : rt'.frames = [] := by simpa [Runtime.setStack, hf] using hframes
      simp only [Runtime.takeResult, hf', h.result hf]
      exact ⟨rfl, h.scope, trivial, h.current⟩
  | cons f fs =>
      have hf' : rt'.frames = { f with stack := v :: f.stack } :: fs := by
        simpa [Runtime.setStack, Runtime.stack?, hf] using hframes
      simp only [Runtime.takeResult, hf']
      exact ⟨rfl, h.scope, rfl, h.current⟩

/-! ### Runs -/

/-- The state an exception leaves: more frames on those there were, and the scope there was or a
newer one. -/
structure Runtime.Left (rt rt' : Runtime) : Prop where
  scopes : rt.memory.scopes.Extended rt'.memory.scopes
  frames : ∃ fs s, rt'.frames = fs ++ (rt.setStack s).frames
  scope : rt'.scope = rt.scope ∨ ∃ s, rt'.scope = some s ∧ rt.memory.scopes.scopes.length ≤ s

/-- What an exception leaves of a call: the frame of the callee on those there were, and a scope
that is newer than all there were. -/
structure Runtime.Failed (rt rt' : Runtime) : Prop where
  scopes : rt.memory.scopes.Extended rt'.memory.scopes
  frames : ∃ fs f, rt'.frames = fs ++ f :: rt.frames
  scope : ∃ s, rt'.scope = some s ∧ rt.memory.scopes.scopes.length ≤ s

/-- What is known of an end of an activity. -/
def Ended : Activity → Runtime → Exit → Prop
  | .run _, rt, .returned rt' => rt.Stays rt'
  | .foreign _, rt, .returned rt' =>
      rt.Stays rt' ∧ ∀ x, rt.current = some x → rt'.current = some x
  | .call _, rt, .returned rt' =>
      rt.memory.scopes.Extended rt'.memory.scopes ∧ ∃ v, rt.Balanced v rt'
  | .eval _, _, .returned _ => True
  | .run _, rt, .threw _ rt' | .foreign _, rt, .threw _ rt' => rt.Left rt'
  | .call _, rt, .threw _ rt' => rt.Failed rt'
  | .eval _, rt, .threw _ rt' => ∃ s, rt'.scope = some s ∧ rt.memory.scopes.scopes.length ≤ s

namespace Runtime

variable {rt rt' rt'' : Runtime}

theorem Left.of_stays (h : rt.Stays rt') : rt.Left rt' := by
  obtain ⟨s, hs⟩ := h.frames
  exact ⟨h.scopes, ⟨[], s, hs⟩, .inl h.scope⟩

theorem Stays.left (h : rt.Stays rt') (h' : rt'.Left rt'') : rt.Left rt'' := by
  obtain ⟨s, hs⟩ := h.frames
  obtain ⟨fs, t, ht⟩ := h'.frames
  refine ⟨h.scopes.trans h'.scopes, ⟨fs, t, ?_⟩, ?_⟩
  · rw [ht, Runtime.setStack, hs]
    cases hf : rt.frames <;> simp [Runtime.setStack, hf]
  · rcases h'.scope with heq | ⟨s, heq, hle⟩
    · exact .inl (heq.trans h.scope)
    · exact .inr ⟨s, heq, h.scopes.length_le.trans hle⟩

theorem Failed.left (h : rt.Failed rt') : rt.Left rt' := by
  obtain ⟨fs, f, hf⟩ := h.frames
  obtain ⟨s, hs⟩ := (Stays.refl rt).frames
  exact ⟨h.scopes, ⟨fs ++ [f], s, by rw [hf, hs, List.append_assoc]; rfl⟩, .inr h.scope⟩

end Runtime

/-- An exception in the body leaves the callee's scope and frame. -/
theorem Entered.failed {rt rt₁ rt₂ : Runtime} {locals : ScopeId} (h : Entered rt locals rt₁)
    (hbody : rt₁.Left rt₂) : rt.Failed rt₂ := by
  have hnew := (Scopes.Extended.newScope rt.memory.scopes rt.scope).trans h.scopes
  obtain ⟨fs, s, hs⟩ := hbody.frames
  refine ⟨hnew.trans hbody.scopes, ⟨fs, _, by rw [hs, Runtime.setStack, h.frames]⟩, ?_⟩
  rcases hbody.scope with heq | ⟨s, heq, hle⟩
  · exact ⟨locals, heq.trans h.scope, h.locals_eq.ge⟩
  · exact ⟨s, heq, hnew.length_le.trans hle⟩

/-! ### The arguments of a call -/

/-- How many of `k` arguments a call takes from the caller's stack. -/
def taken (ps : List Argument) (k : Int) : Nat :=
  if ps.any Argument.vararg then k.toNat else min k.toNat ps.length

theorem collectArgs_spec {ps : List Argument} {k k' : Int} {args args' s s' : List Value}
    (h : collectArgs ps k args s = .ok (args', k', s')) : s' = s.drop (taken ps k) := by
  induction ps generalizing k args s with
  | nil =>
      cases h
      simp [taken]
  | cons p ps ih =>
      unfold collectArgs at h
      split at h
      · rename_i hp
        dsimp only at h
        split at h
        · cases h
          simp [taken, hp]
        · cases h
      · rename_i hp
        split at h
        · rename_i hk
          split at h
          · have htaken : taken (p :: ps) k = taken ps (k - 1) + 1 := by
              simp only [taken, List.any_cons, hp, Bool.false_or, List.length_cons]
              split <;> omega
            rw [ih h, htaken, List.drop_succ_cons]
          · cases h
        · rename_i hk
          split at h
          · have htaken : taken (p :: ps) k = taken ps (k - 1) := by
              simp only [taken, List.any_cons, hp, Bool.false_or, List.length_cons]
              split <;> omega
            rw [ih h, htaken]
          · cases h

/-- Taking arguments drops them from the stack. -/
theorem takeArgs_spec {ps : List Argument} {n : Nat} {rt rt' : Runtime} {args : List Value}
    (h : takeArgs ps n rt = .ok (args, rt')) :
    ∃ s, rt.stack? = some s ∧ rt' = rt.setStack (s.drop (taken ps n)) := by
  rw [takeArgs] at h
  split at h
  · cases h
  · rename_i s hs
    obtain ⟨⟨as, k, t⟩, hc, h⟩ := result_bind_eq_ok.mp h
    cases h
    exact ⟨s, hs, by rw [collectArgs_spec hc]⟩

/-! ### Every end -/

section Ended

variable {W : World} {a : Activity} {rt rt₁ rt' : Runtime} {e : Exit}

theorem Ended.run {region : Nat} (h : rt.Stays rt₁) (he : Ended (.run region) rt₁ e) :
    Ended (.run region) rt e := by
  cases e with
  | returned rt' => exact h.trans he
  | threw m rt' => exact h.left he

theorem Ended.foreign {code code' : Foreign} (h : rt.Stays rt₁)
    (hcurrent : ∀ x, rt.current = some x → rt₁.current = some x)
    (he : Ended (.foreign code') rt₁ e) : Ended (.foreign code) rt e := by
  cases e with
  | returned rt' => exact ⟨h.trans he.1, fun x hx => he.2 x (hcurrent x hx)⟩
  | threw m rt' => exact h.left he

/-- The procedure an operation calls comes from the code or from the stack. -/
theorem callee_stays {code : Bytecode} {f : Value} {n : Nat}
    (h : callee? code rt = some (f, n, rt₁)) : rt.Stays rt₁ := by
  cases code with
  | invoke g k | invokeNative g k =>
      rw [callee?] at h
      split at h
      · cases h
        exact .refl _
      · cases h
  | invokeDynamic k =>
      rw [callee?] at h
      split at h
      · rename_i hp
        split at h
        · cases h
          exact .pop hp
        · cases h
      · cases h
  | _ => cases h

theorem takeArgs_stays {ps : List Argument} {n : Nat} {args : List Value}
    (h : takeArgs ps n rt = .ok (args, rt₁)) : rt.Stays rt₁ := by
  obtain ⟨s, -, rfl⟩ := takeArgs_spec h
  exact .setStack _ _

theorem enterEval_spec (rt : Runtime) :
    (rt.memory.scopes.newScope rt.scope).2.Extended rt.enterEval.2.2.memory.scopes ∧
      rt.enterEval.2.2.scope = some rt.memory.scopes.scopes.length :=
  ⟨(Scopes.Extended.newLocal _ _ _ _).trans (.addLocal _ _ _), rfl⟩

theorem push_current {v : Value} (h : rt.push v = .ok rt') : rt'.current = rt.current := by
  rw [Runtime.push] at h
  split at h <;> cases h
  rfl

theorem takeResult_memory (rt : Runtime) : rt.takeResult.2.memory = rt.memory := by
  rw [takeResult]
  split <;> rfl

/-- A callee's body is run by the interpreter or by a native. -/
theorem Enters.body {c : Callee} (h : Enters W c rt a rt₁) :
    (∀ rt₂, Ended a rt₁ (.returned rt₂) → rt₁.Stays rt₂) ∧
      ∀ m rt₂, Ended a rt₁ (.threw m rt₂) → rt₁.Left rt₂ := by
  cases h with
  | lambda | script => exact ⟨fun _ h => h, fun _ _ h => h⟩
  | native => exact ⟨fun _ h => h.1, fun _ _ h => h⟩

theorem popFrame_memory (h : rt.popFrame = .ok rt') : rt'.memory = rt.memory := by
  rw [popFrame] at h
  split at h
  · cases h
  · cases h
    dsimp only
    split <;> split <;> rfl

/-- **Runs.**  Every end of every activity is as `Ended` says, at any depth of calls. -/
theorem Ends.ended (h : Ends W a rt e) : Ended a rt e := by
  induction h with
  | step hf hc hret hx hrun ih =>
      exact .run ((Stays.current _ _).trans (exec_stays W.host_extends hc hx)) ih
  | stepThrows hf hc hret hx hs =>
      exact .of_stays ((Stays.current _ _).trans (.setStack _ _))
  | invoke hf hc hargs hcall hrun ihcall ihrun =>
      obtain ⟨hscopes, v, hv⟩ := ihcall
      have hcallee := (Stays.current _ _).trans ((callee_stays hc).trans (takeArgs_stays hargs))
      exact .run (hcallee.trans (hv.stays hscopes)) ihrun
  | invokeThrows hf hc hargs hcall ihcall =>
      exact ((Stays.current _ _).trans ((callee_stays hc).trans (takeArgs_stays hargs))).left
        ihcall.left
  | @ret region start next rt e hf hevents ih =>
      cases e with
      | returned rt' => exact (Stays.current _ _).trans ih.1
      | threw m rt' => exact (Stays.current _ _).left ih
  | done => exact ⟨.refl _, fun _ => id⟩
  | throws => exact .of_stays (.refl _)
  | @access change hext next rt e h ih => exact .foreign (.memory (hext rt)) (fun _ => id) ih
  | push hpush h ih =>
      have hcurrent : ∀ x, _ = some x → _ = some x := fun x hx => (push_current hpush).trans hx
      exact .foreign (.push hpush) hcurrent ih
  | callback hcall h ihcall ih =>
      obtain ⟨hscopes, v, hv⟩ := ihcall
      exact .foreign (hv.stays hscopes) hv.current ih
  | callbackThrows hcall ihcall => exact ihcall.left
  | callPop hcall h ihcall ih =>
      obtain ⟨hscopes, v, hv⟩ := ihcall
      obtain ⟨-, hscope, hframes, hcurrent⟩ := hv.takeResult
      refine .foreign ⟨hscope, ?_, ?_⟩ hcurrent ih
      · rw [takeResult_memory]
        exact hscopes
      · rw [hframes]
        exact (Stays.refl _).frames
  | callPopThrows hcall ihcall => exact ihcall.left
  | call henter hbody hpop ih =>
      obtain ⟨locals, hentered⟩ := henter.entered
      have hstays := henter.body.1 _ ih
      refine ⟨?_, _, hentered.balanced hstays hpop⟩
      rw [popScope, popFrame_memory hpop]
      exact ((Scopes.Extended.newScope _ _).trans hentered.scopes).trans hstays.scopes
  | callThrows henter hbody ih =>
      obtain ⟨locals, hentered⟩ := henter.entered
      exact hentered.failed (henter.body.2 _ _ ih)
  | eval henter hparse hcode hcall ih => trivial
  | @evalParse text rt message m hparse => exact ⟨_, (enterEval_spec rt).2, le_rfl⟩
  | @evalThrows text rt s id body m fuel region rt₂ message rt₃ henter hparse hcode hcall ih =>
      obtain ⟨scopes, hscopes, rfl⟩ := compileLambda_spec hcode
      have hparsed := W.parse_extended text s rt.enterEval.2.2.memory
      rw [hparse] at hparsed
      have hall := (((Scopes.Extended.newScope _ _).trans (enterEval_spec rt).1).trans
        hparsed).trans hscopes
      obtain ⟨t, ht, hle⟩ := ih.scope
      exact ⟨t, ht, hall.length_le.trans hle⟩

end Ended

/-! ### Calls that return -/

/-- The call of `c` returns and leaves `v`: the top of its operation stack when its frame is popped,
or null when it left nothing. -/
def Returns (W : World) (c : Callee) (rt : Runtime) (v : Value) (rt' : Runtime) : Prop :=
  ∃ body rt₁ rt₂ rt₃, Enters W c rt body rt₁ ∧ Ends W body rt₁ (.returned rt₂) ∧
    rt₂.popFrame = .ok rt₃ ∧ v = (rt₂.stack?.getD []).headD .null ∧ rt' = rt₃.popScope

/-- What a call that returns ends with is what it returns. -/
theorem ends_call_iff {W : World} {c : Callee} {rt rt' : Runtime} :
    Ends W (.call c) rt (.returned rt') ↔ ∃ v, Returns W c rt v rt' := by
  constructor
  · intro h
    cases h with
    | call henter hbody hpop => exact ⟨_, _, _, _, _, henter, hbody, hpop, rfl, rfl⟩
  · rintro ⟨v, body, rt₁, rt₂, rt₃, henter, hbody, hpop, -, rfl⟩
    exact .call henter hbody hpop

theorem Returns.balanced {W : World} {c : Callee} {rt rt' : Runtime} {v : Value}
    (h : Returns W c rt v rt') : rt.Balanced v rt' := by
  obtain ⟨body, rt₁, rt₂, rt₃, henter, hbody, hpop, rfl, rfl⟩ := h
  obtain ⟨locals, hentered⟩ := henter.entered
  exact hentered.balanced (henter.body.1 _ hbody.ended) hpop

/-- Every argument of a call belongs to a parameter. -/
def Covers (ps : List Argument) (n : Nat) : Prop := ps.any Argument.vararg ∨ n ≤ ps.length

/-- **Call balance.**  A call with its arguments in hand, as `CallPop` makes it, is balanced.  A call
from code takes its arguments from the caller's stack, and leaves that as it was without them and
with one value if and only if every argument belongs to a parameter. -/
theorem calls_balanced (W : World) :
    (∀ c rt v rt', Returns W c rt v rt' → rt.Balanced v rt' ∧ rt'.takeResult.1 = v ∧
      rt'.takeResult.2.scope = rt.scope ∧ rt'.takeResult.2.frames = rt.frames ∧
      ∀ x, rt.current = some x → rt'.takeResult.2.current = some x) ∧
    ∀ f n rt s args rt₁ v rt', rt.stack? = some s → n ≤ s.length →
      takeArgs (paramsOf W.host rt.memory f) n rt = .ok (args, rt₁) →
      Returns W (.procedure f args) rt₁ v rt' →
      ((rt.setStack (s.drop n)).Balanced v rt' ↔ Covers (paramsOf W.host rt.memory f) n) := by
  refine ⟨fun c rt v rt' h => ⟨h.balanced, h.balanced.takeResult⟩, ?_⟩
  intro f n rt s args rt₁ v rt' hs hn hargs h
  obtain ⟨t, ht, rfl⟩ := takeArgs_spec hargs
  cases hs.symm.trans ht
  have hbalanced := h.balanced
  constructor
  · intro hall
    by_contra hcovers
    obtain ⟨hvararg, hlt⟩ := not_or.mp hcovers
    have hframes := hall.frames.symm.trans hbalanced.frames
    obtain ⟨g, hg, rfl⟩ := Option.map_eq_some_iff.mp hs
    obtain ⟨fs, hfs⟩ := List.head?_eq_some_iff.mp hg
    have hdrop : g.stack.drop n = g.stack.drop (taken (paramsOf W.host rt.memory f) n) := by
      simpa [Runtime.setStack, Runtime.stack?, hfs] using hframes
    have htaken : taken (paramsOf W.host rt.memory f) n = (paramsOf W.host rt.memory f).length := by
      rw [taken, if_neg hvararg]
      exact Nat.min_eq_right (by simpa using (Nat.lt_of_not_le hlt).le)
    have hlen := congrArg List.length hdrop
    rw [htaken, List.length_drop, List.length_drop] at hlen
    omega
  · intro hcovers
    have htaken : taken (paramsOf W.host rt.memory f) n = n := by
      rw [taken]
      split
      · exact Int.toNat_natCast n
      · rename_i hvararg
        exact Nat.min_eq_left (by simpa using hcovers.resolve_left hvararg)
    rwa [htaken] at hbalanced

/-- A world without natives, events and a parser. -/
def World.bare : World where
  host := Host.bare
  host_extends := ⟨nofun, nofun, nofun⟩
  natives _ _ := .done
  events _ := .done
  parse _ _ m := (.error "", m)
  parse_extended _ _ _ := .refl _

namespace Balance.Sample

/-- A caller with one argument on its stack, and a lambda whose code is a return. -/
def caller (params : List Argument) : Runtime where
  memory := { lambdas := [{ args := params, code := some 0 }], regions := [[Op.ret.raw]] }
  frames := [{ locals := 0, returnAddress := none, stack := [.long 7] }]
  current := some ⟨1, 0⟩

end Balance.Sample

namespace Balance.Sample

/-- A lambda that has its code already. -/
theorem entersLambda {id region locals : Nat} {args : List Value} {f : Lambda} {rt rt₁ rt₂ : Runtime}
    (hf : rt.memory.lambdas[id]? = some f) (hbind : bindLambda id f args rt = .ok (locals, rt₁))
    (hcode : compileLambda World.bare.cfg 0 id locals rt₁ = .ok (region, rt₂)) :
    Enters World.bare (.procedure (.lambda id) args) rt (.run region)
      { rt₂.pushFrame locals with current := some ⟨region, 0⟩ } := .lambda hf hbind hcode

end Balance.Sample

open Balance.Sample in
theorem calls_balanced_sample :
    ∃ rt', ((caller [{ name := "x" }]).setStack []).Balanced .null rt' := by
  have hreturns : Returns World.bare (.procedure (.lambda 0) [.long 7])
      ((caller [{ name := "x" }]).setStack []) .null _ :=
    ⟨_, _, _, _, entersLambda rfl rfl rfl, .ret rfl .done, rfl, rfl, rfl⟩
  exact ⟨_, ((calls_balanced World.bare).2 (.lambda 0) 1 (caller [{ name := "x" }]) [.long 7] [.long 7]
    _ .null _ rfl le_rfl rfl hreturns).mpr (.inr le_rfl)⟩

open Balance.Sample in
/-- A lambda without parameters leaves the argument of its call on the caller's stack. -/
theorem surplus_argument_stays : ∃ rt' rt₁ args,
    takeArgs (paramsOf Host.bare (caller []).memory (.lambda 0)) 1 (caller []) = .ok (args, rt₁) ∧
      Returns World.bare (.procedure (.lambda 0) args) rt₁ .null rt' ∧
      rt'.stack? = some [.null, .long 7] ∧
      ¬ ((caller []).setStack []).Balanced .null rt' := by
  have hreturns : Returns World.bare (.procedure (.lambda 0) []) (caller []) .null _ :=
    ⟨_, _, _, _, entersLambda rfl rfl rfl, .ret rfl .done, rfl, rfl, rfl⟩
  refine ⟨_, _, [], rfl, hreturns, rfl, fun h => ?_⟩
  have hframes := h.frames
  cases hframes

/-! ### Evaluations that fail -/

/-- The activities a caller of the runtime starts. -/
def Activity.IsEvaluation : Activity → Prop
  | .call _ | .eval _ => True
  | _ => False

namespace Balance.Sample

/-- A lambda that throws an error, called without a frame. -/
def thrower : Runtime where
  memory :=
    { scopes := { scopes := [{ parent := none, locals := [] }] }
      lambdas := [{ code := some 0 }]
      objects := [.error 0 "boom"]
      regions := [Op.pushQ.raw :: Words.encode 0 ++ [Op.throw.raw]] }
  scope := some 0

/-- The exception leaves the frame and the scope of the lambda. -/
theorem thrower_fails : ∃ rt',
    Ends World.bare (.call (.procedure (.lambda 0) [])) thrower (.threw "boom" rt') ∧
      rt'.frames = [{ locals := 1, returnAddress := none, stack := [] }] ∧ rt'.scope = some 1 := by
  have hthrow := fun rt => @Ends.stepThrows World.bare 0 9 10 .throw rt "boom" []
  exact ⟨_, .callThrows (entersLambda rfl rfl rfl)
    (.step rfl rfl nofun rfl (hthrow _ rfl rfl nofun rfl fun t _ => List.nil_suffix)), rfl, rfl⟩

end Balance.Sample

end Gel
