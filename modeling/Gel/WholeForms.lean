import Gel.Grammar
import Gel.QuotedData
import Gel.ScopeBalance

/-!
# WholeForms — a well-formed form is read whole

`Here reg ns m l p`: the parser `p` is at the position `l`, in the namespace `ns`, with the log `m`.
`Takes reg ns x s`: at the start of a span `s`, whenever `x` returns, it is at the end of that span
and has logged nothing.  Every parse function takes the span of its rule.
-/

namespace Gel

open Faulting Grammar

namespace Parser

/-- The parser is at the position. -/
structure Here (reg : Registry) (ns : Option Symbol) (m : List (Token.Kind × Token)) (l : Lexer)
    (p : Parser) : Prop where
  current : p.current = ns
  mismatches : p.mismatches = m
  unread : p.peek = none ∧ p.lexer = l ∨ ∃ t, p.peek = some t ∧ token reg t l p.lexer

/-- The parser is at the position and has peeked nothing. -/
structure Bare (ns : Option Symbol) (m : List (Token.Kind × Token)) (l : Lexer)
    (p : Parser) : Prop where
  current : p.current = ns
  mismatches : p.mismatches = m
  peek : p.peek = none
  lexer : p.lexer = l

/-- The parser is at the position and has peeked the token there. -/
structure Peeked (reg : Registry) (ns : Option Symbol) (m : List (Token.Kind × Token)) (l : Lexer)
    (t : Token) (l' : Lexer) (p : Parser) : Prop where
  current : p.current = ns
  mismatches : p.mismatches = m
  peek : p.peek = some t
  lexer : p.lexer = l'
  token : token reg t l l'

/-- Whenever the computation returns, it has taken the span. -/
def Takes (reg : Registry) (ns : Option Symbol) {α : Type} (x : Parse α) (s : Span) : Prop :=
  ∀ ⦃m l l'⦄, s l l' → Ensures (Here reg ns m l) x fun _ => Here reg ns m l'

/-- What a parse function leaves alone that reads nothing. -/
structure Same (p q : Parser) : Prop where
  current : q.current = p.current
  mismatches : q.mismatches = p.mismatches
  peek : q.peek = p.peek
  lexer : q.lexer = p.lexer

instance : IsPreorder Parser Same where
  refl _ := ⟨rfl, rfl, rfl, rfl⟩
  trans _ _ _ h h' := ⟨h'.current.trans h.current, h'.mismatches.trans h.mismatches,
    h'.peek.trans h.peek, h'.lexer.trans h.lexer⟩

variable {reg : Registry} {ns : Option Symbol} {m : List (Token.Kind × Token)} {l l' e : Lexer}
  {t : Token} {p q : Parser} {α β : Type} {x : Parse α} {f : α → Parse β} {s : Span}
  {ss : List Span} {k : Token.Kind} {P : Token.Kind → Prop}

theorem Peeked.here (h : Peeked reg ns m l t e p) : Here reg ns m l p :=
  ⟨h.current, h.mismatches, .inr ⟨t, h.peek, by rw [h.lexer]; exact h.token⟩⟩

theorem Bare.here (h : Bare ns m l p) : Here reg ns m l p :=
  ⟨h.current, h.mismatches, .inl ⟨h.peek, h.lexer⟩⟩

theorem Here.same (h : Here reg ns m l p) (hs : Same p q) : Here reg ns m l q := by
  refine ⟨hs.current.trans h.current, hs.mismatches.trans h.mismatches, ?_⟩
  rw [hs.peek, hs.lexer]
  exact h.unread

theorem Peeked.same (h : Peeked reg ns m l t e p) (hs : Same p q) : Peeked reg ns m l t e q :=
  ⟨hs.current.trans h.current, hs.mismatches.trans h.mismatches, hs.peek.trans h.peek,
    hs.lexer.trans h.lexer, h.token⟩

theorem token_unique {t' : Token} {e' : Lexer} (h : token reg t l e) (h' : token reg t' l e') :
    t' = t ∧ e' = e := by
  have heq := h.1.symm.trans h'.1
  cases heq
  exact ⟨rfl, rfl⟩

/-! ### Tokens -/

theorem ensures_nextToken (h : token reg t l e) :
    Ensures (Here reg ns m l) (nextToken reg) fun a q => a = t ∧ Bare ns m e q := by
  rintro p a q ⟨hc, hm, ⟨hpeek, hl⟩ | ⟨t', hpeek, ht'⟩⟩ hrun
  · rw [nextToken_none hpeek (by rw [hl]; exact h.1)] at hrun
    cases hrun
    exact ⟨rfl, hc, hm, hpeek, rfl⟩
  · rw [nextToken_some hpeek] at hrun
    cases hrun
    obtain ⟨rfl, he⟩ := token_unique h ht'
    exact ⟨rfl, hc, hm, rfl, he⟩

theorem ensures_peekToken (h : token reg t l e) :
    Ensures (Here reg ns m l) (peekToken reg) fun a q => a = t ∧ Peeked reg ns m l t e q := by
  rintro p a q ⟨hc, hm, ⟨hpeek, hl⟩ | ⟨t', hpeek, ht'⟩⟩ hrun
  · have hnext : nextToken reg p = .ok (t, { p with lexer := e }) :=
      nextToken_none hpeek (by rw [hl]; exact h.1)
    rw [peekToken_none hpeek hnext] at hrun
    cases hrun
    exact ⟨rfl, hc, hm, if_neg h.2, rfl, h⟩
  · rw [peekToken_some hpeek] at hrun
    cases hrun
    obtain ⟨rfl, he⟩ := token_unique h ht'
    exact ⟨rfl, hc, hm, hpeek, he, h⟩

theorem ensures_peekKind (h : token reg t l e) :
    Ensures (Here reg ns m l) (peekKind reg) fun a q => a = t.kind ∧ Peeked reg ns m l t e q := by
  refine .map fun p a q hp hrun => ?_
  obtain ⟨rfl, hq⟩ := ensures_peekToken h hp hrun
  exact ⟨rfl, hq⟩

theorem ensures_peekEq (h : token reg t l e) (k : Token.Kind) :
    Ensures (Here reg ns m l) (peekEq reg k) fun b q => b = (t.kind == k) ∧
      Peeked reg ns m l t e q := by
  refine .map fun p a q hp hrun => ?_
  obtain ⟨rfl, hq⟩ := ensures_peekKind h hp hrun
  exact ⟨rfl, hq⟩

theorem ensures_expectNext (h : token reg t l e) :
    Ensures (Here reg ns m l) (expectNext reg t.kind) fun a q => a = t ∧ Bare ns m e q := by
  refine .bind (ensures_nextToken h) fun a p b q hp hrun => ?_
  obtain ⟨rfl, hp⟩ := hp
  rw [if_neg (not_not.mpr rfl)] at hrun
  cases hrun
  exact ⟨rfl, hp⟩

theorem ensures_modifyLexer (g : Lexer → Lexer) :
    Ensures (Bare ns m e) (modify (fun p => { p with lexer := g p.lexer }) : Parse PUnit) fun _ =>
      Here reg ns m (g e) := by
  refine .modify fun hp => ?_
  exact ⟨hp.current, hp.mismatches, .inl ⟨hp.peek, by rw [← hp.lexer]⟩⟩

/-- A token that was peeked is taken after a change of the lexer behind it. -/
theorem ensures_switch {g : Lexer → Lexer} {f : Token → Parse β} {Q : β → Parser → Prop}
    (hk : t.kind = k) (hf : ∀ a, Ensures (Bare ns m (g e)) (f a) Q) :
    Ensures (Peeked reg ns m l t e)
      (modify (fun p => { p with lexer := g p.lexer }) >>= fun _ => expectNext reg k >>= f) Q := by
  subst hk
  rintro p b q ⟨hc, hm, hpeek, rfl, -⟩ hrun
  have hnext : nextToken reg { p with lexer := g p.lexer } =
      .ok (t, { p with lexer := g p.lexer, peek := none }) := nextToken_some hpeek
  rw [bind_run (modify_run _ _)] at hrun
  obtain ⟨a, p', hexpect, hrun⟩ := bind_eq_ok.mp hrun
  rw [expectNext, bind_run hnext, if_neg (not_not.mpr rfl)] at hexpect
  cases hexpect
  have hbare : Bare ns m (g p.lexer) { p with lexer := g p.lexer, peek := none } :=
    ⟨hc, hm, rfl, rfl⟩
  exact hf _ hbare hrun

/-! ### Rules -/

/-- Every piece starts with a token of a kind for which `P` holds. -/
def Starts (reg : Registry) (s : Span) (P : Token.Kind → Prop) : Prop :=
  ∀ ⦃l l'⦄, s l l' → ∃ e, kind reg P l e

theorem ensures_still {γ : Type} {x : Parse γ} {Q : β → Parser → Prop} {f : γ → Parse β}
    (hx : Steps Same x) (hf : ∀ a, Ensures (Peeked reg ns m l t e) (f a) Q) :
    Ensures (Peeked reg ns m l t e) (x >>= f) Q := by
  refine .bind (fun p a q hp hrun => ?_) hf
  exact hp.same (hx hrun)

namespace Takes

variable {s' u v : Span}

theorem mono (hx : Takes reg ns x s) (h : ∀ {l l'}, s' l l' → s l l') : Takes reg ns x s' :=
  fun _ _ _ hs => hx (h hs)

theorem throw (f : Fault) (s : Span) : Takes reg ns (throw f : Parse α) s := fun _ _ _ _ => .throw f

theorem pure (a : α) : Takes reg ns (pure a) (seq []) := by
  rintro m l l' rfl
  exact .pure id

theorem bind (hx : Takes reg ns x s) (hf : ∀ a, Takes reg ns (f a) (seq ss)) :
    Takes reg ns (x >>= f) (seq (s :: ss)) := by
  rintro m l l' ⟨e, hs, hss⟩
  exact .bind (hx hs) fun a => hf a hss

theorem last (hx : Takes reg ns x s) : Takes reg ns x (seq [s]) := by
  rintro m l l' ⟨e, hs, rfl⟩
  exact hx hs

theorem single (hx : Takes reg ns x (seq [s])) : Takes reg ns x s :=
  hx.mono fun h => ⟨_, h, rfl⟩

theorem nothing (hx : Steps Same x) : Takes reg ns x (seq []) := by
  rintro m l l' rfl p a q hp hrun
  exact hp.same (hx hrun)

theorem map {g : α → β} (hx : Takes reg ns x s) : Takes reg ns (g <$> x) s :=
  fun _ _ _ hs => .map (hx hs)

/-- What reads nothing may come first. -/
theorem still {γ : Type} {y : Parse γ} {g : γ → Parse α} (hy : Steps Same y)
    (hg : ∀ a, Takes reg ns (g a) s) : Takes reg ns (y >>= g) s := by
  intro m l l' hs
  exact .bind (fun p a q hp hrun => hp.same (hy hrun)) fun a => hg a hs

/-- What reads nothing may come last. -/
theorem done (hx : Takes reg ns x s) (hf : ∀ a, Steps Same (f a)) :
    Takes reg ns (x >>= f) s := by
  intro m l l' hs
  exact .bind (hx hs) fun a p b q hp hrun => hp.same (hf a hrun)

/-- What is done next depends on the next token, which is peeked. -/
theorem peekAt {g : Token.Kind → Parse α} (h : ∀ {m l l' t e}, token reg t l e → s l l' →
    Ensures (Peeked reg ns m l t e) (g t.kind) fun _ => Here reg ns m l')
    (hs : Starts reg s fun _ => True) : Takes reg ns (peekKind reg >>= g) s := by
  intro m l l' hl
  obtain ⟨e, t, ht, -⟩ := hs hl
  refine .bind (ensures_peekKind ht) fun k p b q hp hrun => ?_
  obtain ⟨rfl, hp⟩ := hp
  exact h ht hl hp hrun

theorem byFirst {F : Token.Kind → Span} {g : Token.Kind → Parse α}
    (h : ∀ k, Takes reg ns (g k) (seq (F k :: ss))) :
    Takes reg ns (peekKind reg >>= g) (seq (byFirst reg F :: ss)) := by
  rintro m l l' ⟨e, ⟨t, e', ht, hF⟩, hss⟩
  refine .bind (ensures_peekKind ht) fun k p b q hp hrun => ?_
  obtain ⟨rfl, hp⟩ := hp
  exact h _ ⟨e, hF, hss⟩ hp.here hrun

/-- Whether the next token is of the kind `k` decides. -/
theorem peekEq {g : Bool → Parse α} (ht : Takes reg ns (g true) u) (hf : Takes reg ns (g false) v)
    (hs : ∀ {l l'}, s l l' → (∃ e, one reg k l e) ∧ u l l' ∨ (∃ e, kind reg (· ≠ k) l e) ∧ v l l') :
    Takes reg ns (peekEq reg k >>= g) s := by
  intro m l l' hl
  obtain ⟨⟨e, t, htok, hk⟩, hl⟩ | ⟨⟨e, t, htok, hk⟩, hl⟩ := hs hl
  · refine .bind (ensures_peekEq htok k) fun b p c q hp hrun => ?_
    obtain ⟨rfl, hp⟩ := hp
    rw [hk, beq_self_eq_true] at hrun
    exact ht hl hp.here hrun
  · refine .bind (ensures_peekEq htok k) fun b p c q hp hrun => ?_
    obtain ⟨rfl, hp⟩ := hp
    rw [beq_eq_false_iff_ne.mpr hk] at hrun
    exact hf hl hp.here hrun

theorem optional {g : Bool → Parse α} (ht : Takes reg ns (g true) (seq (one reg k :: ss)))
    (hf : Takes reg ns (g false) (seq ss)) :
    Takes reg ns (Parser.peekEq reg k >>= g) (seq (optional reg k :: ss)) := by
  refine peekEq ht hf ?_
  rintro l l' ⟨e, h | ⟨rfl, h⟩, hss⟩
  · exact .inl ⟨⟨e, h⟩, e, h, hss⟩
  · exact .inr ⟨h, hss⟩

/-! ### Loops -/

/-- A loop over pieces that do not start with what stops it ends in front of what does. -/
theorem ensures_parseUntil {stop : Token.Kind → Bool} {item : Parse α}
    (hitem : Takes reg ns item s) (hstart : Starts reg s fun k => stop k = false)
    (ht : token reg t l' e) (hstop : stop t.kind = true) (n : Nat) (hs : many s l l') :
    Ensures (Here reg ns m l) (parseUntil reg stop item n) fun _ => Peeked reg ns m l' t e := by
  induction n generalizing l with
  | zero => exact .throw _
  | succ n ih =>
      rcases Relation.ReflTransGen.cases_head hs with rfl | ⟨l₁, h₁, hs⟩
      · refine .bind (ensures_peekKind ht) fun k p b q hp hrun => ?_
        obtain ⟨rfl, hp⟩ := hp
        rw [if_pos hstop] at hrun
        cases hrun
        exact hp
      · obtain ⟨e₁, t₁, ht₁, hk⟩ := hstart h₁
        refine .bind (ensures_peekKind ht₁) fun k p b q hp hrun => ?_
        obtain ⟨rfl, hp⟩ := hp
        rw [hk] at hrun
        have hrest : Ensures (Here reg ns m l) (item >>= fun x =>
            parseUntil reg stop item n >>= fun xs => Pure.pure (x :: xs))
            fun _ => Peeked reg ns m l' t e :=
          .bind (hitem h₁) fun x => .bind (ih hs) fun xs => .pure id
        exact hrest hp.here hrun

/-- The loop, in front of the token that stops it. -/
theorem parseUntil {stop : Token.Kind → Bool} {item : Parse α} (hitem : Takes reg ns item s)
    (hstart : Starts reg s fun k => stop k = false) (n : Nat) :
    Takes reg ns (Parser.parseUntil reg stop item n)
      (seq [many s, ahead reg (stop · = true)]) := by
  rintro m l l' ⟨e, hs, e', ⟨rfl, e', t, ht, hstop⟩, rfl⟩
  exact fun p a q hp hrun => (ensures_parseUntil hitem hstart ht hstop n hs hp hrun).here

/-- The loop, and what goes on with the token that stops it. -/
theorem loop {stop : Token.Kind → Bool} {item : Parse α} {g : List α → Parse β}
    (hitem : Takes reg ns item s) (hstart : Starts reg s fun k => stop k = false)
    (hstop : stop k = true) (n : Nat) (hg : ∀ a, Takes reg ns (g a) (seq (one reg k :: ss))) :
    Takes reg ns (Parser.parseUntil reg stop item n >>= g) (seq (many s :: one reg k :: ss)) := by
  rintro m l l' ⟨e, hs, e', ⟨t, ht, rfl⟩, hss⟩
  refine .bind (ensures_parseUntil hitem hstart ht hstop n hs) fun a => ?_
  exact fun p b q hp hrun => hg a ⟨e', ⟨t, ht, rfl⟩, hss⟩ hp.here hrun

end Takes

/-! ### What reads nothing -/

theorem pushScope_same : Steps Same pushScope := .modifyGet fun _ => ⟨rfl, rfl, rfl, rfl⟩

theorem getScope_same : Steps Same getScope := by
  intro p s q h
  obtain ⟨-, rfl⟩ := getScope_eq_ok h
  exact refl_of Same q

theorem popScope_same : Steps Same popScope := by
  intro p u q h
  obtain ⟨s, -, rfl⟩ := popScope_eq_ok h
  exact ⟨rfl, rfl, rfl, rfl⟩

theorem newLocal_same (s : ScopeId) (name : String) (value : Option Value) :
    Steps Same (newLocal s name value) := .modifyGet fun _ => ⟨rfl, rfl, rfl, rfl⟩

theorem addLocal_same (s : ScopeId) (l : LocalId) : Steps Same (addLocal s l) := by
  refine .getBind fun p a q h => ?_
  generalize p.scopes.addLocal s l = r at h
  rcases r with ⟨- | -, scopes⟩
  · cases h
  · cases h
    exact ⟨rfl, rfl, rfl, rfl⟩

/-- A variable is made and added to a scope. -/
theorem bindLocal_same (s : ScopeId) (name : String) (value : Option Value) :
    Steps Same (newLocal s name value >>= addLocal s) :=
  .bind (newLocal_same s name value) fun l => addLocal_same s l

theorem newLambda_same : Steps Same newLambda := .modifyGet fun _ => ⟨rfl, rfl, rfl, rfl⟩

theorem setLambda_same (id : Nat) (f : Lambda) : Steps Same (setLambda id f) :=
  .modify fun _ => ⟨rfl, rfl, rfl, rfl⟩

theorem bindParameters_same (s : ScopeId) (n : Nat) : Steps Same (bindParameters s n) := by
  rw [bindParameters]
  split
  · exact .mapM fun _ => .bind (newLocal_same s _ _) fun l => .bind (addLocal_same s l) fun _ =>
      .pure _
  · exact .throw _

theorem findOrCreate_same (x : Symbol) : Steps Same (findOrCreate x) := by
  refine .getBind fun p a q h => ?_
  generalize p.natives.findIdx? (fun y => y.symbol.equals x) = r at h
  rcases r with - | i
  · cases h
    exact ⟨rfl, rfl, rfl, rfl⟩
  · cases h
    exact refl_of Same _

theorem appendNamespace_same (x : Symbol) (id : Nat) : Steps Same (appendNamespace x id) := by
  refine .getBind fun p a q h => ?_
  cases hs : p.script with
  | none =>
      rw [hs] at h
      cases h
      exact refl_of Same _
  | some s =>
      rw [hs] at h
      dsimp only at h
      generalize p.scopes.addValue s x.fullyQualifiedName (some (.ofNamespace id)) = r at h
      rcases r with ⟨- | -, scopes⟩
      · cases h
      · cases h
        exact ⟨rfl, rfl, rfl, rfl⟩

theorem appendToModule_same (x : Namespace) : Steps Same (appendToModule x) := by
  refine .modify fun p => ?_
  cases p.module with
  | none => exact refl_of Same p
  | some s => exact ⟨rfl, rfl, rfl, rfl⟩

/-! ### Single tokens -/

theorem takes_nextToken (P : Token.Kind → Prop) : Takes reg ns (nextToken reg) (kind reg P) := by
  rintro m l l' ⟨t, ht, -⟩ p a q hp hrun
  exact (ensures_nextToken ht hp hrun).2.here

theorem takes_expectNext (k : Token.Kind) : Takes reg ns (expectNext reg k) (one reg k) := by
  rintro m l l' ⟨t, ht, rfl⟩ p a q hp hrun
  exact (ensures_expectNext ht hp hrun).2.here

theorem ensures_parseSymbol {y : Symbol} (h : symbol reg ns y l e) :
    Ensures (Here reg ns m l) (parseSymbol reg) fun a q => a = y ∧ Here reg ns m e q := by
  obtain ⟨t, ht, hk, hy⟩ := h
  refine .bind (ensures_nextToken ht) fun a p x q hp hrun => ?_
  obtain ⟨rfl, hp⟩ := hp
  rw [if_neg (fun hn => hk.elim hn.1 hn.2)] at hrun
  obtain ⟨p', p'', hget, hrun⟩ := bind_eq_ok.mp hrun
  cases hget
  have hns := hp.current
  cases hc : p.current with
  | none =>
      rw [hc] at hrun hns
      subst hns
      obtain ⟨hx, rfl⟩ := lift_eq_ok.mp hrun
      exact ⟨Except.ok.inj (hx.symm.trans hy), hp.here⟩
  | some n =>
      rw [hc] at hrun hns
      subst hns
      obtain ⟨hx, rfl⟩ := lift_eq_ok.mp hrun
      exact ⟨Except.ok.inj (hx.symm.trans hy), hp.here⟩

theorem takes_parseSymbol : Takes reg ns (parseSymbol reg) (anySymbol reg ns) := by
  rintro m l l' ⟨y, hy⟩ p a q hp hrun
  exact (ensures_parseSymbol hy hp hrun).2

theorem Takes.symbol {g : Symbol → Parse α} {F : Symbol → Span}
    (h : ∀ y, Takes reg ns (g y) (F y)) :
    Takes reg ns (parseSymbol reg >>= g) fun l l' =>
      ∃ y e, symbol reg ns y l e ∧ F y e l' := by
  rintro m l l' ⟨y, e, hy, hF⟩
  refine .bind (ensures_parseSymbol hy) fun a p b q hp hrun => ?_
  obtain ⟨rfl, hp⟩ := hp
  exact h _ hF hp hrun

theorem starts_kind (P : Token.Kind → Prop) : Starts reg (kind reg P) P := fun _ l' h => ⟨l', h⟩

theorem starts_one (k : Token.Kind) : Starts reg (one reg k) (· = k) := starts_kind _

theorem Starts.seq (h : Starts reg s P) : Starts reg (seq (s :: ss)) P := by
  rintro l l' ⟨e, hs, -⟩
  exact h hs

theorem Starts.mono {Q : Token.Kind → Prop} (h : Starts reg s P) (hPQ : ∀ k, P k → Q k) :
    Starts reg s Q := by
  intro l l' hs
  obtain ⟨e, t, ht, hk⟩ := h hs
  exact ⟨e, t, ht, hPQ _ hk⟩

theorem starts_anySymbol :
    Starts reg (anySymbol reg ns) fun k => k = .identifier ∨ k = .newExpr := by
  rintro l l' ⟨y, t, ht, hk, -⟩
  exact ⟨l', t, ht, hk⟩

theorem starts_byFirst {F : Token.Kind → Span} (h : ∀ k l l', F k l l' → P k) :
    Starts reg (byFirst reg F) P := by
  rintro l l' ⟨t, e, ht, hF⟩
  exact ⟨e, t, ht, h _ _ _ hF⟩

/-! ### Lists of expressions -/

section

variable {expr : ParseExpr}

theorem takes_nonnull (h : Takes reg ns expr s) : Takes reg ns (nonnull expr) s := by
  intro m l l' hl
  refine .bind (h hl) fun e => ?_
  cases e with
  | none => exact .throw _
  | some e => exact .pure id

/-- Expressions start neither with a closing parenthesis nor with the end of the input. -/
abbrev Opens (reg : Registry) (s : Span) : Prop := Starts reg s fun k => atEnd k = false

theorem Opens.not_rParen (hs : Opens reg s) : Starts reg s fun k => atRParen k = false := by
  refine hs.mono fun k hk => ?_
  rw [atEnd, Bool.or_eq_false_iff] at hk
  exact hk.1

theorem takes_untilRParen {item : Parse α} (h : Takes reg ns item s)
    (hs : Starts reg s fun k => atRParen k = false) (n : Nat) :
    Takes reg ns (parseUntil reg atRParen item n) (operands reg s) := by
  refine (Takes.parseUntil h hs n).mono ?_
  rintro l l' ⟨e, hm, e', ⟨rfl, e₁, t, ht, hk⟩, rfl⟩
  exact ⟨e', hm, e', ⟨rfl, e₁, t, ht, by rw [hk]; rfl⟩, rfl⟩

theorem takes_parseOperands (h : Takes reg ns expr s) (hs : Opens reg s) (n : Nat) :
    Takes reg ns (parseOperands reg expr n) (operands reg s) :=
  takes_untilRParen (takes_nonnull h) hs.not_rParen n

/-- A list of expressions ends with the token behind it peeked. -/
theorem ensures_parseExpressionList (h : Takes reg ns expr s) (hs : Opens reg s) (n : Nat)
    (push : Bool) (hl : many s l l') (ht : token reg t l' e) (hk : atEnd t.kind = true) :
    Ensures (Here reg ns m l) (parseExpressionList reg expr n push) fun _ =>
      Peeked reg ns m l' t e := by
  have hloop := Takes.ensures_parseUntil (m := m) h hs ht hk n hl
  cases push with
  | false => exact .bind hloop fun es => .pure id
  | true =>
      refine .bind (fun p a q hp hrun => Here.same hp (pushScope_same hrun)) fun _ =>
        .bind hloop fun es => ensures_still popScope_same fun _ => .pure id

theorem takes_parseExpressionList (h : Takes reg ns expr s) (hs : Opens reg s) (n : Nat)
    (push : Bool) : Takes reg ns (parseExpressionList reg expr n push) (expressions reg s) := by
  rintro m l l' ⟨e, hl, e', ⟨rfl, e', t, ht, hk⟩, rfl⟩ p a q hp hrun
  exact (ensures_parseExpressionList h hs n push hl ht hk hp hrun).here

/-! ### Literals and parameters -/

theorem takes_parseLiteralValue : Takes reg ns (parseLiteralValue reg) (kind reg isValue) := by
  refine .done (takes_nextToken _) fun t => ?_
  cases t.kind with
  | identifier => exact .bind (.lift _) fun _ => .pure _
  | literalTrue | literalFalse | literalLong | literalDouble | literalString => exact .pure _
  | _ => exact .throw _

theorem takes_parseEntry (h : Takes reg ns expr s) :
    Takes reg ns (parseEntry reg expr) (entry reg ns s) := by
  refine .bind takes_parseSymbol fun key => .bind (takes_nonnull h) fun e => .optional ?_ ?_
  · exact .bind (takes_nextToken _) fun _ => .pure _
  · exact .pure _

theorem takes_parseMap (h : Takes reg ns expr s) (n : Nat) :
    Takes reg ns (parseMap reg expr n) (mapLiteral reg ns s) := by
  refine .bind (takes_expectNext _) fun _ => .loop (takes_parseEntry h) ?_ rfl n fun _ =>
    .bind (takes_expectNext _) fun _ => .pure _
  refine starts_anySymbol.seq.mono ?_
  rintro k (rfl | rfl)
  · rfl
  · rfl

theorem takes_parseArgument (bind : Bool) :
    Takes reg ns (parseArgument reg bind) (parameter reg) := by
  refine .bind (takes_expectNext _) fun t => ?_
  have hrest (arg : Argument) : Steps Same (do
      if bind then
        let scope ← getScope
        let l ← newLocal scope (← Symbol.new t.text).fullyQualifiedName
        addLocal scope l
      return arg) := by
    cases bind with
    | false => exact .pure _
    | true =>
        exact .bind getScope_same fun s => .bind (.lift _) fun x =>
          .bind (newLocal_same s _ _) fun l => .bind (addLocal_same s l) fun _ => .pure _
  refine .single (.peekAt (fun {m l l' t' e} ht hl => ?_) ?_)
  · rcases hl with ⟨e₁, ⟨e₂, ⟨t₁, ht₁, hk⟩ | ⟨rfl, e₃, t₁, ht₁, hk⟩, rfl⟩, rfl⟩
    · obtain ⟨rfl, rfl⟩ := token_unique ht ht₁
      have hnext (arg : Argument) : Takes reg ns (nextToken reg >>= fun _ => pure arg >>= _) _ :=
        .done (takes_nextToken fun _ => True) fun _ => .bind (.pure _) hrest
      rcases hk with hk | hk
      · rw [hk]
        exact (hnext _ ⟨_, ht₁, trivial⟩).of_pre Peeked.here
      · rw [hk]
        exact (hnext _ ⟨_, ht₁, trivial⟩).of_pre Peeked.here
    · obtain ⟨rfl, rfl⟩ := token_unique ht ht₁
      rcases hk with hk | hk
      · rw [hk]
        exact fun p a q hp hrun => hp.here.same (Steps.bind (.pure _) hrest hrun)
      · rw [hk]
        exact fun p a q hp hrun => hp.here.same (Steps.bind (.pure _) hrest hrun)
  · rintro l l' ⟨e₁, ⟨e₂, ⟨t₁, ht₁, -⟩ | ⟨rfl, e₃, t₁, ht₁, -⟩, rfl⟩, rfl⟩
    · exact ⟨_, t₁, ht₁, trivial⟩
    · exact ⟨_, t₁, ht₁, trivial⟩

theorem takes_parseArguments (n : Nat) (bind : Bool) :
    Takes reg ns (parseArguments reg n bind) (parameters reg) := by
  rintro m l l' ⟨e₁, ⟨t₁, ht₁, hk₁⟩, e₂, rfl, e₃, hm, e₄, ⟨t₂, ht₂, hk₂⟩, e₅, rfl, rfl⟩
  have hstart : Starts reg (parameter reg) fun k => (k == .rBracket) = false :=
    (starts_one _).seq.mono fun k hk => by rw [hk]; rfl
  refine .bind (hk₁ ▸ ensures_expectNext ht₁) fun _ =>
    .bind ((ensures_modifyLexer ({ · with args := true })).of_pre And.right) fun _ =>
    .bind (Takes.ensures_parseUntil (takes_parseArgument bind) hstart ht₂ (by rw [hk₂]; rfl) n hm)
      fun args => ensures_switch (g := ({ · with args := false })) hk₂ fun _ => .pure Bare.here

/-! ### Lambdas and macros -/

theorem takes_parseName : Takes reg ns (parseName reg) (name reg ns) := by
  refine .peekEq (takes_parseSymbol.done fun _ => .pure _) (.pure none) ?_
  rintro l l' (⟨e, ⟨rfl, h⟩, e', hy, rfl⟩ | ⟨rfl, h⟩)
  · exact .inl ⟨h, hy⟩
  · exact .inr ⟨h, rfl⟩

theorem takes_parseBody (h : Takes reg ns expr s) (hs : Opens reg s) (n : Nat) :
    Takes reg ns (parseBody reg expr n) (body reg s) := by
  refine .optional ?_ (.last (takes_parseExpressionList h hs n false))
  exact .bind (takes_expectNext _) fun _ => .bind (takes_parseExpressionList h hs n false) fun _ =>
    .pure _

theorem takes_parseDispatch (h : Takes reg ns expr s) (hs : Opens reg s) (n : Nat) :
    Takes reg ns (parseDispatch reg expr n) (dispatch reg s) := by
  refine .still newLambda_same fun id => .still pushScope_same fun sc => ?_
  rintro m l l' ⟨e₁, ⟨t₁, ht₁, hk₁⟩, e₂, rfl, e₃, ⟨e₄, hm, e₅, ⟨rfl, -⟩, rfl⟩,
    e₆, ⟨t₂, ht₂, hk₂⟩, e₇, rfl, rfl⟩
  have hlist := ensures_parseExpressionList (m := m) h hs n true hm ht₂ (by rw [hk₂]; rfl)
  -- the token behind the body is peeked when dispatching ends
  have hrest : Ensures (Peeked reg ns m e₅ t₂ e₆) _ fun _ => Here reg ns m
      { e₆ with dispatched := -1 } :=
    ensures_switch (g := ({ · with dispatched := -1 })) hk₂ fun _ =>
      (.pure Bare.here : Ensures _ (Pure.pure id) _)
  exact .bind (hk₁ ▸ ensures_expectNext ht₁) fun _ =>
    .bind ((ensures_modifyLexer ({ · with dispatched := 0 })).of_pre And.right) fun _ =>
    .bind (fun p a q hp hrun => Here.same hp (newLocal_same sc _ _ hrun)) fun l =>
    .bind (fun p a q hp hrun => Here.same hp (addLocal_same sc l hrun)) fun _ =>
    .bind hlist fun es => ensures_still .get fun p => ensures_still (bindParameters_same sc _)
    fun args => ensures_still (setLambda_same id _) fun _ => ensures_still popScope_same fun _ =>
    hrest

theorem takes_parseFunction (h : Takes reg ns expr s) (hs : Opens reg s) (n : Nat)
    (k : Token.Kind) : Takes reg ns (parseFunction reg expr n k) (function reg ns s k) :=
  .still newLambda_same fun id => .still pushScope_same fun sc => .bind (takes_expectNext k) fun _ =>
    .bind takes_parseName fun _ => .still (newLocal_same sc _ _) fun l =>
    .still (addLocal_same sc l) fun _ => .bind (takes_parseArguments n true) fun _ =>
    .bind (takes_parseBody h hs n) fun _ => .still (setLambda_same id _) fun _ =>
    .still popScope_same fun _ => .pure id

theorem takes_parseMacro (h : Takes reg ns expr s) (hs : Opens reg s) (n : Nat) :
    Takes reg ns (parseMacro reg expr n) (function reg ns s .defMacro) :=
  .bind (takes_expectNext _) fun _ => .still (.modifyGet fun _ => ⟨rfl, rfl, rfl, rfl⟩) fun id =>
    .still pushScope_same fun sc => .bind takes_parseName fun _ =>
    .still (newLocal_same sc _ _) fun l => .still (addLocal_same sc l) fun _ =>
    .bind (takes_parseArguments n false) fun _ => .bind (takes_parseBody h hs n) fun _ =>
    .still popScope_same fun _ => .still (.modify fun _ => ⟨rfl, rfl, rfl, rfl⟩) fun _ => .pure id

theorem takes_parseLambda_defn (h : Takes reg ns expr s) (hs : Opens reg s) (n : Nat) :
    Takes reg ns (parseLambda reg expr n .defn) (function reg ns s .defn) :=
  takes_parseFunction h hs n .defn

theorem takes_parseLiteralLambda (h : Takes reg ns expr s) (hs : Opens reg s) (n : Nat)
    {k : Token.Kind} (hk : k = .fn ∨ k = .dispatch) :
    Takes reg ns (parseLiteralLambda reg expr n k) (literal reg ns s k) := by
  rcases hk with rfl | rfl
  · exact Takes.done (takes_parseFunction h hs n .fn) fun _ => .pure _
  · exact Takes.done (takes_parseDispatch h hs n) fun _ => .pure _

theorem takes_parseLiteralExpr (h : Takes reg ns expr s) (hs : Opens reg s) (n : Nat) :
    Takes reg ns (parseLiteralExpr reg expr n) (byFirst reg (literal reg ns s)) := by
  refine .single (.byFirst fun k => .last ?_)
  by_cases hk : k = .fn ∨ k = .dispatch
  · rw [if_pos hk]
    exact takes_parseLiteralLambda h hs n hk
  · rw [if_neg hk]
    by_cases hb : k = .lBrace
    · subst hb
      exact takes_parseMap h n
    · rw [if_neg hb]
      have hval : literal reg ns s k = kind reg isValue := by
        rw [not_or] at hk
        cases k <;> first | rfl | simp_all
      rw [hval]
      exact Takes.done takes_parseLiteralValue fun _ => .pure _

/-! ### Definitions -/

theorem takes_parseDefn (h : Takes reg ns expr s) (hs : Opens reg s) (n : Nat) :
    Takes reg ns (parseDefn reg expr n) (function reg ns s .defn) := by
  refine .still getScope_same fun sc => .done (takes_parseLambda_defn h hs n) fun id =>
    .bind .get fun p => ?_
  cases p.lambdas[id]?.bind Lambda.symbol with
  | none => exact .throw _
  | some x => exact bindLocal_same sc _ _

theorem takes_parseMacroDef (h : Takes reg ns expr s) (hs : Opens reg s) (n : Nat) :
    Takes reg ns (parseMacroDef reg expr n) (function reg ns s .defMacro) := by
  refine .still getScope_same fun sc => .done (takes_parseMacro h hs n) fun id =>
    .bind .get fun p => ?_
  cases p.macros[id]?.bind MacroObject.symbol with
  | none => exact .throw _
  | some x => exact bindLocal_same sc _ _

theorem takes_parseDefNative (n : Nat) :
    Takes reg ns (parseDefNative reg n) (native reg ns) := by
  refine .bind (takes_expectNext _) fun _ => .bind takes_parseSymbol fun x =>
    .still (findOrCreate_same x) fun i => .bind (takes_parseArguments n false) fun args =>
    .still (.modify fun _ => ⟨rfl, rfl, rfl, rfl⟩) fun _ => ?_
  have hrest : Steps Same (do
      let value := (← get).natives[i]?.map fun x => Value.native x.symbol
      let scope ← getScope
      let l ← newLocal scope x.fullyQualifiedName value
      addLocal scope l) :=
    .bind .get fun _ => .bind getScope_same fun s => bindLocal_same s _ _
  refine .optional ?_ (.nothing hrest)
  exact .bind (takes_expectNext _) fun _ => .nothing hrest

theorem takes_parseDef (h : Takes reg ns expr s) :
    Takes reg ns (parseDef reg expr) (definition reg ns s) := by
  refine .bind (takes_expectNext _) fun _ => .bind takes_parseSymbol fun x =>
    .still getScope_same fun sc => .still (newLocal_same sc _ _) fun l =>
    .still (addLocal_same sc l) fun _ => .bind (takes_nonnull h) fun e =>
    .nothing (.getBind fun p r q hq => ?_)
  by_cases hc : e.isConstantExpr fun y => ((p.scopes.lookup reg.config.runtimeScope
      y.fullyQualifiedName).bind p.scopes.valueOf).isSome
  · rw [if_pos hc] at hq
    rcases hv : e.evalToConstant reg.config p.scopes sc with - | - | v
    · rw [hv] at hq
      cases hq
    · rw [hv] at hq
      cases hq
    · rw [hv] at hq
      cases hq
      exact ⟨rfl, rfl, rfl, rfl⟩
  · rw [if_neg hc] at hq
    cases hq
    exact refl_of Same _

theorem takes_parseMember (h : Takes reg ns expr s) (hs : Opens reg s) (n : Nat) :
    Takes reg ns (parseMember reg expr n) (member reg ns s) := by
  refine .bind (takes_expectNext _) fun _ => .byFirst fun k => ?_
  have hrest : Takes reg ns (do let _ ← expectNext reg .rParen; return ()) (seq [one reg .rParen]) :=
    .bind (takes_expectNext _) fun _ => .pure _
  cases k with
  | defn => exact .bind (takes_parseDefn h hs n) fun _ => hrest
  | defMacro => exact .bind (takes_parseMacroDef h hs n) fun _ => hrest
  | defNative => exact .bind (takes_parseDefNative n) fun _ => hrest
  | _ => rintro m l l' ⟨e, ⟨⟩, -⟩

theorem starts_member : Starts reg (member reg ns s) fun k => atRParen k = false :=
  (starts_one _).seq.mono fun k hk => by rw [hk]; rfl

/-- The members are parsed in the namespace, which is left behind them. -/
theorem ensures_parseNamespace {S : Option Symbol → Span} (h : ∀ ns, Takes reg ns expr (S ns))
    (hs : ∀ ns, Opens reg (S ns)) (n : Nat) (hl : namespace_ reg ns S l l') :
    Ensures (Here reg ns m l) (parseNamespace reg expr n) fun _ => Here reg ns m l' := by
  obtain ⟨rfl, y, e₁, h₁, e₂, h₂, e₃, h₃, e₄, ⟨e₅, hm, e₆, ⟨rfl, e₇, t, ht, hk⟩, rfl⟩,
    rfl⟩ := hl
  have hmembers (i : Nat) : Ensures (Here reg (some y) m e₃) (do
      let _ ← parseUntil reg atRParen (parseMember reg expr n) n
      modify fun p => { p with current := none }
      popScope
      return i) fun _ => Here reg none m e₆ := by
    refine .bind (Takes.ensures_parseUntil (takes_parseMember (h _) (hs _) n) starts_member ht
      (by rw [hk]; rfl) n hm) fun _ => .bind (.modify fun hp => ?_) fun _ =>
      .bind (fun p a q hp hrun => Here.same hp (popScope_same hrun)) fun _ => .pure id
    exact ⟨rfl, hp.mismatches, hp.here.unread⟩
  refine .bind (takes_expectNext _ h₁) fun _ => .bind (ensures_parseSymbol h₂) fun a => ?_
  have hpush : Ensures (fun q => a = y ∧ Here reg none m e₂ q) pushScope fun _ q =>
      a = y ∧ Here reg none m e₂ q :=
    fun p sc q hp hrun => ⟨hp.1, hp.2.same (pushScope_same hrun)⟩
  have hmake (sc : ScopeId) : Ensures (fun q => a = y ∧ Here reg none m e₂ q)
      (modifyGet (fun p => (p.namespaces.length, { p with
        namespaces := p.namespaces ++ [{ symbol := a, scope := sc }], current := some a })) :
        Parse Nat) fun _ => Here reg (some y) m e₂ := by
    rintro p id q ⟨rfl, hp⟩ hrun
    cases hrun
    exact ⟨rfl, hp.mismatches, hp.unread⟩
  refine .bind hpush fun sc => .bind (hmake sc) fun i => ?_
  rcases h₃ with ⟨t₃, ht₃, hk₃⟩ | ⟨rfl, e₈, t₃, ht₃, hk₃⟩
  · refine .bind (ensures_peekEq ht₃ _) fun b p a q hp hrun => ?_
    obtain ⟨rfl, hp⟩ := hp
    rw [hk₃, beq_self_eq_true] at hrun
    have hdoc : Ensures (Here reg (some y) m e₂) (expectNext reg .literalString) fun _ =>
        Here reg (some y) m e₃ := takes_expectNext _ ⟨t₃, ht₃, hk₃⟩
    exact Ensures.bind hdoc (fun _ => hmembers i) hp.here hrun
  · refine .bind (ensures_peekEq ht₃ _) fun b p a q hp hrun => ?_
    obtain ⟨rfl, hp⟩ := hp
    rw [beq_eq_false_iff_ne.mpr hk₃] at hrun
    exact hmembers i hp.here hrun

theorem takes_parseDefNamespace {S : Option Symbol → Span} (h : ∀ ns, Takes reg ns expr (S ns))
    (hs : ∀ ns, Opens reg (S ns)) (n : Nat) :
    Takes reg ns (parseDefNamespace reg expr n) (namespace_ reg ns S) := by
  have hns : Takes reg ns (parseNamespace reg expr n) (namespace_ reg ns S) :=
    fun _ _ _ hl => ensures_parseNamespace h hs n hl
  refine .still .get fun p => ?_
  by_cases hd : p.lexer.depth ≠ 1
  · rw [if_pos hd]
    exact .throw _ _
  · rw [if_neg hd]
    refine .done hns fun id => .bind .get fun p => ?_
    cases p.namespaces[id]? with
    | none => exact .throw _
    | some x =>
        exact .bind getScope_same fun sc => .bind (newLocal_same sc _ _) fun l =>
          .bind (addLocal_same sc l) fun _ => .bind (appendNamespace_same _ id) fun _ =>
          appendToModule_same x

/-! ### Quotes -/

theorem ensures_parseQuotedExpr (n : Nat) (hk : t.kind = .quote) (hl : quoted reg l l') :
    Ensures (Peeked reg ns m l t e) (parseQuotedExpr reg n) fun _ => Here reg ns m l' := by
  obtain ⟨e₁, ⟨t₁, ht₁, hk₁⟩, e₂, ⟨n₁, e₃, cs, hskip, hread, -⟩, rfl⟩ := hl
  intro p a q hp hrun
  obtain ⟨rfl, rfl⟩ := token_unique hp.token ht₁
  obtain ⟨t', p₁, e₄, cs', e₅, hexpect, hskip', hread', -, rfl⟩ := parseQuotedExpr_eq_ok.mp hrun
  obtain ⟨-, hp₁⟩ := ensures_expectNext ht₁ hp.here (hk ▸ hexpect)
  rw [hp₁.lexer] at hskip'
  obtain rfl := Lexer.skipWhitespace_unique hskip hskip'
  rw [hp.lexer] at hread'
  cases hread.symm.trans hread'
  exact ⟨hp₁.current, hp₁.mismatches, .inl ⟨hp₁.peek, rfl⟩⟩

/-! ### Calls and operators -/

/-- In front of operands stands the parenthesis that ends them, or the first of them. -/
theorem operands_cases (hs : Opens reg s) (h : operands reg s l l') :
    (∃ e, one reg .rParen l e) ∧ seq [] l l' ∨
      (∃ e, kind reg (· ≠ .rParen) l e) ∧ seq [s, operands reg s] l l' := by
  obtain ⟨e, hm, e', ⟨rfl, e₁, he⟩, rfl⟩ := h
  rcases Relation.ReflTransGen.cases_head hm with rfl | ⟨l₁, h₁, hm⟩
  · exact .inl ⟨⟨e₁, he⟩, rfl⟩
  · refine .inr ⟨?_, l₁, h₁, _, ⟨_, hm, _, ⟨rfl, e₁, he⟩, rfl⟩, rfl⟩
    refine (hs.not_rParen.mono fun k hk => ?_) h₁
    rintro rfl
    cases hk

/-- Either nothing is left of the operands, or one more is parsed. -/
theorem Takes.atOperands {g : Bool → Parse α} (hs : Opens reg s) (ht : Takes reg ns (g true) (seq []))
    (hf : Takes reg ns (g false) (seq [s, operands reg s])) :
    Takes reg ns (Parser.peekEq reg .rParen >>= g) (operands reg s) :=
  .peekEq ht hf (operands_cases hs)

theorem takes_parseCallExpr (h : Takes reg ns expr s) (hs : Opens reg s) (n : Nat) :
    Takes reg ns (parseCallExpr reg expr n) (call reg ns s) := by
  have hargs (g : List Expr → Expr) :
      Takes reg ns (do return g (← parseOperands reg expr n)) (operands reg s) :=
    (takes_parseOperands h hs n).done fun _ => .pure _
  refine .peekEq (.symbol (F := fun y l l' => isField reg y ∧ s l l' ∨
    ¬ isField reg y ∧ operands reg s l l') fun y => ?_)
    (.bind (takes_nonnull h) fun target => .last (hargs (.callProc target))) ?_
  · split
    · rename_i func field hfunc
      refine (hargs _).mono fun hl => hl.elim (fun hl => ?_) And.right
      rw [isField, hfunc] at hl
      cases hl.1.1
    · rename_i field hfunc hfield
      refine Takes.mono (.done (takes_nonnull h) fun _ => .pure _) fun hl => hl.elim And.right ?_
      rintro ⟨hl, -⟩
      exact absurd ⟨hfunc, by rw [hfield]; rfl⟩ hl
    · rename_i hfunc hfield
      have hop {l l' : Lexer} (hl : isField reg y ∧ s l l' ∨ ¬ isField reg y ∧ operands reg s l l') :
          operands reg s l l' := by
        refine hl.elim (fun hl => ?_) And.right
        rw [isField, hfield] at hl
        cases hl.1.2
      cases reg.findClass y.name with
      | none => exact (hargs _).mono hop
      | some c => exact (hargs _).mono hop
  · rintro l l' (⟨y, e, ⟨rfl, hk⟩, e', hy, e₂, hF, rfl⟩ | ⟨e, ⟨rfl, hk⟩, hl⟩)
    · exact .inl ⟨hk, y, e', hy, hF⟩
    · exact .inr ⟨hk, hl⟩

theorem takes_parseUnaryExpr (h : Takes reg ns expr s) :
    Takes reg ns (parseUnaryExpr reg expr) (unary reg s) := by
  refine .bind (takes_nextToken _) fun t => ?_
  cases t.kind with
  | unaryOp op => exact .bind (takes_nonnull h) fun _ => .pure _
  | _ => exact .throw _ _

theorem takes_parseBinaryRest (h : Takes reg ns expr s) (hs : Opens reg s) (op : BinaryOp) (n : Nat)
    (left : Expr) : Takes reg ns (parseBinaryRest reg expr op n left) (operands reg s) := by
  induction n generalizing left with
  | zero => exact .throw _ _
  | succ n ih =>
      exact .atOperands hs (.pure left) (.bind (takes_nonnull h) fun right => .last (ih _))

theorem takes_parseBinaryExpr (h : Takes reg ns expr s) (hs : Opens reg s) (n : Nat) :
    Takes reg ns (parseBinaryExpr reg expr n) (binary reg s) := by
  refine .bind (takes_nextToken _) fun t => ?_
  cases t.kind with
  | binaryOp op =>
      exact .bind (takes_nonnull h) fun _ => .bind (takes_nonnull h) fun _ =>
        .last (takes_parseBinaryRest h hs op n _)
  | _ => exact .throw _ _

theorem takes_parseListExpr (h : Takes reg ns expr s) (hs : Opens reg s) (n : Nat) :
    Takes reg ns (parseListExpr reg expr n) (list reg s) := by
  refine .bind (takes_nonnull h) fun first => .last (.peekEq (u := seq [one reg .range, s]) ?_
    ((takes_parseOperands h hs n).done fun _ => .pure _) ?_)
  · refine .bind (takes_nextToken _) fun _ => ?_
    split
    · refine .last (.done h fun last => ?_)
      split
      · exact .pure _
      · exact .throw _
    · exact .throw _ _
  · rintro l l' (⟨e, ⟨rfl, hk⟩, e', hl, rfl⟩ | ⟨e, hk, hl⟩)
    · exact .inr ⟨hk, hl⟩
    · exact .inl ⟨⟨e, hk⟩, e, hk, hl⟩

/-! ### Control -/

theorem takes_parseBeginExpr (h : Takes reg ns expr s) (hs : Opens reg s) (n : Nat) :
    Takes reg ns (parseBeginExpr reg expr n) (seq [one reg .beginExpr, operands reg s]) :=
  .bind (takes_expectNext _) fun _ => .still pushScope_same fun _ =>
    .bind (takes_untilRParen h hs.not_rParen n) fun _ => .still popScope_same fun _ => .pure _

theorem takes_parseCondClauses (h : Takes reg ns expr s) (hs : Opens reg s) (n : Nat) :
    Takes reg ns (parseCondClauses reg expr n) (seq [s, operands reg s]) := by
  induction n with
  | zero => exact .throw _ _
  | succ n ih =>
      exact .bind (takes_nonnull h) fun a => .last (.atOperands hs (.pure _) (.bind (takes_nonnull h)
        fun b => .last (.atOperands hs (.pure _) (ih.done fun _ => .pure _))))

theorem takes_parseCondExpr (h : Takes reg ns expr s) (hs : Opens reg s) (n : Nat) :
    Takes reg ns (parseCondExpr reg expr n) (seq [one reg .cond, s, operands reg s]) :=
  .bind (takes_expectNext _) fun _ => (takes_parseCondClauses h hs n).done fun _ => .pure _

theorem takes_parseRxOpExpr (h : Takes reg ns expr s) (hs : Opens reg s) (n : Nat) :
    Takes reg ns (parseRxOpExpr reg expr n) (rxOp reg ns s) :=
  .bind (takes_expectNext _) fun _ => .bind takes_parseSymbol fun _ =>
    .bind (takes_parseExpressionList h hs n true) fun _ => .bind (takes_expectNext _) fun _ =>
    .pure _

/-- What stands in parentheses does not end a list. -/
theorem opens_parenthesised (ss : List Span) : Opens reg (Grammar.parenthesised reg ss) :=
  (starts_one _).seq.mono fun k hk => by rw [hk]; rfl

theorem takes_parseLetRxExpr (h : Takes reg ns expr s) (hs : Opens reg s) (n : Nat) :
    Takes reg ns (parseLetRxExpr reg expr n) (seq [one reg .letRxExpr, s, many (rxOp reg ns s),
      ahead reg (atEnd · = true)]) :=
  .bind (takes_expectNext _) fun _ => .still pushScope_same fun _ => .bind (takes_nonnull h)
    fun _ => .done (.parseUntil (takes_parseRxOpExpr h hs n) (opens_parenthesised _) n) fun _ =>
    .bind popScope_same fun _ => .pure _

theorem takes_parseBinding (h : Takes reg ns expr s) (sc : ScopeId) :
    Takes reg ns (parseBinding reg expr sc) (binding reg ns s) := by
  refine .bind (takes_expectNext _) fun _ => .bind takes_parseSymbol fun x => .still .get fun p => ?_
  by_cases hb : p.scopes.has sc x.fullyQualifiedName
  · rw [if_pos hb]
    exact .throw _ _
  · rw [if_neg hb]
    exact .bind (takes_nonnull h) fun _ => .still (newLocal_same sc _ _) fun l =>
      .still (addLocal_same sc l) fun _ => .bind (takes_expectNext _) fun _ => .pure _

theorem takes_parseLetExpr (h : Takes reg ns expr s) (hs : Opens reg s) (n : Nat) :
    Takes reg ns (parseLetExpr reg expr n) (seq [one reg .letExpr, one reg .lParen,
      operands reg (binding reg ns s), one reg .rParen, expressions reg s]) :=
  .bind (takes_expectNext _) fun _ => .still pushScope_same fun sc =>
    .bind (takes_expectNext _) fun _ =>
    .bind (takes_untilRParen (takes_parseBinding h sc) (opens_parenthesised _).not_rParen n)
    fun _ => .bind (takes_expectNext _) fun _ => .bind (takes_parseExpressionList h hs n true)
    fun _ => .still popScope_same fun _ => .pure _

theorem takes_parseThrowExpr (h : Takes reg ns expr s) :
    Takes reg ns (parseThrowExpr reg expr) (seq [one reg .throwExpr, s]) :=
  .bind (takes_expectNext _) fun _ => .bind (takes_nonnull h) fun _ => .pure _

theorem takes_parseSetExpr (h : Takes reg ns expr s) :
    Takes reg ns (parseSetExpr reg expr) (assignment reg ns s) := by
  refine Takes.mono (.bind (takes_expectNext _) fun _ => .last (.symbol (F := fun y l l' =>
    isSettable reg y ∧ seq [s, s] l l' ∨ ¬ isSettable reg y ∧ s l l') fun y => ?_)) ?_
  · split
    · rename_i field hfield
      refine Takes.mono (.bind (takes_nonnull h) fun _ => .bind (takes_nonnull h) fun _ => .pure _)
        fun hl => hl.elim And.right ?_
      rintro ⟨hl, -⟩
      exact absurd (by rw [isSettable, hfield]; rfl) hl
    · rename_i hfield
      refine .still getScope_same fun sc => .still .get fun p => ?_
      cases p.scopes.lookup sc y.fullyQualifiedName with
      | none => exact .throw _ _
      | some x =>
          refine Takes.mono (.done (takes_nonnull h) fun _ => .pure _) fun hl =>
            hl.elim (fun hl => ?_) And.right
          rw [isSettable, hfield] at hl
          cases hl.1
  · rintro l l' ⟨y, e, he, e', hy, e₂, hF, rfl⟩
    exact ⟨e, he, _, ⟨y, e', hy, hF⟩, rfl⟩

theorem takes_parseWhenExpr (h : Takes reg ns expr s) (hs : Opens reg s) (n : Nat) :
    Takes reg ns (parseWhenExpr reg expr n) (seq [one reg .whenExpr, s, expressions reg s]) :=
  .bind (takes_expectNext _) fun _ => .bind (takes_nonnull h) fun _ =>
    .bind (takes_parseExpressionList h hs n true) fun _ => .pure _

theorem takes_parseWhileExpr (h : Takes reg ns expr s) (hs : Opens reg s) (n : Nat) :
    Takes reg ns (parseWhileExpr reg expr n) (seq [one reg .whileExpr, s, expressions reg s]) :=
  .bind (takes_expectNext _) fun _ => .bind (takes_nonnull h) fun _ =>
    .bind (takes_parseExpressionList h hs n true) fun _ => .pure _

theorem takes_parseClause (h : Takes reg ns expr s) (hs : Opens reg s) (n : Nat) :
    Takes reg ns (parseClause reg expr n) (clause reg ns s) :=
  .bind (takes_expectNext _) fun _ => .bind (takes_parseLiteralExpr h hs n) fun _ =>
    .bind (takes_parseExpressionList h hs n true) fun _ => .bind (takes_expectNext _) fun _ =>
    .pure _

theorem takes_parseCaseExpr (h : Takes reg ns expr s) (hs : Opens reg s) (n : Nat) :
    Takes reg ns (parseCaseExpr reg expr n) (seq [one reg .caseExpr, s, many (clause reg ns s),
      ahead reg (atEnd · = true)]) :=
  .bind (takes_expectNext _) fun _ => .bind (takes_nonnull h) fun _ =>
    .done (.parseUntil (takes_parseClause h hs n) (opens_parenthesised _) n) fun _ => .pure _

/-! ### Classes -/

theorem takes_parseClass (k : Token.Kind) : Takes reg ns (parseClass reg k) (one reg k) := by
  refine .done (takes_expectNext k) fun t => .bind (.lift _) fun x => ?_
  cases reg.findClass x.name with
  | none => exact .throw _
  | some c => exact .pure c

theorem takes_parseCastExpr (h : Takes reg ns expr s) :
    Takes reg ns (parseCastExpr reg expr) (seq [one reg .castExpr, s]) :=
  .bind (takes_parseClass _) fun _ => .bind (takes_nonnull h) fun _ => .pure _

theorem takes_parseInstanceOfExpr (h : Takes reg ns expr s) :
    Takes reg ns (parseInstanceOfExpr reg expr) (seq [one reg .instanceOfExpr, s]) :=
  .bind (takes_parseClass _) fun _ => .bind (takes_nonnull h) fun _ => .pure _

theorem takes_parseNewExpr (h : Takes reg ns expr s) (hs : Opens reg s) (n : Nat) :
    Takes reg ns (parseNewExpr reg expr n) (seq [one reg .newExpr, expressions reg s]) := by
  refine .bind (takes_parseClass _) fun c => ?_
  rintro m l l' ⟨e, ⟨e₁, hm, e₂, ⟨rfl, e₃, t, ht, hk⟩, rfl⟩, rfl⟩
  refine .bind (ensures_parseExpressionList h hs n true hm ht hk) fun es =>
    .bind ((ensures_peekEq ht _).of_pre Peeked.here) fun b => ?_
  cases b with
  | false => exact .throw _
  | true => exact .pure fun hp => hp.2.here

/-! ### Forms -/

theorem takes_parseForm {S : Option Symbol → Span} (h : ∀ ns, Takes reg ns expr (S ns))
    (hs : ∀ ns, Opens reg (S ns)) (n : Nat) :
    Takes reg ns (parseForm reg expr n) (byFirst reg (form reg ns S)) := by
  refine .peekAt (fun {m l l' t e} ht hl => ?_) (starts_byFirst fun _ _ _ _ => trivial)
  obtain ⟨t', e', ht', hl⟩ := hl
  obtain ⟨rfl, rfl⟩ := token_unique ht ht'
  have h₁ := h ns
  have hs₁ := hs ns
  have hform {k : Token.Kind} (hk : t'.kind = k) {x : ParseExpr}
      (hx : Takes reg ns x (form reg ns S k)) :
      Ensures (Peeked reg ns m l t' e') x fun _ => Here reg ns m l' :=
    (hx (hk ▸ hl)).of_pre Peeked.here
  cases hk : t'.kind with
  | unaryOp => exact hform hk (.map (takes_parseUnaryExpr h₁))
  | binaryOp => exact hform hk (.map (takes_parseBinaryExpr h₁ hs₁ n))
  | lBrace | literalTrue | literalFalse | literalString | literalLong | literalDouble =>
      exact hform hk (.map (takes_parseListExpr h₁ hs₁ n))
  | defNamespace => exact hform hk (.done (takes_parseDefNamespace h hs n) fun _ => .pure _)
  | defMacro => exact hform hk (.done (takes_parseMacroDef h₁ hs₁ n) fun _ => .pure _)
  | defNative => exact hform hk (.done (takes_parseDefNative n) fun _ => .pure _)
  | define => exact hform hk (takes_parseDef h₁)
  | defn => exact hform hk (.done (takes_parseDefn h₁ hs₁ n) fun _ => .pure _)
  | newExpr => exact hform hk (.map (takes_parseNewExpr h₁ hs₁ n))
  | beginExpr => exact hform hk (.map (takes_parseBeginExpr h₁ hs₁ n))
  | set => exact hform hk (.map (takes_parseSetExpr h₁))
  | cond => exact hform hk (.map (takes_parseCondExpr h₁ hs₁ n))
  | throwExpr => exact hform hk (.map (takes_parseThrowExpr h₁))
  | fn => exact hform hk (.map (takes_parseLiteralLambda h₁ hs₁ n (.inl rfl)))
  | lParen | dispatch | identifier => exact hform hk (.map (takes_parseCallExpr h₁ hs₁ n))
  | quote =>
      -- the reader counts from behind the quote, which is peeked
      rw [hk] at hl
      exact .map (ensures_parseQuotedExpr n hk hl)
  | whenExpr => exact hform hk (.map (takes_parseWhenExpr h₁ hs₁ n))
  | caseExpr => exact hform hk (.map (takes_parseCaseExpr h₁ hs₁ n))
  | whileExpr => exact hform hk (.map (takes_parseWhileExpr h₁ hs₁ n))
  | letRxExpr => exact hform hk (.map (takes_parseLetRxExpr h₁ hs₁ n))
  | castExpr => exact hform hk (.map (takes_parseCastExpr h₁))
  | instanceOfExpr => exact hform hk (.map (takes_parseInstanceOfExpr h₁))
  | letExpr => exact hform hk (.map (takes_parseLetExpr h₁ hs₁ n))
  | _ => exact .throw _

end

/-- No form starts with what ends a list of forms. -/
theorem opens_nested (n : Nat) (ns : Option Symbol) : Opens reg (nested reg n ns) := by
  cases n with
  | zero => exact fun _ _ h => h.elim
  | succ n =>
      rintro l l' ⟨t, e, ht, h⟩
      refine ⟨e, t, ht, ?_⟩
      by_cases hk : startsLiteral t.kind
      · refine Bool.eq_false_iff.mpr fun hend => ?_
        rw [atEnd, Bool.or_eq_true, beq_iff_eq, beq_iff_eq] at hend
        rcases hend with hend | hend
        · rw [hend] at hk
          cases hk
        · rw [hend] at hk
          cases hk
      · rw [if_neg hk] at h
        by_cases hq : t.kind = .quote
        · rw [hq]
          rfl
        · rw [if_neg hq] at h
          obtain ⟨e', t', ht', hk'⟩ := opens_parenthesised _ h
          obtain ⟨rfl, -⟩ := token_unique ht ht'
          exact hk'

/-- **The parser is at the end of a form it was in front of, and has logged nothing.** -/
theorem takes_parseExpression (n k : Nat) (ns : Option Symbol) :
    Takes reg ns (parseExpression reg n) (nested reg k ns) := by
  induction n generalizing k ns with
  | zero => exact .throw _ _
  | succ n ih =>
      cases k with
      | zero => exact fun _ _ _ h => h.elim
      | succ k =>
          have ih (ns : Option Symbol) := ih k ns
          have hs (ns : Option Symbol) : Opens reg (nested reg k ns) := opens_nested k ns
          refine .peekAt (fun {m l l' t e} ht hl => ?_)
            ((opens_nested (k + 1) ns).mono fun _ _ => trivial)
          obtain ⟨t', e', ht', hl⟩ := hl
          obtain ⟨rfl, rfl⟩ := token_unique ht ht'
          by_cases hk : startsLiteral t'.kind
          · rw [if_pos hk] at hl ⊢
            exact .map ((takes_parseLiteralExpr (ih ns) (hs ns) n ⟨t', e', ht, hl⟩).of_pre
              Peeked.here)
          · rw [if_neg hk] at hl ⊢
            by_cases hq : t'.kind = .quote
            · rw [if_pos hq] at hl ⊢
              exact .map (ensures_parseQuotedExpr n hq hl)
            · rw [if_neg hq] at hl ⊢
              have hform : Takes reg ns (do
                  let _ ← expectNext reg .lParen
                  let e ← parseForm reg (parseExpression reg n) n
                  let _ ← expectNext reg .rParen
                  return e) (Grammar.parenthesised reg [byFirst reg (form reg ns (nested reg k))]) :=
                .bind (takes_expectNext _) fun _ => .bind (takes_parseForm ih hs n) fun _ =>
                  .bind (takes_expectNext _) fun _ => .pure _
              exact (hform hl).of_pre Peeked.here

/-- Between the two states the parser read one well-formed form, and every token it expected. -/
def ReadsForm (reg : Registry) (l : Lexer) (p q : Parser) : Prop :=
  ∃ l', Form reg p.current l l' ∧ Here reg p.current p.mismatches l' q

/-- **The expression that `ParseExpression` returns is a whole form exactly when there is a form at
the parser's position.** -/
theorem readsForm_iff {n : Nat} {expr : Expr} (hp : Here reg p.current p.mismatches l p)
    (hrun : parseExpression reg n p = .ok (some expr, q)) :
    ReadsForm reg l p q ↔ ∃ l', Form reg p.current l l' := by
  constructor
  · rintro ⟨l', hform, -⟩
    exact ⟨l', hform⟩
  · rintro ⟨l', k, hl⟩
    exact ⟨l', ⟨k, hl⟩, takes_parseExpression n k _ hl hp hrun⟩

theorem readsForm_sample : ∃ expr q, parseExpression {} 2 (ofString "(not 1)") = .ok (some expr, q) ∧
    ReadsForm {} (ofString "(not 1)").lexer (ofString "(not 1)") q := by
  have h₁ : token {} ⟨.lParen, ""⟩ { chars := "(not 1)".toList }
      { chars := "not 1)".toList, depth := 1 } := ⟨rfl, by decide⟩
  have h₂ : token {} ⟨.unaryOp .not, "not"⟩ { chars := "not 1)".toList, depth := 1 }
      { chars := " 1)".toList, depth := 1 } := ⟨rfl, by decide⟩
  have h₃ : token {} ⟨.literalLong, "1"⟩ { chars := " 1)".toList, depth := 1 }
      { chars := ")".toList, depth := 1 } := ⟨rfl, by decide⟩
  have h₄ : token {} ⟨.rParen, ""⟩ { chars := ")".toList, depth := 1 } { chars := [] } :=
    ⟨rfl, by decide⟩
  have hone : nested {} 1 none { chars := " 1)".toList, depth := 1 }
      { chars := ")".toList, depth := 1 } := ⟨_, _, h₃, _, h₃, by simp [isValue]⟩
  have hform : Form {} none (ofString "(not 1)").lexer { chars := [] } :=
    ⟨2, _, _, h₁, _, ⟨_, h₁, rfl⟩, _, ⟨_, _, h₂, _, ⟨_, h₂, _, rfl⟩, _, hone, rfl⟩, _, ⟨_, h₄, rfl⟩,
      rfl⟩
  have hrun : ((parseExpression {} 2 (ofString "(not 1)")).toOption.bind Prod.fst).isSome := by
    decide +kernel
  rcases hx : parseExpression {} 2 (ofString "(not 1)") with e | ⟨- | expr, q⟩
  · rw [hx] at hrun
    cases hrun
  · rw [hx] at hrun
    cases hrun
  · exact ⟨expr, q, rfl, (readsForm_iff ⟨rfl, rfl, .inl ⟨rfl, rfl⟩⟩ hx).mpr ⟨_, hform⟩⟩

/-- The surplus operand is taken in place of the closing parenthesis. -/
theorem not_readsForm_surplus : ¬ ∀ (text : String) (n : Nat) (expr : Expr) (q : Parser),
    parseExpression {} n (ofString text) = .ok (some expr, q) →
      ReadsForm {} (ofString text).lexer (ofString text) q := by
  intro h
  have hrun : (parseExpression {} 2 (ofString "(not 1 2)")).toOption.map (fun r =>
      (r.1.isSome, r.2.mismatches.isEmpty)) = some (true, false) := by decide +kernel
  rcases hx : parseExpression {} 2 (ofString "(not 1 2)") with e | ⟨- | expr, q⟩
  · rw [hx] at hrun
    cases hrun
  · rw [hx] at hrun
    cases hrun
  · obtain ⟨l', -, hq⟩ := h _ _ expr q hx
    rw [hx] at hrun
    change some (true, q.mismatches.isEmpty) = _ at hrun
    rw [hq.mismatches] at hrun
    cases hrun

end Parser

end Gel
