import Gel.ScopeBalance
import Gel.Scanning

/-!
# Parsing — runs of the parse functions over a text

`p.At f cs`: outside a namespace, the characters `cs` are unread, the first token of them perhaps
peeked already.  `Parses reg x cs a rest`: at the characters `cs` the computation `x` returns `a` and
leaves the characters `rest` unread, in the scope it found.  Such runs compose as the computations do.
-/

namespace Gel

open Faulting Lexer

namespace Parser

/-- The parser is at the given characters. -/
structure At (reg : Registry) (p : Parser) (cs : List Char) : Prop where
  current : p.current = none
  scope : p.scope ≠ none
  unread : p.peek = none ∧ p.lexer.At cs ∨ ∃ t rest, p.peek = some t ∧ t.kind ≠ .invalid ∧
    p.lexer.At rest ∧ Scans reg.findClass cs t rest

/-- At the characters `cs` the computation returns `a` and leaves `rest`. -/
def Parses {α : Type} (reg : Registry) (x : Parse α) (cs : List Char) (a : α)
    (rest : List Char) : Prop :=
  ∀ p, At reg p cs → ∃ q, x p = .ok (a, q) ∧ At reg q rest ∧ Keeps p q

variable {reg : Registry} {α β : Type} {x : Parse α} {f : α → Parse β} {cs mid rest : List Char}
  {a : α} {b : β} {p : Parser} {t : Token} {k : Token.Kind}

namespace Parses

theorem pure (a : α) : Parses reg (pure a) cs a cs := fun p hp => ⟨p, rfl, hp, refl_of Keeps p⟩

theorem bind (hx : Parses reg x cs a mid) (hf : Parses reg (f a) mid b rest) :
    Parses reg (x >>= f) cs b rest := by
  intro p hp
  obtain ⟨q, h₁, hq, hpq⟩ := hx p hp
  obtain ⟨r, h₂, hr, hqr⟩ := hf q hq
  exact ⟨r, (bind_run h₁).trans h₂, hr, trans_of Keeps hpq hqr⟩

theorem map {g : α → β} (hx : Parses reg x cs a rest) :
    Parses reg (g <$> x) cs (g a) rest := by
  intro p hp
  obtain ⟨q, h, hq, hpq⟩ := hx p hp
  exact ⟨q, map_run h, hq, hpq⟩

theorem lift {y : Except Fault α} (h : y = .ok a) : Parses reg (liftM y) cs a cs := fun p hp =>
  ⟨p, lift_run h, hp, refl_of Keeps p⟩

/-- A computation that reads the state first. -/
theorem get {f : Parser → Parse β}
    (h : ∀ p, At reg p cs → ∃ q, f p p = .ok (b, q) ∧ At reg q rest ∧ Keeps p q) :
    Parses reg (MonadState.get >>= f) cs b rest := h

end Parses

theorem At.congr {q : Parser} (h : At reg p cs) (hc : q.current = p.current)
    (hs : q.scope ≠ none) (hp : q.peek = p.peek) (hl : q.lexer = p.lexer) : At reg q cs := by
  refine ⟨hc.trans h.current, hs, ?_⟩
  rw [hp, hl]
  exact h.unread

/-! ### Tokens -/

theorem parses_nextToken (h : Scans reg.findClass cs t rest) :
    Parses reg (nextToken reg) cs t rest := by
  intro p hp
  obtain ⟨hc, hs, ⟨hpeek, hl⟩ | ⟨t', rest', hpeek, -, hl, hsc⟩⟩ := hp
  · obtain ⟨l, hscan, hl'⟩ := h _ hl
    exact ⟨_, nextToken_none hpeek hscan, ⟨hc, hs, .inl ⟨hpeek, hl'⟩⟩, .of_eq rfl rfl⟩
  · -- the token that was peeked is the one the characters start with
    have hat : ({ chars := cs } : Lexer).At cs := ⟨rfl, rfl, (by decide : (-1 : Int) < 0)⟩
    obtain ⟨l₁, h₁, hl₁⟩ := h _ hat
    obtain ⟨l₂, h₂, hl₂⟩ := hsc _ hat
    rw [h₁] at h₂
    cases h₂
    have hrest : rest' = rest := hl₂.chars.symm.trans hl₁.chars
    subst hrest
    exact ⟨_, nextToken_some hpeek, ⟨hc, hs, .inl ⟨rfl, hl⟩⟩, .of_eq rfl rfl⟩

/-- Peeking leaves the token and what is behind it. -/
theorem peekToken_run (h : Scans reg.findClass cs t rest) (ht : t.kind ≠ .invalid)
    (hp : At reg p cs) : ∃ q, peekToken reg p = .ok (t, q) ∧ Keeps p q ∧ q.current = none ∧
      q.scope ≠ none ∧ q.peek = some t ∧ q.lexer.At rest := by
  obtain ⟨hc, hs, ⟨hpeek, hl⟩ | ⟨t', rest', hpeek, hv, hl, hsc⟩⟩ := hp
  · obtain ⟨l, hscan, hl'⟩ := h _ hl
    exact ⟨_, peekToken_none hpeek (nextToken_none hpeek hscan), .of_eq rfl rfl, hc, hs,
      if_neg ht, hl'⟩
  · have hat : ({ chars := cs } : Lexer).At cs := ⟨rfl, rfl, (by decide : (-1 : Int) < 0)⟩
    obtain ⟨l₁, h₁, hl₁⟩ := h _ hat
    obtain ⟨l₂, h₂, hl₂⟩ := hsc _ hat
    rw [h₁] at h₂
    cases h₂
    have hrest : rest' = rest := hl₂.chars.symm.trans hl₁.chars
    subst hrest
    exact ⟨p, peekToken_some hpeek, refl_of Keeps p, hc, hs, hpeek, hl⟩

theorem parses_peekToken (h : Scans reg.findClass cs t rest) (ht : t.kind ≠ .invalid) :
    Parses reg (peekToken reg) cs t cs := by
  intro p hp
  obtain ⟨q, hrun, hk, hc, hs, hpeek, hl⟩ := peekToken_run h ht hp
  exact ⟨q, hrun, ⟨hc, hs, .inr ⟨t, rest, hpeek, ht, hl, h⟩⟩, hk⟩

/-- A space in front of what is peeked first: once the token is peeked, the space is gone. -/
theorem Parses.space {f : Token → Parse β} (hf : Parses reg (peekToken reg >>= f) cs b rest)
    (h : Scans reg.findClass cs t mid) (ht : t.kind ≠ .invalid) :
    Parses reg (peekToken reg >>= f) (' ' :: cs) b rest := by
  intro p hp
  obtain ⟨q, hrun, hk, hc, hs, hpeek, hl⟩ := peekToken_run h.space ht hp
  obtain ⟨r, hr, hrest, hk'⟩ := hf q ⟨hc, hs, .inr ⟨t, mid, hpeek, ht, hl, h⟩⟩
  rw [bind_run (peekToken_some hpeek)] at hr
  exact ⟨r, (bind_run hrun).trans hr, hrest, trans_of Keeps hk hk'⟩

theorem parses_peekKind (h : Scans reg.findClass cs t rest) (ht : t.kind ≠ .invalid) :
    Parses reg (peekKind reg) cs t.kind cs := (parses_peekToken h ht).map

theorem parses_peekEq (h : Scans reg.findClass cs t rest) (ht : t.kind ≠ .invalid)
    (k : Token.Kind) : Parses reg (peekEq reg k) cs (t.kind == k) cs := (parses_peekKind h ht).map

theorem parses_expectNext (h : Scans reg.findClass cs t rest) :
    Parses reg (expectNext reg t.kind) cs t rest := by
  refine (parses_nextToken h).bind ?_
  rw [if_neg (not_not.mpr rfl)]
  exact .pure t

/-! ### Loops and scopes -/

theorem parses_nonnull {expr : ParseExpr} {e : Expr} (h : Parses reg expr cs (some e) rest) :
    Parses reg (nonnull expr) cs e rest := h.bind (.pure e)

/-- A loop over texts that do not begin with what stops it. -/
theorem parses_parseUntil {S : Type} {stop : Token.Kind → Bool} {item : Parse α}
    {text : S → List Char} {val : S → α} {l : List S}
    (hitem : ∀ s ∈ l, ∀ rest, Delimited rest → Parses reg item (text s ++ rest) (val s) rest)
    (hstart : ∀ s ∈ l, ∀ rest, Delimited rest → ∃ t rest', Scans reg.findClass (text s ++ rest) t rest' ∧
      t.kind ≠ .invalid ∧ stop t.kind = false)
    (hdel : ∀ s ∈ l, ∀ rest, Delimited (text s ++ rest))
    (hrest : Delimited rest) (hend : Scans reg.findClass rest t mid) (ht : t.kind ≠ .invalid)
    (hstop : stop t.kind = true) {n : Nat} (hn : l.length < n) :
    Parses reg (parseUntil reg stop item n) (l.flatMap text ++ rest) (l.map val) rest := by
  induction l generalizing n with
  | nil =>
      obtain ⟨n, rfl⟩ := Nat.exists_eq_succ_of_ne_zero (Nat.ne_of_gt hn)
      refine (parses_peekKind hend ht).bind ?_
      rw [if_pos hstop]
      exact .pure _
  | cons s l ih =>
      obtain ⟨n, rfl⟩ := Nat.exists_eq_succ_of_ne_zero (Nat.ne_of_gt (Nat.lt_of_le_of_lt
        (Nat.zero_le _) hn))
      have hmid : Delimited (l.flatMap text ++ rest) := by
        cases l with
        | nil => exact hrest
        | cons s' l =>
            rw [List.flatMap_cons, List.append_assoc]
            exact hdel s' (by simp) _
      obtain ⟨t', rest', hscan, hv, hns⟩ := hstart s List.mem_cons_self _ hmid
      rw [List.flatMap_cons, List.append_assoc]
      refine (parses_peekKind hscan hv).bind ?_
      rw [if_neg (by simp [hns])]
      refine (hitem s List.mem_cons_self _ hmid).bind ?_
      refine (ih (fun s hs => hitem s (List.mem_cons_of_mem _ hs))
        (fun s hs => hstart s (List.mem_cons_of_mem _ hs))
        (fun s hs => hdel s (List.mem_cons_of_mem _ hs)) (Nat.lt_of_succ_lt_succ hn)).bind ?_
      exact .pure _

/-- What is parsed in a scope that is pushed for it. -/
theorem parses_scoped {body : ScopeId → Parse α} {f : α → Parse β}
    (hbody : ∀ s, Parses reg (body s) cs a mid) (hf : Parses reg (f a) mid b rest) :
    Parses reg (pushScope >>= fun s => body s >>= fun a => popScope >>= fun _ => f a) cs b rest := by
  intro p hp
  have hpush : pushScope p = .ok (p.scopes.scopes.length,
      { p with scope := some p.scopes.scopes.length, scopes := (p.scopes.newScope p.scope).2 }) :=
    rfl
  have hin : Inside p { p with
      scope := some p.scopes.scopes.length, scopes := (p.scopes.newScope p.scope).2 } :=
    ⟨by simp [parents], by simp [parents, Scopes.newScope]⟩
  obtain ⟨q, h₁, hq, hk⟩ := hbody p.scopes.scopes.length _
    (hp.congr (q := { p with
      scope := some p.scopes.scopes.length, scopes := (p.scopes.newScope p.scope).2 })
      rfl (Option.some_ne_none _) rfl rfl)
  have hin' := hin.step hk
  have hget : getScope q = .ok (p.parents.length, q) := by
    rw [getScope, bind_run (get_run q), hin'.scope]
    rfl
  have hpop : popScope q = .ok ((), { q with scope := q.scopes.parentOf p.parents.length }) :=
    bind_run hget
  have hkeep := hin'.leave hpop
  obtain ⟨r, h₂, hr, hk'⟩ := hf { q with scope := q.scopes.parentOf p.parents.length }
    (hq.congr rfl (by rw [hkeep.scope]; exact hp.scope) rfl rfl)
  refine ⟨r, ?_, hr, trans_of Keeps hkeep hk'⟩
  rw [bind_run hpush, bind_run h₁, bind_run hpop]
  exact h₂

end Parser

end Gel
