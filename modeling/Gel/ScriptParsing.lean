import Gel.ScopeBalance
import Gel.Tokens

/-!
# ScriptParsing — scripts and the forms `ParseExpression` accepts

`Accepts` is the loop that calls `ParseExpression` until the input ends and turns every form into an
expression; `ParseScript` has its own table of forms in place of it.  A round of its loop that has
read an atom goes on to an opening parenthesis, whatever comes.

* `parseScriptForm_of_parseForm`: the two tables agree on every form but `new:`.
* `parseScript_of_accepts`: where an atom is always followed by a parenthesised form, and none of
  those is a `new:` form, a script is the expressions that `ParseExpression` gives.
-/

namespace Gel

open Faulting

namespace Parser

/-- How a form starts: with a token that is a form or a quote, or with a parenthesis and the token
after it. -/
inductive Head where
  | atom
  | opening (second : Token.Kind)
  deriving DecidableEq, Repr

def isAtom (k : Token.Kind) : Bool := startsLiteral k || k == .quote

/-- The head of the next form. -/
def head (reg : Registry) : Parse Head := do
  let k ← peekKind reg
  if isAtom k then return .atom
  else
    let _ ← expectNext reg .lParen
    return .opening (← peekKind reg)

/-- `ParseExpression`, called from one state to another until the input ends, turns every form into
an expression.  The heads are the heads of the forms. -/
inductive Accepts (reg : Registry) (n : Nat) : Parser → List (Head × Expr) → Parser → Prop where
  | done {p q : Parser} (h : peekKind reg p = .ok (.endOfStream, q)) : Accepts reg n p [] q
  | form {p q r s t : Parser} {k : Token.Kind} {x : Head} {e : Expr} {fs : List (Head × Expr)}
      (hk : peekKind reg p = .ok (k, q)) (hne : k ≠ .endOfStream) (hx : head reg q = .ok (x, t))
      (he : parseExpression reg n q = .ok (some e, r)) (hs : Accepts reg n r fs s) :
      Accepts reg n p ((x, e) :: fs) s

/-- The forms a script reads: an atom is followed by a parenthesised form, and a parenthesised form
is no `new:` form. -/
def scriptable : List Head → Bool
  | [] => true
  | .atom :: .opening k :: hs => k != .newExpr && scriptable hs
  | .opening k :: hs => k != .newExpr && scriptable hs
  | _ => false

variable {reg : Registry} {expr : ParseExpr} {n : Nat} {p q r s : Parser} {e : Expr}

/-- The table of `ParseScript` has every form of the table of `ParseExpression` that gives an
expression, but `new:`. -/
theorem parseScriptForm_of_parseForm {k : Token.Kind} (hk : peekKind reg p = .ok (k, q))
    (hne : k ≠ .newExpr) (h : parseForm reg expr n p = .ok (some e, r)) :
    parseScriptForm reg expr n p = .ok (some e, r) := by
  rw [parseForm, bind_run hk] at h
  rw [parseScriptForm, bind_run hk]
  cases k with
  | newExpr => exact absurd rfl hne
  | defNative =>
      obtain ⟨u, t, -, h⟩ := bind_eq_ok.mp h
      cases h
  | importExpr => cases h
  | _ => exact h

/-- A parenthesised form, from its opening parenthesis on. -/
theorem parseExpression_paren {k : Token.Kind} (hk : peekKind reg p = .ok (k, q))
    (ha : isAtom k = false) (h : parseExpression reg (n + 1) p = .ok (some e, s)) :
    ∃ t u q' r, expectNext reg .lParen q = .ok (t, q') ∧
      parseForm reg (parseExpression reg n) n q' = .ok (some e, r) ∧
      expectNext reg .rParen r = .ok (u, s) := by
  rw [isAtom, Bool.or_eq_false_iff] at ha
  obtain ⟨hl, hq⟩ := ha
  rw [parseExpression, bind_run hk, if_neg (by simp [hl]), if_neg (by simpa using hq)] at h
  obtain ⟨t, q', h₁, h⟩ := bind_eq_ok.mp h
  obtain ⟨e', r, h₂, h⟩ := bind_eq_ok.mp h
  obtain ⟨u, s', h₃, h⟩ := bind_eq_ok.mp h
  cases h
  exact ⟨t, u, q', r, h₁, h₂, h₃⟩

/-- An atom is read the same way in front of a script's form. -/
theorem parseAtom_of_parseExpression {k : Token.Kind} (hk : peekKind reg p = .ok (k, q))
    (ha : isAtom k = true) (h : parseExpression reg (n + 1) p = .ok (some e, s)) :
    parseAtom reg (parseExpression reg n) n p = .ok ([e], s) := by
  rw [parseExpression, bind_run hk] at h
  rw [parseAtom, bind_run hk]
  by_cases hl : startsLiteral k
  · rw [if_pos hl] at h ⊢
    obtain ⟨e', h, he⟩ := map_eq_ok.mp h
    cases he
    exact bind_run h
  · have hq : k = .quote := by simpa [isAtom, hl] using ha
    rw [if_neg hl, if_pos hq] at h ⊢
    obtain ⟨e', h, he⟩ := map_eq_ok.mp h
    cases he
    exact bind_run h

/-- The head of a form, by its first token. -/
theorem head_eq_ok {k : Token.Kind} {x : Head} (hk : peekKind reg p = .ok (k, q))
    (hx : head reg p = .ok (x, r)) :
    isAtom k = true ∧ x = .atom ∨ isAtom k = false ∧ ∃ t s second,
      expectNext reg .lParen q = .ok (t, s) ∧ peekKind reg s = .ok (second, r) ∧
      x = .opening second := by
  rw [head, bind_run hk] at hx
  by_cases ha : isAtom k
  · rw [if_pos ha] at hx
    cases hx
    exact .inl ⟨ha, rfl⟩
  · rw [if_neg ha] at hx
    obtain ⟨t, s, h₁, hx⟩ := bind_eq_ok.mp hx
    obtain ⟨second, r', h₂, hx⟩ := bind_eq_ok.mp hx
    cases hx
    exact .inr ⟨by simpa using ha, t, s, second, h₁, h₂, rfl⟩

/-- What a round does after its atom, at a parenthesised form that `ParseExpression` accepts. -/
theorem rest_of_round {k second : Token.Kind} {t : Parser}
    (hk : peekKind reg p = .ok (k, q)) (hx : head reg q = .ok (.opening second, t))
    (hne : second ≠ .newExpr) (he : parseExpression reg (n + 1) q = .ok (some e, s))
    (atom : List Expr) :
    (do
      let _ ← expectNext reg .lParen
      let e ← parseScriptForm reg (parseExpression reg n) n
      let _ ← expectNext reg .rParen
      return atom ++ e.toList : Parse (List Expr)) p = .ok (atom ++ [e], s) := by
  have hk' := peekKind_of_peek hk
  obtain ⟨-, h⟩ | ⟨ha, t', q₁, second', h₁, h₂, h⟩ := head_eq_ok hk' hx
  · cases h
  · cases h
    obtain ⟨t₂, u, q₂, r, h₃, h₄, h₅⟩ := parseExpression_paren hk' ha he
    rw [h₁] at h₃
    cases h₃
    rw [expectNext_of_peek hk] at h₁
    rw [bind_run h₁, bind_run (parseScriptForm_of_parseForm h₂ hne h₄), bind_run h₅]
    rfl

theorem parseRounds_succ {k : Token.Kind} {es : List Expr} {j : Nat}
    (hk : peekKind reg p = .ok (k, q)) (hne : k ≠ .endOfStream)
    (h : parseRound reg expr n q = .ok (es, r)) :
    parseRounds reg expr n (j + 1) p =
      ((es ++ ·) <$> parseRounds reg expr n j) r := by
  have heq : peekEq reg .endOfStream p = .ok (false, q) := by
    have := map_run (g := (· == Token.Kind.endOfStream)) hk
    rwa [beq_eq_false_iff_ne.mpr hne] at this
  rw [parseRounds, bind_run heq]
  exact bind_run h

/-- The loop of `ParseScript` reads what `ParseExpression` accepts. -/
theorem parseRounds_of_accepts {fs : List (Head × Expr)} (h : Accepts reg (n + 1) p fs s)
    (hf : scriptable (fs.map Prod.fst)) {j : Nat} (hj : fs.length < j) :
    parseRounds reg (parseExpression reg n) n j p = .ok (fs.map Prod.snd, s) := by
  -- an atom and the form behind it are one round, so the induction is on the number of rounds
  induction j generalizing p fs with
  | zero => exact absurd hj (Nat.not_lt_zero _)
  | succ j ih =>
      cases h with
      | done h =>
          have heq : peekEq reg .endOfStream p = .ok (true, s) := map_run h
          rw [parseRounds, bind_run heq]
          rfl
      | @form _ q r _ t k x e fs hk hne hx he hs =>
          have hk' := peekKind_of_peek hk
          obtain ⟨ha, rfl⟩ | ⟨ha, t', s', second, -, -, rfl⟩ := head_eq_ok hk' hx
          · -- an atom: the next form is there, and parenthesised
            cases hs with
            | done => cases hf
            | @form _ q' r' _ t' k' x' e' fs' hk₂ hne₂ hx₂ he₂ hs₂ =>
                cases x' with
                | atom => cases hf
                | opening second =>
                    obtain ⟨hnew, hf⟩ : second ≠ .newExpr ∧ scriptable (fs'.map Prod.fst) := by
                      simpa [scriptable] using hf
                    have hround : parseRound reg (parseExpression reg n) n q =
                        .ok ([e] ++ [e'], r') := by
                      rw [parseRound, bind_run (parseAtom_of_parseExpression hk' ha he)]
                      exact rest_of_round hk₂ hx₂ hnew he₂ [e]
                    rw [parseRounds_succ hk hne hround]
                    refine map_run (ih hs₂ hf ?_)
                    simp only [List.length_cons] at hj
                    omega
          · obtain ⟨hnew, hf⟩ : second ≠ .newExpr ∧ scriptable (fs.map Prod.fst) := by
              simpa [scriptable] using hf
            have hatom : parseAtom reg (parseExpression reg n) n q = .ok ([], q) := by
              rw [isAtom, Bool.or_eq_false_iff] at ha
              rw [parseAtom, bind_run hk', if_neg (by simp [ha.1]),
                if_neg (by simpa using ha.2)]
              rfl
            have hround : parseRound reg (parseExpression reg n) n q = .ok ([] ++ [e], r) := by
              rw [parseRound, bind_run hatom]
              exact rest_of_round hk' hx hnew he []
            rw [parseRounds_succ hk hne hround]
            refine map_run (ih hs hf ?_)
            simpa using hj

/-- The forms leave the parser in the scope they found it in. -/
theorem Accepts.keeps {fs : List (Head × Expr)} (h : Accepts reg n p fs s) : Keeps p s := by
  induction h with
  | done h => exact peekKind_steps h
  | form hk _ _ he _ ih =>
      exact trans_of Keeps (trans_of Keeps (peekKind_steps hk) (parseExpression_steps n he)) ih

/-- The parser in a new script. -/
def entered (p : Parser) : Parser :=
  { p with
    scope := some p.scopes.scopes.length
    scopes := (p.scopes.newScope p.scope).2
    script := some p.scopes.scopes.length }

theorem newScript_run (p : Parser) :
    newScript p = .ok (p.scopes.scopes.length, p.entered) := rfl

theorem inside_entered (p : Parser) : Inside p p.entered :=
  ⟨by simp [entered, parents], by simp [entered, parents, Scopes.newScope]⟩

/-- **A script is the expressions `ParseExpression` gives**, where every atom is followed by a
parenthesised form that is no `new:` form. -/
theorem parseScript_of_accepts {l : List (Head × Expr)}
    (h : Accepts reg (n + 1) p.entered l s) (hf : scriptable (l.map Prod.fst)) {j : Nat}
    (hj : l.length < j) :
    ∃ q, parseScript reg n j p =
      .ok ({ scope := p.scopes.scopes.length, body := l.map Prod.snd }, q) := by
  have hin := (inside_entered p).step h.keeps
  have hpop : popScope s = .ok ((), { s with scope := s.scopes.parentOf p.parents.length }) := by
    have hs : getScope s = .ok (p.parents.length, s) := by
      rw [getScope, bind_run (get_run s), hin.scope]
      rfl
    exact bind_run hs
  refine ⟨{ s with scope := s.scopes.parentOf p.parents.length }, ?_⟩
  rw [parseScript, bind_run (newScript_run p), bind_run (parseRounds_of_accepts h hf hj),
    bind_run hpop]
  rfl

/-- A state on the way through a script. -/
def scriptAt (text : String) (peek : Option Token := none) (depth : UInt64 := 0) : Parser :=
  { (ofString "").entered with lexer := { chars := text.toList, depth }, peek }

/-- The script `1 (not 2)`. -/
theorem parseScript_of_accepts_sample :
    ∃ q, parseScript {} 2 3 (ofString "1 (not 2)") =
      .ok ({ scope := 1, body := [.literal (.long 1), .unary .not (.literal (.long 2))] }, q) :=
  parseScript_of_accepts (n := 2) (s := scriptAt "" (some ⟨.endOfStream, ""⟩))
    (l := [(.atom, .literal (.long 1)),
      (.opening (.unaryOp .not), .unary .not (.literal (.long 2)))])
    (.form (q := scriptAt " (not 2)" (some ⟨.literalLong, "1"⟩)) (r := scriptAt " (not 2)")
      rfl Token.Kind.noConfusion (t := scriptAt " (not 2)" (some ⟨.literalLong, "1"⟩)) rfl rfl
      (.form (q := scriptAt "not 2)" (some ⟨.lParen, ""⟩) 1) (r := scriptAt "")
        rfl Token.Kind.noConfusion (t := scriptAt " 2)" (some ⟨.unaryOp .not, "not"⟩) 1) rfl rfl
        (.done rfl)))
    rfl (by decide)

/-- **`ParseExpression` accepts `1`, and `ParseScript` aborts on it**: behind the literal it expects
a parenthesis, takes the end of the input for it, and finds no form there. -/
theorem parseScript_rejects_atom :
    (∃ s, Accepts {} 1 (ofString "1").entered [(.atom, .literal (.long 1))] s) ∧
      ∀ n j r, parseScript {} n j (ofString "1") ≠ .ok r := by
  constructor
  · exact ⟨_, .form rfl Token.Kind.noConfusion rfl rfl (.done rfl)⟩
  · intro n j r h
    cases j with
    | zero => cases h
    | succ j => cases h

end Parser

end Gel
