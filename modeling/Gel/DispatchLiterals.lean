import Gel.Depth
import Gel.ParserSteps
import Gel.Support.Runs
import Mathlib.Data.List.ReduceOption

/-!
# DispatchLiterals — the parameters of `$( … )`

While a dispatch literal is read, every `$` is a parameter: with a number behind it the parameter of
that number, without one the next.  The lexer counts them, ahead of the parser by the peeked token,
and `ParseLambda` declares as many when the body has been parsed.  `Move` is what the lexer does in
between two tokens of the body, with the parameter that it has read.

* `dispatched_move`: what each step does to the count.
* `parseExpression_body`: the body is parsed by a run of such steps.
* `declares_iff`: what is declared are the parameters that are used, exactly when each number is
  written as the lambda names its parameters.
-/

namespace Gel

open Faulting

namespace Lexer

/-- A parameter in the body: the text of its number, if it has one, and its identifier. -/
structure ParameterUse where
  number : Option (List Char)
  name : String
  deriving DecidableEq, Repr

/-- How it is called and counts, behind `m` parameters: without a number it is the next, with one it
raises the count above that number. -/
def ParameterUse.Counts (u : ParameterUse) (m n : Int) : Prop :=
  match u.number with
  | none => u.name = "$" ++ toString m ∧ n = m + 1
  | some ds => u.name = .ofList ('$' :: ds) ∧ n = max m (atoi ds + 1)

/-- Its number, if it has one, is written as the lambda names its parameters. -/
def ParameterUse.Canonical (u : ParameterUse) : Prop :=
  ∀ ds, u.number = some ds → ∃ k, k + 1 < 2 ^ 31 ∧ ds = Nat.toDigits 10 k

def atParameter (l : Lexer) : Bool := l.peekChar == '$' && l.isDispatching

/-- What is written behind the `$`: a digit begins a number. -/
def number (l : Lexer) : Option (List Char) :=
  if (l.peekChar 1).isDigit then some (l.chars.tail.takeWhile fun c => isValidNumberChar c) else none

/-- A token is scanned, or the lexer is moved on by `ParseQuotedExpr` or `ParseArguments`. -/
inductive Move (findClass : String → Option ClassId) : Lexer → Option ParameterUse → Lexer → Prop
  | parameter {l t l'} (hat : l.trimmed.atParameter = true) (h : l.scan findClass = .ok (t, l')) :
      Move findClass l (some ⟨l.trimmed.number, t.text⟩) l'
  | token {l t l'} (hat : l.trimmed.atParameter = false) (h : l.scan findClass = .ok (t, l')) :
      Move findClass l none l'
  | skip {l n l'} (h : l.skipWhitespace n = .ok l') : Move findClass l none l'
  | quoted {l depth cs l'} (h : l.readQuoted depth bufferSize = .ok (cs, l')) :
      Move findClass l none l'
  | args {l b} : Move findClass l none { l with args := b }

/-! ### The count -/

variable {findClass : String → Option ClassId} {l l' : Lexer} {t : Token} {cs : List Char}

@[simp] theorem dispatched_nextChar (l : Lexer) : l.nextChar.dispatched = l.dispatched := by
  rw [nextChar]
  split <;> rfl

@[simp] theorem dispatched_advance (n : Nat) (l : Lexer) :
    (l.advance n).dispatched = l.dispatched := by
  induction n generalizing l with
  | zero => rfl
  | succ n ih => rw [advance, ih, dispatched_nextChar]

@[simp] theorem dispatched_trimmed (l : Lexer) : l.trimmed.dispatched = l.dispatched := by
  obtain ⟨k, hk⟩ := skipBlanks_eq_advance l.chars.length l
  rw [trimmed, hk, dispatched_advance]

theorem readWhile_dispatched {p : Bool → Lexer → Bool} {room : Nat} {i : Bool}
    (h : readWhile p room i l = .ok (cs, l')) : l'.dispatched = l.dispatched := by
  induction room generalizing i l cs with
  | zero =>
      rw [readWhile] at h
      split at h <;> cases h
      rfl
  | succ room ih =>
      rw [readWhile] at h
      split at h
      · obtain ⟨⟨cs', l₁⟩, hrun, h⟩ := result_bind_eq_ok.mp h
        cases h
        simpa using ih hrun
      · cases h
        rfl

theorem readNumber_dispatched {room : Nat} {whole whole' : Bool}
    (h : readNumber room whole l = .ok (whole', cs, l')) : l'.dispatched = l.dispatched := by
  induction room generalizing whole l cs with
  | zero =>
      rw [readNumber] at h
      split at h <;> cases h
      rfl
  | succ room ih =>
      rw [readNumber] at h
      split at h
      · obtain ⟨⟨w, cs', l₁⟩, hrun, h⟩ := result_bind_eq_ok.mp h
        cases h
        simpa using ih hrun
      · cases h
        rfl

theorem readIdentifier_dispatched {room : Nat} {ckw : Option (Trie Char Token.Kind)}
    {buf : List Char} (h : readIdentifier findClass room ckw buf l = .ok (t, l')) :
    l'.dispatched = l.dispatched := by
  induction room generalizing ckw buf l with
  | zero =>
      rw [readIdentifier] at h
      split at h
      · split at h
        · split at h <;> cases h
          simp
        · split at h
          · cases h
            rfl
          · split at h <;> cases h
            rfl
      · cases h
        rfl
  | succ room ih =>
      rw [readIdentifier] at h
      split at h
      · split at h
        · split at h
          · cases h
            simp
          · simpa using ih h
        · split at h
          · cases h
            rfl
          · split at h
            · cases h
              rfl
            · simpa using ih h
      · cases h
        rfl

theorem buffered_dispatched {k : Token.Kind} {n : Nat}
    (h : buffered k (l.advance n).readName = .ok (t, l')) : l'.dispatched = l.dispatched := by
  cases hrun : (l.advance n).readName with
  | error e =>
      rw [hrun] at h
      cases h
  | ok r =>
      rw [hrun] at h
      cases h
      simpa using readWhile_dispatched hrun

theorem scanHash_dispatched (h : l.scanHash = .ok (t, l')) : l'.dispatched = l.dispatched := by
  rw [scanHash] at h
  split at h
  · cases h
    simp
  · cases h
    simp
  · split at h
    · obtain ⟨⟨name, l₁⟩, hrun, h⟩ := result_bind_eq_ok.mp h
      dsimp only at h
      split at h <;> cases h
      simpa using readWhile_dispatched hrun
    · cases h
      simp

theorem scanWord_dispatched (h : l.scanWord findClass = .ok (t, l')) :
    l'.dispatched = l.dispatched := by
  rw [scanWord] at h
  dsimp only at h
  split at h
  · obtain ⟨⟨text, l₁⟩, hrun, h⟩ := result_bind_eq_ok.mp h
    cases h
    simpa using readWhile_dispatched hrun
  split at h
  · obtain ⟨⟨whole, text, l₁⟩, hrun, h⟩ := result_bind_eq_ok.mp h
    cases h
    simpa using readNumber_dispatched hrun
  split at h
  · exact readIdentifier_dispatched h
  · cases h
    rfl

/-- A token that is no parameter does not count. -/
theorem scanToken_dispatched (hat : l.atParameter = false)
    (h : l.scanToken findClass = .ok (t, l')) : l'.dispatched = l.dispatched := by
  have hno : ¬ (decide (l.peekChar = '$') && l.isDispatching) = true := by
    simpa [atParameter] using hat
  rw [scanToken] at h
  cases hp : punctuation l.peekChar with
  | some k =>
      rw [hp] at h
      cases h
      simp
  | none =>
      rw [hp] at h
      dsimp only at h
      rw [if_neg hno] at h
      split at h
      · rw [scanDot] at h
        split at h <;> cases h <;> simp
      split at h
      · exact scanHash_dispatched h
      split at h
      · cases h
        simp
      split at h
      · rw [scanComparison] at h
        split at h <;> cases h <;> simp
      split at h
      · rw [scanComparison] at h
        split at h <;> cases h <;> simp
      split at h
      · cases h
        rfl
      split at h
      · exact buffered_dispatched h
      split at h
      · exact buffered_dispatched h
      exact scanWord_dispatched h

/-- The identifier of a parameter, and how it counts. -/
theorem scanParameter_dispatched (h : l.scanParameter = .ok (t, l')) :
    (l.number = none ∧ t.text = "$" ++ toString l.dispatched ∧
      l'.dispatched = l.dispatched + 1) ∨
    ∃ ds, l.number = some ds ∧ t.text = .ofList ('$' :: ds) ∧
      l'.dispatched = max l.dispatched (atoi ds + 1) := by
  rw [scanParameter] at h
  by_cases hd : (l.peekChar 1).isDigit = true
  · rw [if_pos hd] at h
    obtain ⟨⟨ds, l₁⟩, hrun, h⟩ := result_bind_eq_ok.mp h
    cases h
    obtain ⟨hds, -, -⟩ := readWhile_eq_advance (q := fun c => isValidNumberChar c) rfl hrun
    have hcount := readWhile_dispatched hrun
    rw [dispatched_nextChar] at hcount
    right
    refine ⟨ds, ?_, rfl, by rw [hcount]⟩
    rw [number, if_pos hd, hds, chars_nextChar]
  · rw [if_neg hd] at h
    cases h
    left
    exact ⟨by rw [number, if_neg hd], rfl, rfl⟩

theorem scanToken_parameter (hat : l.atParameter = true) :
    l.scanToken findClass = l.scanParameter := by
  obtain ⟨hc, hd⟩ := Bool.and_eq_true_iff.mp hat
  have hc : l.peekChar = '$' := by simpa using hc
  rw [scanToken, hc, hd]
  rfl

theorem skipWhitespace_dispatched {n : Nat} (h : l.skipWhitespace n = .ok l') :
    l'.dispatched = l.dispatched := by
  induction n generalizing l with
  | zero => cases h
  | succ n ih =>
      rw [skipWhitespace] at h
      split at h
      · simpa using ih h
      · cases h
        rfl

theorem readQuoted_dispatched {depth : UInt64} {room : Nat}
    (h : l.readQuoted depth room = .ok (cs, l')) : l'.dispatched = l.dispatched := by
  induction room generalizing l cs with
  | zero => cases h
  | succ room ih =>
      rw [readQuoted] at h
      split at h
      · cases h
        simp
      · obtain ⟨⟨cs', l₁⟩, hrun, h⟩ := result_bind_eq_ok.mp h
        cases h
        simpa using ih hrun

/-- A step without a parameter does not count. -/
theorem dispatched_move_none (h : Move findClass l none l') : l'.dispatched = l.dispatched := by
  cases h with
  | token hat h => simpa using scanToken_dispatched hat h
  | skip h => exact skipWhitespace_dispatched h
  | quoted h => exact readQuoted_dispatched h
  | args => rfl

/-- A step with a parameter counts it. -/
theorem dispatched_move_some {u : ParameterUse} (h : Move findClass l (some u) l') :
    u.Counts l.dispatched l'.dispatched := by
  cases h with
  | parameter hat h =>
      rw [scan_eq, scanToken_parameter hat] at h
      rw [ParameterUse.Counts, ← dispatched_trimmed l]
      rcases scanParameter_dispatched h with ⟨hn, hcount⟩ | ⟨ds, hn, hcount⟩
      · simpa only [hn] using hcount
      · simpa only [hn] using hcount

/-! ### Numbers as the lambda writes them -/

theorem name_toDigits (k : Nat) : String.ofList ('$' :: Nat.toDigits 10 k) = "$" ++ toString k := by
  apply String.toList_injective
  simp

theorem atoi_toDigits {k : Nat} (h : k < 2 ^ 31) : atoi (Nat.toDigits 10 k) = k := by
  have hlong : k < 2 ^ 63 := by omega
  calc atoi (Nat.toDigits 10 k)
      = (Int.ofNat (atol (Nat.toDigits 10 k))).bmod (2 ^ 32) := rfl
    _ = (k : Int).bmod (2 ^ 32) := by rw [atol_toDigits hlong, Int.ofNat_eq_natCast]
    _ = k := Int.bmod_eq_of_le (by omega) (by omega)

/-- The count does not go down. -/
theorem ParameterUse.Counts.le {u : ParameterUse} {m n : Int} (h : u.Counts m n) : m ≤ n := by
  rw [Counts] at h
  rcases hn : u.number with - | ds
  · rw [hn] at h
    rw [h.2]
    exact Int.le_add_one le_rfl
  · rw [hn] at h
    rw [h.2]
    exact Int.le_max_left _ _

/-- A parameter that is written as it is declared gets the name of an index below the count. -/
theorem ParameterUse.Canonical.named {u : ParameterUse} {m n : Int} (hu : u.Canonical)
    (h : u.Counts m n) (hm : 0 ≤ m) :
    ∃ i : Nat, u.name = "$" ++ toString i ∧ i < n ∧ (n = m ∨ n = i + 1) := by
  rw [Counts] at h
  rcases hn : u.number with - | ds
  · rw [hn] at h
    obtain ⟨hname, rfl⟩ := h
    obtain ⟨i, rfl⟩ := Int.eq_ofNat_of_zero_le hm
    exact ⟨i, hname, Int.lt_succ _, .inr rfl⟩
  · rw [hn] at h
    obtain ⟨hname, hcount⟩ := h
    obtain ⟨k, hk, rfl⟩ := hu ds hn
    have hint : k < 2 ^ 31 := by omega
    rw [hcount, atoi_toDigits hint]
    refine ⟨k, hname.trans (name_toDigits k), ?_, ?_⟩
    · exact lt_of_lt_of_le (Int.lt_succ _) (Int.le_max_right _ _)
    · exact (max_choice m (k + 1)).imp id id

/-- **The count along a run** that only reads such parameters. -/
theorem run_canonical {as : List (Option ParameterUse)} (h : Runs.Run (Move findClass) as l l')
    (hl : 0 ≤ l.dispatched) (hc : ∀ u ∈ as.reduceOption, u.Canonical) :
    l.dispatched ≤ l'.dispatched ∧
      (∀ u ∈ as.reduceOption, ∃ i : Nat, u.name = "$" ++ toString i ∧ i < l'.dispatched) ∧
      (l'.dispatched = l.dispatched ∨
        ∃ u ∈ as.reduceOption, ∃ i : Nat, u.name = "$" ++ toString i ∧ l'.dispatched = i + 1) := by
  induction h with
  | refl => exact ⟨le_rfl, by simp [List.reduceOption_nil], .inl rfl⟩
  | @head a as l m l' hstep _ ih =>
      rcases a with - | u
      · rw [List.reduceOption_cons_of_none] at hc ⊢
        have hm := dispatched_move_none hstep
        rw [← hm]
        exact ih (hm ▸ hl) hc
      · rw [List.reduceOption_cons_of_some] at hc ⊢
        obtain ⟨i, hname, hi, hm⟩ :=
          (hc u List.mem_cons_self).named (dispatched_move_some hstep) hl
        have hlm : l.dispatched ≤ m.dispatched := (dispatched_move_some hstep).le
        obtain ⟨hle, heach, hlast⟩ := ih (hl.trans hlm) fun v hv => hc v (List.mem_cons_of_mem u hv)
        refine ⟨hlm.trans hle, ?_, ?_⟩
        · rintro v (_ | ⟨_, hv⟩)
          · exact ⟨i, hname, lt_of_lt_of_le hi hle⟩
          · exact heach v hv
        · rcases hlast with hsame | ⟨v, hv, hlast⟩
          · rcases hm with hm | hm
            · exact .inl (hsame.trans hm)
            · exact .inr ⟨u, List.mem_cons_self, i, hname, hsame.trans hm⟩
          · exact .inr ⟨v, List.mem_cons_of_mem u hv, hlast⟩

/-- The identifier of a numbered parameter is its text. -/
theorem run_numbered {as : List (Option ParameterUse)} (h : Runs.Run (Move findClass) as l l')
    {u : ParameterUse} (hu : u ∈ as.reduceOption) {ds : List Char} (hn : u.number = some ds) :
    u.name = .ofList ('$' :: ds) := by
  induction h with
  | refl => cases hu
  | @head a as l m l' hstep _ ih =>
      rcases a with - | v
      · exact ih (by simpa using hu)
      · rw [List.reduceOption_cons_of_some] at hu
        rcases hu with _ | ⟨_, hu⟩
        · have hcount := dispatched_move_some hstep
          rw [ParameterUse.Counts, hn] at hcount
          exact hcount.1
        · exact ih hu

theorem toDigits_of_name {ds : List Char} {i : Nat}
    (h : String.ofList ('$' :: ds) = "$" ++ toString i) : ds = Nat.toDigits 10 i := by
  rw [← name_toDigits] at h
  simpa using String.ofList_injective h

/-! ### Tokens of the body -/

/-- Among the parameters no dispatch literal begins: a `$` is a parameter even in front of a `(`. -/
theorem scan_body (h : l.scan findClass = .ok (t, l')) (hl : 0 ≤ l.dispatched) :
    t.kind ≠ .dispatch ∧ 0 ≤ l'.dispatched ∧ ∃ a, Move findClass l a l' := by
  have hkind : t.kind ≠ .dispatch := by
    rw [scan_eq] at h
    rcases scanToken_depth h with ⟨-, hk, -⟩ | ⟨-, hk, -⟩ | ⟨hat, -⟩ | ⟨-, hplain⟩
    · simp [hk]
    · simp [hk]
    · simp [atDispatch, isDispatching, hl] at hat
    · intro hk
      exact hplain.kind (by simp [hk])
  cases hat : l.trimmed.atParameter with
  | true =>
      have hmove := Move.parameter hat h
      exact ⟨hkind, hl.trans (dispatched_move_some hmove).le, _, hmove⟩
  | false =>
      have hmove := Move.token hat h
      exact ⟨hkind, (dispatched_move_none hmove).symm ▸ hl, _, hmove⟩

end Lexer

namespace Parser

/-! ### The body -/

/-- The parser is in the body of a dispatch literal, and looks at no other. -/
structure InBody (p : Parser) : Prop where
  dispatching : 0 ≤ p.lexer.dispatched
  peeked : ∀ t, p.peek = some t → t.kind ≠ .dispatch

/-- In the body, the lexer goes from one state to the other by its steps. -/
def Follows (findClass : String → Option ClassId) (p q : Parser) : Prop :=
  InBody p → InBody q ∧ ∃ as, Runs.Run (Lexer.Move findClass) as p.lexer q.lexer

variable {findClass : String → Option ClassId} {reg : Registry} {p q r : Parser} {n k : Nat}

theorem Follows.of_eq (hlexer : q.lexer = p.lexer) (hpeek : q.peek = p.peek) :
    Follows findClass p q := by
  rintro ⟨hd, hp⟩
  refine ⟨⟨hlexer ▸ hd, hpeek ▸ hp⟩, [], ?_⟩
  rw [hlexer]
  exact .refl _

instance : IsPreorder Parser (Follows findClass) where
  refl _ := .of_eq rfl rfl
  trans p q r h h' hp := by
    obtain ⟨hq, as, has⟩ := h hp
    obtain ⟨hr, bs, hbs⟩ := h' hq
    exact ⟨hr, as ++ bs, has.trans hbs⟩

instance : Framed (Follows findClass) where
  still h := .of_eq h.lexer h.peek
  pop {p q r u} h hpop hp := by
    obtain ⟨s, -, rfl⟩ := popScope_eq_ok hpop
    obtain ⟨⟨hd, hq⟩, as, has⟩ := h ⟨hp.dispatching, hp.peeked⟩
    exact ⟨⟨hd, hq⟩, as, has⟩

theorem follows_scan {t : Token} {l : Lexer} (h : p.lexer.scan findClass = .ok (t, l))
    (hlexer : q.lexer = l) (hpeek : ∀ t', q.peek = some t' → t' = t) : Follows findClass p q := by
  intro hp
  obtain ⟨hk, hd, a, ha⟩ := Lexer.scan_body h hp.dispatching
  subst hlexer
  refine ⟨⟨hd, fun t' ht' => ?_⟩, [a], .single ha⟩
  rw [hpeek t' ht']
  exact hk

instance : Lexical reg (Follows reg.findClass) where
  next p t q h := by
    rcases nextToken_eq_ok h with ⟨-, rfl⟩ | ⟨hpeek, l, hs, rfl⟩
    · intro hp
      exact ⟨⟨hp.dispatching, nofun⟩, [], .refl _⟩
    · exact follows_scan hs rfl (by simp [hpeek])
  peek p t q h := by
    rcases peekToken_eq_ok h with ⟨-, rfl⟩ | ⟨-, l, hs, rfl⟩
    · exact refl_of (Follows reg.findClass) _
    · refine follows_scan hs rfl fun t' ht' => ?_
      by_cases hinv : t.kind = .invalid
      · simp [hinv] at ht'
      · simpa [hinv] using ht'.symm
  quoted {p n l depth text l'} hskip hread hp := by
    have hcount := Lexer.readQuoted_dispatched hread
    rw [Lexer.skipWhitespace_dispatched hskip] at hcount
    exact ⟨⟨hcount.symm ▸ hp.dispatching, hp.peeked⟩, [none, none], .head (.skip hskip)
      (.single (.quoted hread))⟩
  args _ := .modify fun p hp => ⟨⟨hp.dispatching, hp.peeked⟩, [none], .single .args⟩

theorem peekKind_body {kind : Token.Kind} (hp : InBody p)
    (h : peekKind reg p = .ok (kind, q)) : kind ≠ .dispatch := by
  obtain ⟨t, ht, rfl⟩ := peekKind_eq_ok h
  rcases peekToken_eq_ok ht with ⟨hpeek, -⟩ | ⟨-, l, hs, -⟩
  · exact hp.peeked t hpeek
  · exact (Lexer.scan_body hs hp.dispatching).1

/-- No literal of the body is a dispatch literal. -/
instance : Tracks reg (Follows reg.findClass) where
  literal {expr n} hexpr p e q h hp := by
    obtain ⟨kind, p₁, hk, h⟩ := bind_eq_ok.mp h
    have hne := peekKind_body hp hk
    have hrest : Steps (Follows reg.findClass) (do
        if kind = .fn ∨ kind = .dispatch then parseLiteralLambda reg expr n kind
        else if kind = .lBrace then parseMap reg expr n
        else return .literal (← parseLiteralValue reg)) := by
      split
      · exact parseLiteralLambda_steps hexpr n hne
      · split
        · exact parseMap_steps hexpr n
        · exact .bind parseLiteralValue_steps fun _ => .pure _
    have hkind : Follows reg.findClass p p₁ := peekKind_steps hk
    exact trans_of (Follows reg.findClass) hkind (hrest h) hp

theorem parseExpression_body (k : Nat) : Steps (Follows reg.findClass) (parseExpression reg k) :=
  parseExpression_steps k

/-- A list ends at a token that is looked at. -/
theorem parseUntil_peeked {α : Type} {stop : Token.Kind → Bool} {item : Parse α} {xs : List α}
    (hstop : stop .invalid = false) (h : parseUntil reg stop item n p = .ok (xs, q)) :
    ∃ t, q.peek = some t := by
  induction n generalizing p xs with
  | zero => cases h
  | succ n ih =>
      obtain ⟨kind, p₁, hk, h⟩ := bind_eq_ok.mp h
      cases hs : stop kind with
      | false =>
          simp only [hs, Bool.false_eq_true, if_false] at h
          obtain ⟨x, p₂, -, h⟩ := bind_eq_ok.mp h
          obtain ⟨xs', p₃, h, hret⟩ := bind_eq_ok.mp h
          cases hret
          exact ih h
      | true =>
          simp only [hs, if_true] at h
          cases h
          obtain ⟨t, ht, rfl⟩ := peekKind_eq_ok hk
          rcases peekToken_eq_ok ht with ⟨hpeek, rfl⟩ | ⟨-, l, -, rfl⟩
          · exact ⟨t, hpeek⟩
          · refine ⟨t, if_neg ?_⟩
            rintro hinv
            rw [hinv, hstop] at hs
            cases hs

theorem parseExpressionList_peeked {expr : ParseExpr} {es : List Expr}
    (h : parseExpressionList reg expr n true p = .ok (es, q)) : ∃ t, q.peek = some t := by
  obtain ⟨s, p₁, -, h⟩ := bind_eq_ok.mp h
  obtain ⟨xs, p₂, huntil, h⟩ := bind_eq_ok.mp h
  obtain ⟨u, p₃, hpop, h⟩ := bind_eq_ok.mp h
  cases h
  obtain ⟨t, ht⟩ := parseUntil_peeked rfl huntil
  obtain ⟨s', -, rfl⟩ := popScope_eq_ok hpop
  exact ⟨t, ht⟩

/-! ### What is declared -/

/-- No token has been read. -/
structure Unread (p q : Parser) : Prop where
  lexer : q.lexer = p.lexer
  peek : q.peek = p.peek

instance : IsPreorder Parser Unread where
  refl _ := ⟨rfl, rfl⟩
  trans _ _ _ h h' := ⟨h'.lexer.trans h.lexer, h'.peek.trans h.peek⟩

instance : Framed Unread where
  still h := ⟨h.lexer, h.peek⟩
  pop h hpop := by
    obtain ⟨s, -, rfl⟩ := popScope_eq_ok hpop
    exact ⟨h.lexer, h.peek⟩

theorem popScope_unread : Steps Unread popScope := by
  intro p u q h
  obtain ⟨s, -, rfl⟩ := popScope_eq_ok h
  exact ⟨rfl, rfl⟩

/-- No lambda is gone. -/
def Grows (p q : Parser) : Prop := p.lambdas.length ≤ q.lambdas.length

instance : IsPreorder Parser Grows where
  refl _ := Nat.le_refl _
  trans _ _ _ := Nat.le_trans

instance : Framed Grows where
  still h := h.lambdas
  pop h hpop := by
    obtain ⟨s, -, rfl⟩ := popScope_eq_ok hpop
    exact h

instance : Blind Grows where
  blind _ _ h := (congrArg List.length h).ge

theorem bindParameters_eq_ok {s : ScopeId} {args : List Argument}
    (h : bindParameters s k p = .ok (args, q)) :
    k < 2 ^ 31 ∧ args = (List.range k).map fun i => { name := "$" ++ toString i } := by
  rw [bindParameters] at h
  split at h
  · rename_i hk
    refine ⟨hk, ?_⟩
    generalize List.range k = is at h ⊢
    induction is generalizing p args with
    | nil =>
        rw [List.mapM_nil] at h
        cases h
        rfl
    | cons i is ih =>
        rw [List.mapM_cons] at h
        obtain ⟨a, p₁, ha, h⟩ := bind_eq_ok.mp h
        obtain ⟨as, p₂, has, h⟩ := bind_eq_ok.mp h
        cases h
        obtain ⟨l, p₃, -, ha⟩ := bind_eq_ok.mp ha
        obtain ⟨u, p₄, -, ha⟩ := bind_eq_ok.mp ha
        cases ha
        rw [List.map_cons, ih has]
  · cases h

/-- The token that is looked at is taken. -/
theorem expectNext_some {t t' : Token} {kind : Token.Kind} (hp : p.peek = some t)
    (h : expectNext reg kind p = .ok (t', q)) :
    q.peek = none ∧ q.lexer = p.lexer ∧ q.lambdas = p.lambdas := by
  obtain ⟨t₁, p₁, hnext, h⟩ := bind_eq_ok.mp h
  rw [nextToken_some hp] at hnext
  cases hnext
  split at h <;> cases h <;> exact ⟨rfl, rfl, rfl⟩

/-- The lexer reads `as` from behind the opening `$(` at `p` to behind the body, whose end `r` is. -/
def BodyRun (findClass : String → Option ClassId) (p r : Parser) (m : Nat)
    (as : List (Option Lexer.ParameterUse)) : Prop :=
  Runs.Run (Lexer.Move findClass) as { p.lexer with dispatched := 0 }
    { r.lexer with dispatched := m }

theorem setDispatched_eq_ok {m : Int} {u : Unit} (h : setDispatched m p = .ok (u, q)) :
    q.lexer = { p.lexer with dispatched := m } ∧ q.peek = p.peek ∧ q.lambdas = p.lambdas := by
  cases h
  exact ⟨rfl, rfl, rfl⟩

/-- The parts of a dispatch literal in front of its body. -/
theorem opened_eq_ok {p₁ p₂ p₃ p₄ p₅ p₆ : Parser} {id s l : Nat} {t : Token}
    (hp : p.peek = some ⟨.dispatch, ""⟩) (hnew : newLambda p = .ok (id, p₁))
    (hpush : pushScope p₁ = .ok (s, p₂)) (hopen : expectNext reg .dispatch p₂ = .ok (t, p₃))
    (hset : setDispatched 0 p₃ = .ok ((), p₄)) {value : Option Value}
    (hlocal : newLocal s "this" value p₄ = .ok (l, p₅)) (hadd : addLocal s l p₅ = .ok ((), p₆)) :
    p₆.lexer = { p.lexer with dispatched := 0 } ∧ p₆.peek = none ∧ id < p₆.lambdas.length := by
  have hfirst : Unread p p₁ := newLambda_steps hnew
  have hid : id < p₁.lambdas.length := by
    cases hnew
    simp
  have hsecond : p₂.lexer = p₁.lexer ∧ p₂.peek = p₁.peek ∧ p₂.lambdas = p₁.lambdas := by
    cases hpush
    exact ⟨rfl, rfl, rfl⟩
  obtain ⟨hlexer₂, hpeek₂, hlambdas₂⟩ := hsecond
  obtain ⟨hpeek₃, hlexer₃, hlambdas₃⟩ :=
    expectNext_some (hpeek₂.trans (hfirst.peek.trans hp)) hopen
  have hunread : Unread p₄ p₆ :=
    trans_of Unread (newLocal_steps s _ _ hlocal) (addLocal_steps s l hadd)
  have hgrows : Grows p₄ p₆ :=
    trans_of Grows (newLocal_steps s _ _ hlocal) (addLocal_steps s l hadd)
  obtain ⟨hlexer₄, hpeek₄, hlambdas₄⟩ := setDispatched_eq_ok hset
  refine ⟨?_, ?_, lt_of_lt_of_le ?_ hgrows⟩
  · rw [hunread.lexer, hlexer₄, hlexer₃, hlexer₂, hfirst.lexer]
  · rw [hunread.peek, hpeek₄, hpeek₃]
  · rwa [hlambdas₄, hlambdas₃, hlambdas₂]

/-- **The lambda of a dispatch literal has as many parameters as the lexer has counted.** -/
theorem parseDispatch_eq_ok {id : Nat} (hp : p.peek = some ⟨.dispatch, ""⟩)
    (h : parseDispatch reg (parseExpression reg k) n p = .ok (id, r)) :
    ∃ f, r.lambdas[id]? = some f ∧ f.args.length < 2 ^ 31 ∧
      f.args = ((List.range f.args.length).map fun i => { name := "$" ++ toString i }) ∧
      ∃ as, BodyRun reg.findClass p r f.args.length as := by
  obtain ⟨id', p₁, hnew, h⟩ := bind_eq_ok.mp h
  obtain ⟨s, p₂, hpush, h⟩ := bind_eq_ok.mp h
  obtain ⟨t, p₃, hopen, h⟩ := bind_eq_ok.mp h
  obtain ⟨u, p₄, hset, h⟩ := bind_eq_ok.mp h
  obtain ⟨this, p₅, hlocal, h⟩ := bind_eq_ok.mp h
  obtain ⟨u, p₆, hadd, h⟩ := bind_eq_ok.mp h
  obtain ⟨body, p₇, hbody, h⟩ := bind_eq_ok.mp h
  obtain ⟨p₇', p₇'', hget, h⟩ := bind_eq_ok.mp h
  cases hget
  obtain ⟨args, p₈, hbind, h⟩ := bind_eq_ok.mp h
  obtain ⟨u, p₉, hlambda, h⟩ := bind_eq_ok.mp h
  obtain ⟨u, p₁₀, hpop, h⟩ := bind_eq_ok.mp h
  obtain ⟨u, p₁₁, hclear, h⟩ := bind_eq_ok.mp h
  obtain ⟨t', p₁₂, hclose, h⟩ := bind_eq_ok.mp h
  cases h
  obtain ⟨hlexer₆, hpeek₆, hid⟩ := opened_eq_ok hp hnew hpush hopen hset hlocal hadd
  -- the body: the lexer moves on to a token that ends it
  have hin : InBody p₆ := ⟨by rw [hlexer₆], by simp [hpeek₆]⟩
  have hfollows : Follows reg.findClass p₆ p₇ :=
    parseExpressionList_steps (parseExpression_body k) n true hbody
  obtain ⟨hin₇, as, has⟩ := hfollows hin
  have hgrows : Grows p₆ p₇ := parseExpressionList_steps (parseExpression_steps k) n true hbody
  obtain ⟨t₇, hpeek₇⟩ := parseExpressionList_peeked hbody
  -- as many parameters are bound as have been counted
  obtain ⟨hk, hargs⟩ := bindParameters_eq_ok hbind
  have hunread : Unread p₇ p₁₀ := trans_of Unread (bindParameters_steps s _ hbind)
    (trans_of Unread (setLambda_steps id _ hlambda) (popScope_unread hpop))
  obtain ⟨hlexer₁₁, hpeek₁₁, hlambdas₁₁⟩ := setDispatched_eq_ok hclear
  obtain ⟨-, hlexer, hlambdas⟩ :=
    expectNext_some (hpeek₁₁.trans (hunread.peek.trans hpeek₇)) hclose
  have hid₈ : id < p₈.lambdas.length :=
    hid.trans_le (trans_of Grows hgrows (bindParameters_steps s _ hbind))
  have hset : p₁₀.lambdas = p₈.lambdas.set id { args, scope := some s, body } := by
    obtain ⟨s', -, rfl⟩ := popScope_eq_ok hpop
    cases hlambda
    rfl
  have hlength : args.length = p₇.lexer.dispatched.toNat := by rw [hargs]; simp
  have hend : { r.lexer with dispatched := (args.length : Int) } = p₇.lexer := by
    rw [hlexer, hlexer₁₁, hunread.lexer, hlength, Int.toNat_of_nonneg hin₇.dispatching]
  refine ⟨{ args, scope := some s, body }, ?_, hlength ▸ hk, ?_, as, ?_⟩
  · rw [hlambdas, hlambdas₁₁, hset, List.getElem?_set_self hid₈]
  · rw [hlength]
    exact hargs
  · rw [BodyRun, hend, ← hlexer₆]
    exact has

/-- The parameters `us` of the body and the ones that are declared: these are `$0`, `$1` … up to the
last that is used, and every identifier is the name of one. -/
structure Declares (us : List Lexer.ParameterUse) (args : List Argument) : Prop where
  named : args = (List.range args.length).map fun i => { name := "$" ++ toString i }
  each : ∀ u ∈ us, ∃ arg ∈ args, arg.name = u.name
  last : args ≠ [] → ∃ u ∈ us, u.name = "$" ++ toString (args.length - 1)

/-- **The parameters that are used are declared exactly when every number is written as the lambda
writes it**, in decimal digits without a leading zero or a point, and not above `2 ^ 31 - 2`. -/
theorem declares_iff {id : Nat} (hp : p.peek = some ⟨.dispatch, ""⟩)
    (h : parseLambda reg (parseExpression reg k) n .dispatch p = .ok (id, r)) :
    ∃ f, r.lambdas[id]? = some f ∧ (∃ as, BodyRun reg.findClass p r f.args.length as) ∧
      ∀ as, BodyRun reg.findClass p r f.args.length as →
        (Declares as.reduceOption f.args ↔ ∀ u ∈ as.reduceOption, u.Canonical) := by
  rw [parseLambda, if_pos rfl] at h
  obtain ⟨f, hf, hmax, hargs, hrun⟩ := parseDispatch_eq_ok hp h
  refine ⟨f, hf, hrun, fun as has => ⟨fun hdecl u hu ds hn => ?_, fun hc => ?_⟩⟩
  · obtain ⟨arg, harg, hname⟩ := hdecl.each u hu
    rw [hargs] at harg
    obtain ⟨i, hi, rfl⟩ := List.mem_map.mp harg
    rw [Lexer.run_numbered has hu hn] at hname
    have hle : i + 1 ≤ f.args.length := List.mem_range.mp hi
    exact ⟨i, hle.trans_lt hmax, Lexer.toDigits_of_name hname.symm⟩
  · obtain ⟨-, heach, hlast⟩ := Lexer.run_canonical has le_rfl hc
    refine ⟨hargs, fun u hu => ?_, fun hne => ?_⟩
    · obtain ⟨i, hname, hi⟩ := heach u hu
      rw [hargs, hname]
      exact ⟨_, List.mem_map.mpr ⟨i, List.mem_range.mpr (Int.ofNat_lt.mp hi), rfl⟩, rfl⟩
    · rcases hlast with hzero | ⟨u, hu, i, hname, hi⟩
      · exact absurd (List.length_eq_zero_iff.mp (Int.ofNat_eq_zero.mp hzero)) hne
      · refine ⟨u, hu, ?_⟩
        have hi : f.args.length = i + 1 := Int.ofNat_inj.mp hi
        rw [hname, hi, Nat.add_sub_cancel]

/-- A parser that is at a dispatch literal with the given body. -/
def atDispatch (body : List Char) : Parser :=
  { lexer := { chars := body ++ [')'], depth := 1 }, peek := some ⟨.dispatch, ""⟩ }

/-- `$($1 $)`. -/
theorem declares_iff_mixed : ∃ id r,
    parseLambda {} (parseExpression {} 1) 3 .dispatch (atDispatch ['$', '1', ' ', '$']) =
      .ok (id, r) ∧
    ∃ f, r.lambdas[id]? = some f ∧
      (∃ as, BodyRun (fun _ => none) (atDispatch ['$', '1', ' ', '$']) r f.args.length as) ∧
      ∀ as, BodyRun (fun _ => none) (atDispatch ['$', '1', ' ', '$']) r f.args.length as →
        (Declares as.reduceOption f.args ↔ ∀ u ∈ as.reduceOption, u.Canonical) := by
  have hok : (parseLambda {} (parseExpression {} 1) 3 .dispatch
      (atDispatch ['$', '1', ' ', '$'])).isOk = true := by decide +kernel
  rcases h : parseLambda {} (parseExpression {} 1) 3 .dispatch
      (atDispatch ['$', '1', ' ', '$']) with e | ⟨id, r⟩
  · rw [h] at hok
    cases hok
  · exact ⟨id, r, rfl, declares_iff rfl h⟩

/-- `$($01)` has the parameters `$0` and `$1`, and its body the identifier `$01`. -/
theorem not_declares_leadingZero : ∃ id r f as,
    parseLambda {} (parseExpression {} 1) 2 .dispatch (atDispatch ['$', '0', '1']) = .ok (id, r) ∧
    r.lambdas[id]? = some f ∧
    BodyRun (fun _ => none) (atDispatch ['$', '0', '1']) r f.args.length as ∧
    ¬ Declares as.reduceOption f.args := by
  have hcheck : (match parseLambda {} (parseExpression {} 1) 2 .dispatch
        (atDispatch ['$', '0', '1']) with
      | .ok (id, r) => decide (r.lexer = { chars := [] } ∧
          r.lambdas[id]?.map Lambda.args = some [{ name := "$0" }, { name := "$1" }])
      | .error _ => false) = true := by decide +kernel
  rcases h : parseLambda {} (parseExpression {} 1) 2 .dispatch
      (atDispatch ['$', '0', '1']) with e | ⟨id, r⟩
  · rw [h] at hcheck
    cases hcheck
  · rw [h] at hcheck
    obtain ⟨hlexer, hargs⟩ := of_decide_eq_true hcheck
    obtain ⟨f, hf, hargs⟩ := Option.map_eq_some_iff.mp hargs
    refine ⟨id, r, f, [some ⟨some ['0', '1'], "$01"⟩, none], rfl, hf, ?_, fun hdecl => ?_⟩
    · have hfirst : Lexer.Move (fun _ => none)
          { chars := ['$', '0', '1', ')'], depth := 1, dispatched := 0 }
          (some ⟨some ['0', '1'], "$01"⟩) { chars := [')'], depth := 1, dispatched := 2 } :=
        .parameter (t := ⟨.identifier, "$01"⟩) rfl (by decide +kernel)
      have hsecond : Lexer.Move (fun _ => none) { chars := [')'], depth := 1, dispatched := 2 } none
          { chars := [], depth := 0, dispatched := 2 } := .token (t := ⟨.rParen, ""⟩) rfl rfl
      rw [BodyRun, hlexer, hargs]
      exact .head hfirst (.single hsecond)
    · obtain ⟨arg, harg, hname⟩ := hdecl.each ⟨some ['0', '1'], "$01"⟩ (by simp [List.reduceOption_nil])
      rw [hargs] at harg
      revert arg
      decide

end Parser

end Gel
