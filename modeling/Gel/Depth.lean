import Gel.Lexemes

/-!
# Depth — the counter of parentheses

`NextChar` counts the parentheses of every character it steps over, so the counter is that of the
characters (`level`) and not that of the tokens: white space, comments and string literals are
stepped over as well.

`Lexed`: what `NextToken` makes of a prefix of the input, in any order with changes of the flags the
parser sets.  `lexed_exact`: the counter is that of the tokens as long as every step `CountsTokens`.
-/

namespace Gel

open Faulting

/-- The tokens with an opening parenthesis. -/
def Token.opening (t : Token) : Bool := t.kind == .lParen || t.kind == .dispatch

def Token.closing (t : Token) : Bool := t.kind == .rParen

namespace Lexer

variable {findClass : String → Option ClassId} {l l' : Lexer} {c : Char} {cs : List Char} {t : Token}
  {ts : List Token} {d : UInt64}

/-- The counter behind a character. -/
def count (d : UInt64) (c : Char) : UInt64 :=
  if c = '(' then d + 1 else if c = ')' then d - 1 else d

/-- The counter behind some characters. -/
def level (d : UInt64) (cs : List Char) : UInt64 := cs.foldl count d

theorem level_append (d : UInt64) (cs cs' : List Char) :
    level d (cs ++ cs') = level (level d cs) cs' := List.foldl_append

theorem level_eq_add (d : UInt64) (cs : List Char) : level d cs = d + level 0 cs := by
  induction cs generalizing d with
  | nil => simp [level]
  | cons c cs ih =>
      change level (count d c) cs = d + level (count 0 c) cs
      rw [ih, ih (count 0 c)]
      simp only [count]
      split
      · simp [UInt64.add_assoc]
      · split <;> simp [UInt64.add_assoc, UInt64.sub_eq_add_neg]

theorem level_eq_self (h : ∀ c ∈ cs, c ≠ '(' ∧ c ≠ ')') : level d cs = d := by
  induction cs generalizing d with
  | nil => rfl
  | cons c cs ih =>
      obtain ⟨h₁, h₂⟩ := h c List.mem_cons_self
      change level (count d c) cs = d
      rw [count, if_neg h₁, if_neg h₂]
      exact ih fun c hc => h c (List.mem_cons_of_mem _ hc)

theorem depth_nextChar (l : Lexer) : l.nextChar.depth = level l.depth (l.chars.take 1) := by
  obtain ⟨chars, _, _, _⟩ := l
  cases chars <;> rfl

theorem chars_advance_eq (n : Nat) (l : Lexer) : (l.advance n).chars = l.chars.drop n := by
  induction n generalizing l with
  | zero => rfl
  | succ n ih => rw [advance, ih, chars_nextChar, List.drop_tail]

/-- What `Advance` does to the counter. -/
theorem depth_advance (n : Nat) (l : Lexer) :
    (l.advance n).depth = level l.depth (l.chars.take n) := by
  induction n generalizing l with
  | zero => rfl
  | succ n ih =>
      rw [advance, ih, depth_nextChar, chars_nextChar, ← level_append]
      cases l.chars <;> simp

theorem advance_advance (m n : Nat) (l : Lexer) : (l.advance m).advance n = l.advance (m + n) := by
  induction m generalizing l with
  | zero => rw [Nat.zero_add, advance]
  | succ m ih => rw [Nat.add_right_comm, advance, advance, ih]

/-! ### What `NextToken` steps over -/

/-- The white space and the comments in front of the next token. -/
def skipped (l : Lexer) : List Char :=
  l.chars.take (l.chars.length - l.trimmed.chars.length)

/-- The characters of the literal, when the next token is a string. -/
def literal (l : Lexer) : List Char :=
  if isDoubleQuote l.peekChar then l.chars.tail.takeWhile isValidStringCharacter else []

/-- At a dispatch literal. -/
def atDispatch (l : Lexer) : Bool :=
  l.peekChar == '$' && !l.isDispatching && l.peekChar 1 == '('

/-- The next token changes the counter as it should, and nothing else does. -/
structure CountsTokens (l : Lexer) : Prop where
  text : level 0 (l.skipped ++ l.trimmed.literal) = 0
  opening : l.trimmed.peekChar = '(' ∨ l.trimmed.atDispatch = true → l.depth + 1 ≠ 0
  closing : l.trimmed.peekChar = ')' → l.depth ≠ 0

/-- Blanks are stepped over by `Advance`. -/
theorem skipBlanks_eq_advance (n : Nat) (l : Lexer) : ∃ k, l.skipBlanks n = l.advance k := by
  induction n generalizing l with
  | zero => exact ⟨0, rfl⟩
  | succ n ih =>
      rw [skipBlanks]
      by_cases hw : l.peekChar ∈ ['\n', '\t', '\r', ' ']
      · obtain ⟨k, hk⟩ := ih l.nextChar
        exact ⟨k + 1, by rw [if_pos hw, hk, advance]⟩
      · by_cases hs : l.peekChar = ';'
        · obtain ⟨k, hk⟩ := ih (l.advanceUntil '\n')
          rw [if_neg hw, if_pos hs, hk, advanceUntil, advance_advance]
          exact ⟨_, rfl⟩
        · exact ⟨0, by rw [if_neg hw, if_neg hs, advance]⟩

theorem depth_trimmed (l : Lexer) : l.trimmed.depth = level l.depth l.skipped := by
  obtain ⟨k, hk⟩ := skipBlanks_eq_advance l.chars.length l
  have hk : l.trimmed = l.advance k := hk
  rw [skipped, hk, depth_advance, chars_advance_eq, List.length_drop, Nat.sub_sub_eq_min,
    Nat.min_comm, ← List.take_eq_take_min]

theorem exists_cons_of_peekChar (h : l.peekChar = c) (hc : c ≠ eof) : ∃ cs, l.chars = c :: cs := by
  cases hl : l.chars with
  | nil =>
      rw [peekChar_nil hl] at h
      exact absurd h.symm hc
  | cons d cs =>
      rw [peekChar_cons hl] at h
      exact ⟨cs, by rw [h]⟩

theorem depth_nextChar_of_ne (h₁ : l.peekChar ≠ '(') (h₂ : l.peekChar ≠ ')') :
    l.nextChar.depth = l.depth := by
  rw [depth_nextChar]
  cases hl : l.chars with
  | nil => rfl
  | cons c cs =>
      rw [peekChar_cons hl] at h₁ h₂
      exact level_eq_self (by simp [h₁, h₂])

theorem depth_advance_of_ne {n : Nat} (h : ∀ i < n, l.peekChar i ≠ '(' ∧ l.peekChar i ≠ ')') :
    (l.advance n).depth = l.depth := by
  rw [depth_advance]
  refine level_eq_self fun c hc => ?_
  obtain ⟨i, hi, rfl⟩ := List.mem_iff_getElem.mp hc
  rw [List.length_take, Nat.lt_min] at hi
  have hi' := h i hi.1
  rw [peekChar, List.getD_eq_getElem?_getD, List.getElem?_eq_getElem hi.2] at hi'
  rw [List.getElem_take]
  exact hi'

/-- A loop that stops at parentheses. -/
theorem readWhile_depth {p : Bool → Lexer → Bool} {room : Nat} {i : Bool}
    (hp : ∀ {i l}, p i l = true → l.peekChar ≠ '(' ∧ l.peekChar ≠ ')')
    (h : readWhile p room i l = .ok (cs, l')) : l'.depth = l.depth := by
  induction room generalizing i l cs with
  | zero =>
      rw [readWhile] at h
      split at h
      · cases h
      · cases h
        rfl
  | succ room ih =>
      rw [readWhile] at h
      split at h
      · rename_i hstep
        obtain ⟨h₁, h₂⟩ := hp hstep
        obtain ⟨⟨cs', l₁⟩, hrun, h⟩ := result_bind_eq_ok.mp h
        cases h
        rw [ih hrun, depth_nextChar_of_ne h₁ h₂]
      · cases h
        rfl

/-- A loop that looks at the current character only takes the longest run of its characters. -/
theorem readWhile_eq_advance {q : Char → Bool} {room : Nat} {i : Bool} (hq : q eof = false)
    (h : readWhile (fun _ l => q l.peekChar) room i l = .ok (cs, l')) :
    cs = l.chars.takeWhile q ∧ l' = l.advance cs.length ∧ q l'.peekChar = false := by
  have hstop {l : Lexer} (h : ¬ q l.peekChar = true) :
      [] = l.chars.takeWhile q ∧ l = l.advance 0 ∧ q l.peekChar = false := by
    refine ⟨?_, rfl, by simpa using h⟩
    cases hl : l.chars with
    | nil => rfl
    | cons c cs =>
        rw [peekChar_cons hl] at h
        rw [List.takeWhile_cons_of_neg h]
  induction room generalizing i l cs with
  | zero =>
      rw [readWhile] at h
      by_cases hc : q l.peekChar = true
      · rw [if_pos hc] at h
        cases h
      · rw [if_neg hc] at h
        cases h
        exact hstop hc
  | succ room ih =>
      rw [readWhile] at h
      by_cases hc : q l.peekChar = true
      · rw [if_pos hc] at h
        obtain ⟨⟨cs₁, l₁⟩, hrun, h⟩ := result_bind_eq_ok.mp h
        cases hl : l.chars with
        | nil =>
            rw [peekChar_nil hl, hq] at hc
            cases hc
        | cons c cs' =>
            cases h
            obtain ⟨h₁, h₂, h₃⟩ := ih hrun
            rw [nextChar_cons hl] at h₁
            rw [peekChar_cons hl] at hc
            rw [List.takeWhile_cons_of_pos hc, ← h₁, peekChar_cons hl]
            exact ⟨rfl, h₂, h₃⟩
      · rw [if_neg hc] at h
        cases h
        exact hstop hc

theorem ne_paren_of_name {i : Bool} (h : l.isValidIdentifierChar c i = true) :
    c ≠ '(' ∧ c ≠ ')' := by
  constructor
  · rintro rfl
    cases i <;> cases h
  · rintro rfl
    cases i <;> cases h

theorem ne_paren_of_number {whole : Bool} (h : isValidNumberChar c whole = true) :
    c ≠ '(' ∧ c ≠ ')' := by
  constructor
  · rintro rfl
    cases h
  · rintro rfl
    cases h

theorem readName_depth (h : l.readName = .ok (cs, l')) : l'.depth = l.depth :=
  readWhile_depth ne_paren_of_name h

theorem readNumber_depth {room : Nat} {whole whole' : Bool}
    (h : readNumber room whole l = .ok (whole', cs, l')) : l'.depth = l.depth := by
  induction room generalizing whole l cs with
  | zero =>
      rw [readNumber] at h
      split at h
      · cases h
      · cases h
        rfl
  | succ room ih =>
      rw [readNumber] at h
      split at h
      · rename_i hstep
        obtain ⟨h₁, h₂⟩ := ne_paren_of_number (Bool.and_eq_true_iff.mp hstep).1
        obtain ⟨⟨w, cs', l₁⟩, hrun, h⟩ := result_bind_eq_ok.mp h
        cases h
        rw [ih hrun, depth_nextChar_of_ne h₁ h₂]
      · cases h
        rfl

theorem readIdentifier_depth {room : Nat} {ckw : Option (Trie Char Token.Kind)} {buf : List Char}
    (h : readIdentifier findClass room ckw buf l = .ok (t, l')) : l'.depth = l.depth := by
  induction room generalizing ckw buf l with
  | zero =>
      rw [readIdentifier] at h
      split at h
      · rename_i hname
        obtain ⟨h₁, h₂⟩ := ne_paren_of_name hname
        split at h
        · split at h
          · cases h
            exact depth_nextChar_of_ne h₁ h₂
          · cases h
        · split at h
          · cases h
            rfl
          · split at h
            · cases h
              rfl
            · cases h
      · cases h
        rfl
  | succ room ih =>
      rw [readIdentifier] at h
      split at h
      · rename_i hname
        obtain ⟨h₁, h₂⟩ := ne_paren_of_name hname
        have hnext := depth_nextChar_of_ne h₁ h₂
        split at h
        · split at h
          · cases h
            exact hnext
          · rw [ih h, hnext]
        · split at h
          · cases h
            rfl
          · split at h
            · cases h
              rfl
            · rw [ih h, hnext]
      · cases h
        rfl

/-! ### What a token does to the counter -/

/-- A token without a parenthesis: it leaves the counter where its text does. -/
structure Plain (l : Lexer) (t : Token) (l' : Lexer) : Prop where
  kind : t.kind ∉ [.lParen, .rParen, .dispatch]
  depth : l'.depth = level l.depth l.literal

theorem literal_eq_nil (h : l.peekChar ≠ '"') : l.literal = [] :=
  if_neg (by simpa [isDoubleQuote] using h)

theorem plain_of_depth (hq : l.peekChar ≠ '"') (hk : t.kind ∉ [.lParen, .rParen, .dispatch])
    (hd : l'.depth = l.depth) : Plain l t l' :=
  ⟨hk, by rw [literal_eq_nil hq, hd]; rfl⟩

theorem scanWord_plain (h : l.scanWord findClass = .ok (t, l')) : Plain l t l' := by
  rw [scanWord] at h
  dsimp only at h
  by_cases hq : isDoubleQuote l.peekChar = true
  · rw [if_pos hq] at h
    obtain ⟨⟨text, l₁⟩, hrun, h⟩ := result_bind_eq_ok.mp h
    cases h
    obtain ⟨htext, hl₁, hstop⟩ := readWhile_eq_advance (q := isValidStringCharacter) rfl hrun
    -- the loop stops at the closing quote or at the end, neither of which is counted
    have hparen (c : Char) (hc : isValidStringCharacter c = true) : l₁.peekChar ≠ c := by
      rintro rfl
      rw [hc] at hstop
      cases hstop
    have hopen : l.peekChar ≠ '(' ∧ l.peekChar ≠ ')' := by
      have hc : l.peekChar = '"' := by simpa [isDoubleQuote] using hq
      rw [hc]
      decide
    have hchars : l.nextChar.chars = l.chars.tail := chars_nextChar l
    refine ⟨by simp, ?_⟩
    rw [depth_nextChar_of_ne (hparen _ (by decide)) (hparen _ (by decide)), hl₁, depth_advance,
      depth_nextChar_of_ne hopen.1 hopen.2, hchars, literal, if_pos hq, htext, hchars]
    congr 1
    rw [← List.prefix_iff_eq_take.mp (List.takeWhile_prefix _)]
  · have hne : l.peekChar ≠ '"' := by simpa [isDoubleQuote] using hq
    rw [if_neg hq] at h
    split at h
    · obtain ⟨⟨whole, text, l₁⟩, hrun, h⟩ := result_bind_eq_ok.mp h
      cases h
      exact plain_of_depth hne (by cases whole <;> simp) (readNumber_depth hrun)
    · split at h
      · exact plain_of_depth hne
          (readIdentifier_kind (P := (· ∉ [.lParen, .rParen, .dispatch])) (w := []) (by decide)
            (by decide) (by decide) h) (readIdentifier_depth h)
      · cases h
        exact plain_of_depth hne (by simp) rfl

/-- A token of one character. -/
theorem punctuation_plain {k : Token.Kind} (h : punctuation c = some k) (h₁ : c ≠ '(')
    (h₂ : c ≠ ')') : k ∉ [.lParen, .rParen, .dispatch] ∧ c ≠ '"' := by
  unfold punctuation at h
  split at h <;> first | exact absurd rfl h₁ | exact absurd rfl h₂ | (cases h; decide) | cases h

theorem scanDot_plain (hc : l.peekChar = '.') : Plain l l.scanDot.1 l.scanDot.2 := by
  have hq : l.peekChar ≠ '"' := by rw [hc]; decide
  rw [scanDot]
  split
  · rename_i h
    obtain ⟨h₁, h₂⟩ := Bool.and_eq_true_iff.mp h
    refine plain_of_depth hq (by cases l.args <;> simp) (depth_advance_of_ne fun i hi => ?_)
    obtain rfl | rfl | rfl : i = 0 ∨ i = 1 ∨ i = 2 := by omega
    · rw [hc]; decide
    · rw [of_decide_eq_true h₁]; decide
    · rw [of_decide_eq_true h₂]; decide
  · exact plain_of_depth hq (by simp)
      (depth_nextChar_of_ne (by rw [hc]; decide) (by rw [hc]; decide))

theorem scanComparison_plain {op orEqual : BinaryOp} (hc : l.peekChar = '<' ∨ l.peekChar = '>') :
    Plain l (l.scanComparison op orEqual).1 (l.scanComparison op orEqual).2 := by
  have hne : l.peekChar ≠ '"' ∧ l.peekChar ≠ '(' ∧ l.peekChar ≠ ')' := by
    rcases hc with hc | hc <;> rw [hc] <;> decide
  obtain ⟨hq, hparen⟩ := hne
  rw [scanComparison]
  split
  · rename_i h
    refine plain_of_depth hq (by simp) (depth_advance_of_ne fun i hi => ?_)
    obtain rfl | rfl : i = 0 ∨ i = 1 := by omega
    · exact hparen
    · rw [h]; decide
  · exact plain_of_depth hq (by simp) (depth_nextChar_of_ne hparen.1 hparen.2)

theorem scanHash_plain (hc : l.peekChar = '#') (h : l.scanHash = .ok (t, l')) : Plain l t l' := by
  have hq : l.peekChar ≠ '"' := by rw [hc]; decide
  have hnext : l.nextChar.depth = l.depth :=
    depth_nextChar_of_ne (by rw [hc]; decide) (by rw [hc]; decide)
  have hk : t.kind ∉ [.lParen, .rParen, .dispatch] := by
    have hmem := scanHash_kind h
    simp only [List.mem_cons, List.not_mem_nil, or_false] at hmem
    rcases hmem with hk | hk | hk | hk <;> rw [hk] <;> decide
  refine plain_of_depth hq hk ?_
  have hbool (d : Char) (h : (l.peekChar 1).toLower = d) (hd : d = 'f' ∨ d = 't') :
      (l.advance 2).depth = l.depth := by
    refine depth_advance_of_ne fun i hi => ?_
    match i, hi with
    | 0, _ => rw [hc]; decide
    | 1, _ =>
        constructor
        · intro hp
          rw [hp] at h
          rcases hd with rfl | rfl <;> exact absurd h (by decide)
        · intro hp
          rw [hp] at h
          rcases hd with rfl | rfl <;> exact absurd h (by decide)
  rw [scanHash] at h
  split at h
  · rename_i hf
    cases h
    exact hbool 'f' hf (.inl rfl)
  · rename_i ht
    cases h
    exact hbool 't' ht (.inr rfl)
  · split at h
    · obtain ⟨⟨name, l₁⟩, hrun, h⟩ := result_bind_eq_ok.mp h
      have hread : l₁.depth = l.depth := by
        rw [readWhile_depth (fun hp => ne_paren_of_name (Bool.and_eq_true_iff.mp hp).1) hrun, hnext]
      dsimp only at h
      split at h
      · rename_i hmark
        cases h
        rw [depth_nextChar_of_ne (by rw [hmark]; decide) (by rw [hmark]; decide), hread]
      · cases h
    · cases h
      exact hnext

theorem scanParameter_plain (hc : l.peekChar = '$') (h : l.scanParameter = .ok (t, l')) :
    Plain l t l' := by
  have hq : l.peekChar ≠ '"' := by rw [hc]; decide
  have hnext : l.nextChar.depth = l.depth :=
    depth_nextChar_of_ne (by rw [hc]; decide) (by rw [hc]; decide)
  have hk : t.kind ∉ [.lParen, .rParen, .dispatch] := by
    rw [scanParameter_kind h]
    decide
  refine plain_of_depth hq hk ?_
  rw [scanParameter] at h
  split at h
  · obtain ⟨⟨digits, l₁⟩, hrun, h⟩ := result_bind_eq_ok.mp h
    cases h
    exact (readWhile_depth ne_paren_of_number hrun).trans hnext
  · cases h
    exact hnext

/-- A name behind a prefix of `n` characters. -/
theorem buffered_plain {k : Token.Kind} {n : Nat} (hq : l.peekChar ≠ '"')
    (hk : k ∉ [.lParen, .rParen, .dispatch])
    (hn : ∀ i < n, l.peekChar i ≠ '(' ∧ l.peekChar i ≠ ')')
    (h : buffered k (l.advance n).readName = .ok (t, l')) : Plain l t l' := by
  refine plain_of_depth hq (by rwa [buffered_kind h]) ?_
  rw [← depth_advance_of_ne hn]
  cases hrun : (l.advance n).readName with
  | error e =>
      rw [hrun] at h
      cases h
  | ok r =>
      rw [hrun] at h
      cases h
      exact readName_depth hrun

/-- **What a token does to the counter.** -/
theorem scanToken_depth (h : l.scanToken findClass = .ok (t, l')) :
    l.peekChar = '(' ∧ t.kind = .lParen ∧ l'.depth = l.depth + 1 ∨
    l.peekChar = ')' ∧ t.kind = .rParen ∧ l'.depth = l.depth - 1 ∨
    l.atDispatch = true ∧ t.kind = .dispatch ∧ l'.depth = l.depth + 1 ∨
    (l.peekChar ≠ '(' ∧ l.peekChar ≠ ')' ∧ l.atDispatch = false) ∧ Plain l t l' := by
  have hstep {l : Lexer} {d : Char} (hd : l.peekChar = d) (hne : d ≠ eof) :
      l.nextChar.depth = count l.depth d := by
    obtain ⟨cs, hcs⟩ := exists_cons_of_peekChar hd hne
    rw [depth_nextChar, hcs]
    rfl
  have hdollar (d : Char) (hd : l.peekChar = d) (hne : d ≠ '$') : l.atDispatch = false := by
    rw [atDispatch, hd]
    simp [hne]
  rw [scanToken] at h
  by_cases hl : l.peekChar = '('
  · rw [hl] at h
    cases h
    exact .inl ⟨hl, rfl, hstep hl (by decide)⟩
  by_cases hr : l.peekChar = ')'
  · rw [hr] at h
    cases h
    exact .inr (.inl ⟨hr, rfl, hstep hr (by decide)⟩)
  refine .inr (.inr ?_)
  have hplain (hd : l.peekChar ≠ '$') (hp : Plain l t l') :
      l.atDispatch = true ∧ t.kind = .dispatch ∧ l'.depth = l.depth + 1 ∨
        (l.peekChar ≠ '(' ∧ l.peekChar ≠ ')' ∧ l.atDispatch = false) ∧ Plain l t l' :=
    .inr ⟨⟨hl, hr, hdollar _ rfl hd⟩, hp⟩
  cases hpunct : punctuation l.peekChar with
  | some k =>
      rw [hpunct] at h
      cases h
      obtain ⟨hk, hq⟩ := punctuation_plain hpunct hl hr
      have hd : l.peekChar ≠ '$' := by
        intro hd
        rw [hd] at hpunct
        cases hpunct
      exact hplain hd (plain_of_depth hq hk (depth_nextChar_of_ne hl hr))
  | none =>
      rw [hpunct] at h
      dsimp only at h
      by_cases hc : l.peekChar = '.'
      · rw [if_pos hc] at h
        have hdot := scanDot_plain hc
        rw [Except.ok.inj h] at hdot
        exact hplain (by rw [hc]; decide) hdot
      rw [if_neg hc] at h
      by_cases hc : l.peekChar = '#'
      · rw [if_pos hc] at h
        exact hplain (by rw [hc]; decide) (scanHash_plain hc h)
      rw [if_neg hc] at h
      by_cases hd₁ : (decide (l.peekChar = '$') && l.isDispatching) = true
      · obtain ⟨hd, hdisp⟩ := Bool.and_eq_true_iff.mp hd₁
        rw [if_pos hd₁] at h
        exact .inr ⟨⟨hl, hr, by simp [atDispatch, hdisp]⟩,
          scanParameter_plain (of_decide_eq_true hd) h⟩
      rw [if_neg hd₁] at h
      by_cases hd₂ : (decide (l.peekChar = '$') && decide (l.peekChar 1 = '(')) = true
      · rw [if_pos hd₂] at h
        rw [Bool.and_eq_true_iff, decide_eq_true_iff, decide_eq_true_iff] at hd₂
        obtain ⟨hd, hp⟩ := hd₂
        cases h
        refine .inl ⟨by simpa [atDispatch, hd, hp] using hd₁, rfl, ?_⟩
        obtain ⟨cs, hcs⟩ := exists_cons_of_peekChar hd (by decide)
        have hnext : l.nextChar.peekChar = '(' := by
          rw [peekChar_eq hcs] at hp
          rw [peekChar_eq (nextChar_cons hcs)]
          exact hp
        change l.nextChar.nextChar.depth = _
        rw [hstep hnext (by decide), depth_nextChar_of_ne hl hr]
        rfl
      have hat : l.atDispatch = false := by
        rw [Bool.and_eq_true_iff, decide_eq_true_iff] at hd₁ hd₂
        rw [decide_eq_true_iff] at hd₂
        rw [atDispatch]
        by_cases hd : l.peekChar = '$'
        · have hp : l.peekChar 1 ≠ '(' := fun hp => hd₂ ⟨hd, hp⟩
          simp [hp]
        · simp [hd]
      rw [if_neg hd₂] at h
      refine .inr ⟨⟨hl, hr, hat⟩, ?_⟩
      by_cases hc : l.peekChar = '<'
      · rw [if_pos hc] at h
        have hcomp := @scanComparison_plain l .lessThan .lessThanEqual (.inl hc)
        rwa [Except.ok.inj h] at hcomp
      rw [if_neg hc] at h
      by_cases hc : l.peekChar = '>'
      · rw [if_pos hc] at h
        have hcomp := @scanComparison_plain l .greaterThan .greaterThanEqual (.inr hc)
        rwa [Except.ok.inj h] at hcomp
      rw [if_neg hc] at h
      by_cases hc : l.peekChar = eof
      · rw [if_pos hc] at h
        cases h
        exact plain_of_depth (by rw [hc]; decide) (by simp) rfl
      rw [if_neg hc] at h
      split at h
      · rename_i hcast
        simp only [Bool.and_eq_true, decide_eq_true_eq] at hcast
        obtain ⟨⟨h₀, h₁⟩, h₂⟩ := hcast
        refine buffered_plain (by rw [h₀]; decide) (by decide) (fun i hi => ?_) h
        obtain rfl | rfl | rfl : i = 0 ∨ i = 1 ∨ i = 2 := by omega
        · rw [h₀]; decide
        · rw [h₁]; decide
        · rw [h₂]; decide
      split at h
      · rename_i hnew
        simp only [Bool.and_eq_true, decide_eq_true_eq] at hnew
        obtain ⟨⟨⟨h₀, h₁⟩, h₂⟩, h₃⟩ := hnew
        refine buffered_plain (by rw [h₀]; decide) (by decide) (fun i hi => ?_) h
        obtain rfl | rfl | rfl | rfl : i = 0 ∨ i = 1 ∨ i = 2 ∨ i = 3 := by omega
        · rw [h₀]; decide
        · rw [h₁]; decide
        · rw [h₂]; decide
        · rw [h₃]; decide
      exact scanWord_plain h

/-! ### Runs -/

/-- `NextToken` has made the tokens `ts` of a prefix of the input, and the rest is unread; before
each token the lexer met `P`.  Between tokens the parser sets its flags. -/
inductive Lexed (findClass : String → Option ClassId) (P : Lexer → Prop) (input : List Char) :
    List Token → Lexer → Prop where
  | start : Lexed findClass P input [] { chars := input }
  | flags {ts : List Token} {l : Lexer} (args : Bool) (dispatched : Int)
      (h : Lexed findClass P input ts l) : Lexed findClass P input ts { l with args, dispatched }
  | token {ts : List Token} {l l' : Lexer} {t : Token} (h : Lexed findClass P input ts l)
      (hP : P l) (hs : l.scan findClass = .ok (t, l')) : Lexed findClass P input (ts ++ [t]) l'

/-- The counter is the one of the tokens. -/
def Exact (ts : List Token) (l : Lexer) : Prop :=
  ts.countP Token.opening = ts.countP Token.closing + l.depth.toNat

instance (ts : List Token) (l : Lexer) : Decidable (Exact ts l) := inferInstanceAs (Decidable (_ = _))

theorem toNat_opening (d e : UInt64) :
    (d + e + 1).toNat = d.toNat + 1 ↔ e = 0 ∧ d + 1 ≠ 0 := by
  rw [← UInt64.toNat_inj, ne_eq, ← UInt64.toNat_inj]
  have hd := d.toNat_lt
  have he := e.toNat_lt
  simp only [UInt64.toNat_add, UInt64.toNat_ofNat]
  omega

theorem toNat_closing (d e : UInt64) :
    (d + e - 1).toNat + 1 = d.toNat ↔ e = 0 ∧ d ≠ 0 := by
  rw [← UInt64.toNat_inj, ne_eq, ← UInt64.toNat_inj]
  have hd := d.toNat_lt
  have he := e.toNat_lt
  simp only [UInt64.toNat_add, UInt64.toNat_sub, UInt64.toNat_ofNat]
  omega

theorem toNat_plain (d e : UInt64) : (d + e).toNat = d.toNat ↔ e = 0 := by
  rw [← UInt64.toNat_inj]
  have hd := d.toNat_lt
  have he := e.toNat_lt
  simp only [UInt64.toNat_add, UInt64.toNat_ofNat]
  omega

theorem level_text (l : Lexer) : level 0 (l.skipped ++ l.trimmed.literal) =
    level 0 l.skipped + level 0 l.trimmed.literal := by
  rw [level_append, level_eq_add]

/-- At a token that is no string only what is in front of it can count. -/
theorem level_text_eq (h : l.trimmed.peekChar ≠ '"') :
    level 0 (l.skipped ++ l.trimmed.literal) = level 0 l.skipped := by
  rw [literal_eq_nil h, List.append_nil]

theorem countsTokens_opening (h : l.trimmed.peekChar = '(' ∨ l.trimmed.atDispatch = true) :
    l.CountsTokens ↔ level 0 l.skipped = 0 ∧ l.depth + 1 ≠ 0 := by
  have hp : l.trimmed.peekChar = '(' ∨ l.trimmed.peekChar = '$' := by
    rcases h with h | h
    · exact .inl h
    · rw [atDispatch, Bool.and_eq_true, Bool.and_eq_true, beq_iff_eq] at h
      exact .inr h.1.1
  have hne : l.trimmed.peekChar ≠ '"' ∧ l.trimmed.peekChar ≠ ')' := by
    rcases hp with hp | hp <;> rw [hp] <;> decide
  constructor
  · rintro ⟨h₁, h₂, -⟩
    exact ⟨(level_text_eq hne.1).symm.trans h₁, h₂ h⟩
  · rintro ⟨h₁, h₂⟩
    exact ⟨(level_text_eq hne.1).trans h₁, fun _ => h₂, fun hc => absurd hc hne.2⟩

theorem countsTokens_closing (h : l.trimmed.peekChar = ')') :
    l.CountsTokens ↔ level 0 l.skipped = 0 ∧ l.depth ≠ 0 := by
  have hne : l.trimmed.peekChar ≠ '"' ∧ l.trimmed.peekChar ≠ '(' ∧
      l.trimmed.atDispatch = false := by
    rw [atDispatch, h]
    simp
  constructor
  · rintro ⟨h₁, -, h₂⟩
    exact ⟨(level_text_eq hne.1).symm.trans h₁, h₂ h⟩
  · rintro ⟨h₁, h₂⟩
    refine ⟨(level_text_eq hne.1).trans h₁, fun hc => ?_, fun _ => h₂⟩
    rcases hc with hc | hc
    · exact absurd hc hne.2.1
    · rw [hne.2.2] at hc
      cases hc

theorem countsTokens_plain (h₁ : l.trimmed.peekChar ≠ '(') (h₂ : l.trimmed.peekChar ≠ ')')
    (h₃ : l.trimmed.atDispatch = false) :
    l.CountsTokens ↔ level 0 (l.skipped ++ l.trimmed.literal) = 0 := by
  refine ⟨CountsTokens.text, fun h => ⟨h, fun hc => ?_, fun hc => absurd hc h₂⟩⟩
  rcases hc with hc | hc
  · exact absurd hc h₁
  · rw [h₃] at hc
    cases hc

/-- One token keeps the counter exact if it counts tokens, and only then. -/
theorem exact_token (h : Exact ts l) (hs : l.scan findClass = .ok (t, l')) :
    Exact (ts ++ [t]) l' ↔ l.CountsTokens := by
  have hskip : l.trimmed.depth = l.depth + level 0 l.skipped := by
    rw [depth_trimmed, level_eq_add]
  have hopening (hk : t.kind = .lParen ∨ t.kind = .dispatch) (hd : l'.depth = l.trimmed.depth + 1) :
      Exact (ts ++ [t]) l' ↔ (l.depth + level 0 l.skipped + 1).toNat = l.depth.toNat + 1 := by
    have hcount : [t].countP Token.opening = 1 ∧ [t].countP Token.closing = 0 := by
      rcases hk with hk | hk <;> simp [Token.opening, Token.closing, hk]
    rw [Exact, List.countP_append, List.countP_append, h, hcount.1, hcount.2, hd, hskip]
    omega
  rcases @scanToken_depth findClass l.trimmed l' t hs with ⟨hp, hk, hd⟩ | ⟨hp, hk, hd⟩ |
    ⟨hat, hk, hd⟩ | ⟨⟨hp₁, hp₂, hat⟩, hk, hd⟩
  · rw [hopening (.inl hk) hd, toNat_opening, countsTokens_opening (.inl hp)]
  · have hcount : [t].countP Token.opening = 0 ∧ [t].countP Token.closing = 1 := by
      simp [Token.opening, Token.closing, hk]
    rw [countsTokens_closing hp, ← toNat_closing, Exact, List.countP_append, List.countP_append, h,
      hcount.1, hcount.2, hd, hskip]
    omega
  · rw [hopening (.inr hk) hd, toNat_opening, countsTokens_opening (.inr hat)]
  · have hcount : [t].countP Token.opening = 0 ∧ [t].countP Token.closing = 0 := by
      simp only [List.mem_cons, List.not_mem_nil, or_false, not_or] at hk
      simp [Token.opening, Token.closing, hk.1, hk.2.1, hk.2.2]
    rw [countsTokens_plain hp₁ hp₂ hat, ← toNat_plain l.depth, Exact, List.countP_append,
      List.countP_append, h, hcount.1, hcount.2, hd, hskip, level_text, ← UInt64.add_assoc,
      level_eq_add]
    omega

/-- **Parenthesis depth.**  In every run whose steps count tokens, the counter is the number of
opening tokens less the number of closing ones. -/
theorem lexed_exact {input : List Char} (h : Lexed findClass CountsTokens input ts l) :
    Exact ts l := by
  induction h with
  | start => rfl
  | flags args dispatched _ ih => exact ih
  | token _ hcount hs ih => exact (exact_token ih hs).mpr hcount

theorem lexed_exact_sample :
    Exact [⟨.lParen, ""⟩, ⟨.rParen, ""⟩] ({ chars := [] } : Lexer) := by
  have hopen : Lexed (fun _ => none) CountsTokens "()".toList ([] ++ [⟨.lParen, ""⟩])
      { chars := [')'], depth := 1 } :=
    .token .start ⟨rfl, fun _ => by decide, fun hc => by cases hc⟩ rfl
  have hclose : Lexed (fun _ => none) CountsTokens "()".toList
      ([⟨.lParen, ""⟩] ++ [⟨.rParen, ""⟩]) { chars := [] } :=
    .token hopen ⟨rfl, fun _ => by decide, fun _ => by decide⟩ rfl
  exact lexed_exact hclose

/-- The parenthesis of a string literal counts. -/
theorem not_exact_string : ∃ ts l,
    Lexed (fun _ => none) (fun _ => True) "\"(\"".toList ts l ∧ ¬ Exact ts l := by
  have hrun : Lexed (fun _ => none) (fun _ => True) "\"(\"".toList
      ([] ++ [⟨.literalString, "("⟩]) { chars := [], depth := 1 } :=
    .token .start trivial rfl
  exact ⟨_, _, hrun, by decide⟩

end Lexer

end Gel
