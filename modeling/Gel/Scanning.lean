import Gel.Tokens
import Mathlib.Data.List.TakeWhile
import Mathlib.Data.Nat.Digits.Defs

/-!
# Scanning — the token a text starts with

Outside parameter lists and dispatch literals the token `NextToken` gives depends on the unread
characters alone.  `Scans f cs t rest`: at the characters `cs` the next token is `t`, and the
characters `rest` are unread behind it.  A word or a number ends at a blank, at a closing parenthesis
or with the input.
-/

namespace Gel

open Faulting

namespace Lexer

/-- The lexer is at the given characters, outside parameters and dispatch literals. -/
structure At (l : Lexer) (cs : List Char) : Prop where
  chars : l.chars = cs
  args : l.args = false
  dispatched : l.dispatched < 0

/-- The token the characters `cs` start with, and the characters behind it. -/
def Scans (findClass : String → Option ClassId) (cs : List Char) (t : Token) (rest : List Char) :
    Prop :=
  ∀ l : Lexer, l.At cs → ∃ l', l.scan findClass = .ok (t, l') ∧ l'.At rest

/-- What may follow a word: nothing, a blank or a closing parenthesis. -/
def Delimited : List Char → Prop
  | [] => True
  | c :: _ => c = ' ' ∨ c = ')'

variable {findClass : String → Option ClassId} {l : Lexer} {c : Char} {cs rest : List Char}
  {t : Token}

theorem At.next (h : l.At (c :: cs)) : l.nextChar.At cs := by
  obtain ⟨hc, ha, hd⟩ := h
  obtain ⟨chars, _, _, _⟩ := l
  subst hc
  exact ⟨rfl, ha, hd⟩

theorem At.peekChar (h : l.At (c :: cs)) : l.peekChar = c := by
  rw [Lexer.peekChar, h.chars]
  rfl

theorem At.peekChar_eq (h : l.At cs) (i : Nat) : l.peekChar i = cs.getD i eof := by
  rw [Lexer.peekChar, h.chars]

/-- A token that starts with a character which is no blank. -/
theorem scans_of_scanToken (hb : ¬ isBlank c)
    (h : ∀ l : Lexer, l.At (c :: cs) →
      ∃ l', l.scanToken findClass = .ok (t, l') ∧ l'.At rest) :
    Scans findClass (c :: cs) t rest := by
  intro l hl
  rw [scan_eq, trimmed, skipBlanks_of_not_blank (by rwa [hl.peekChar])]
  exact h l hl

/-- A space in front of a token. -/
theorem Scans.space (h : Scans findClass cs t rest) : Scans findClass (' ' :: cs) t rest := by
  intro l hl
  have hskip : l.trimmed = l.nextChar.trimmed := by
    rw [trimmed, trimmed, hl.chars, hl.next.chars, List.length_cons, skipBlanks, if_pos]
    rw [hl.peekChar]
    decide
  rw [scan_eq, hskip, ← scan_eq]
  exact h _ hl.next

theorem scans_punctuation {k : Token.Kind} (hb : ¬ isBlank c) (h : punctuation c = some k) :
    Scans findClass (c :: cs) ⟨k, ""⟩ cs := by
  refine scans_of_scanToken hb fun l hl => ⟨_, ?_, hl.next⟩
  rw [scanToken]
  simp only [hl.peekChar, h]

theorem not_blank_iff {c : Char} : ¬ isBlank c ↔ c ∉ ['\n', '\t', '\r', ' ', ';'] := by
  simp [isBlank, or_assoc]

theorem scans_lParen : Scans findClass ('(' :: cs) ⟨.lParen, ""⟩ cs :=
  scans_punctuation (not_blank_iff.mpr (by decide)) rfl

theorem scans_rParen : Scans findClass (')' :: cs) ⟨.rParen, ""⟩ cs :=
  scans_punctuation (not_blank_iff.mpr (by decide)) rfl

theorem scans_nil : Scans findClass [] ⟨.endOfStream, ""⟩ [] := by
  intro l hl
  have hp : l.peekChar = eof := peekChar_nil hl.chars
  refine ⟨l, ?_, hl⟩
  rw [scan_eq, trimmed, hl.chars, List.length_nil, skipBlanks, scanToken]
  simp only [hp]
  rfl

/-- The literals `#t` and `#f`. -/
theorem scans_bool (b : Bool) :
    Scans findClass ('#' :: (if b then 't' else 'f') :: cs)
      ⟨if b then .literalTrue else .literalFalse, ""⟩ cs := by
  refine scans_of_scanToken (not_blank_iff.mpr (by decide)) fun l hl => ⟨_, ?_, hl.next.next⟩
  have h₁ : l.peekChar 1 = if b then 't' else 'f' := hl.peekChar_eq 1
  rw [scanToken]
  simp only [hl.peekChar]
  change l.scanHash = _
  rw [scanHash, h₁]
  cases b <;> rfl

/-! ### Comparison operators -/

theorem scanToken_lessThan (hl : l.peekChar = '<') :
    l.scanToken findClass = .ok (l.scanComparison .lessThan .lessThanEqual) := by
  rw [scanToken]
  simp only [hl]
  rfl

theorem scanToken_greaterThan (hl : l.peekChar = '>') :
    l.scanToken findClass = .ok (l.scanComparison .greaterThan .greaterThanEqual) := by
  rw [scanToken]
  simp only [hl]
  rfl

/-- `<` or `>` in front of a space, and with a `=`. -/
theorem scans_comparison {op orEqual : BinaryOp} (hb : ¬ isBlank c)
    (h : ∀ {l : Lexer}, l.peekChar = c →
      l.scanToken findClass = .ok (l.scanComparison op orEqual)) :
    Scans findClass (c :: ' ' :: cs) ⟨.binaryOp op, ""⟩ (' ' :: cs) ∧
      Scans findClass (c :: '=' :: cs) ⟨.binaryOp orEqual, ""⟩ cs := by
  constructor
  · refine scans_of_scanToken hb fun l hl => ⟨_, ?_, hl.next⟩
    rw [h hl.peekChar, scanComparison, if_neg]
    rw [hl.peekChar_eq]
    change ¬ ' ' = '='
    decide
  · refine scans_of_scanToken hb fun l hl => ⟨_, ?_, hl.next.next⟩
    rw [h hl.peekChar, scanComparison, if_pos]
    · rfl
    · rw [hl.peekChar_eq]
      rfl

/-! ### Strings and numbers -/

theorem readWhile_stop {p : Bool → Lexer → Bool} {i : Bool} (h : p i l = false) (room : Nat) :
    readWhile p room i l = .ok ([], l) := by
  cases room <;> rw [readWhile, h] <;> rfl

theorem readNumber_stop {whole : Bool} (h : isValidNumberChar l.peekChar whole = false)
    (room : Nat) : readNumber room whole l = .ok (whole, [], l) := by
  cases room <;> rw [readNumber, h] <;> rfl

theorem readWhile_run {p : Bool → Lexer → Bool} {w : List Char}
    (hp : ∀ {i l c cs}, c ∈ w → l.At (c :: cs) → p i l = true)
    (hs : ∀ {i l}, l.At rest → p i l = false) {room : Nat} (hr : w.length ≤ room) (i : Bool)
    (hl : l.At (w ++ rest)) : ∃ l', readWhile p room i l = .ok (w, l') ∧ l'.At rest := by
  induction w generalizing room i l with
  | nil =>
      exact ⟨l, readWhile_stop (hs hl) room, hl⟩
  | cons c w ih =>
      obtain ⟨room, rfl⟩ := Nat.exists_eq_succ_of_ne_zero (Nat.ne_of_gt (Nat.lt_of_lt_of_le
        (Nat.succ_pos _) hr))
      obtain ⟨l', hrun, hl'⟩ := ih (fun hc => hp (List.mem_cons_of_mem _ hc))
        (Nat.le_of_succ_le_succ hr) false hl.next
      refine ⟨l', ?_, hl'⟩
      rw [readWhile, hp List.mem_cons_self hl, if_pos rfl]
      dsimp only
      rw [hrun, hl.peekChar]
      rfl

/-- What `scanToken` does at a character that none of its cases begins with. -/
theorem scanToken_word (hp : punctuation l.peekChar = none)
    (hc : l.peekChar ∉ ['.', '#', '$', '<', '>', eof, ':'])
    (hn : ¬ (l.peekChar = 'n' ∧ l.peekChar 1 = 'e' ∧ l.peekChar 2 = 'w' ∧ l.peekChar 3 = ':')) :
    l.scanToken findClass = l.scanWord findClass := by
  simp only [List.mem_cons, List.not_mem_nil, or_false, not_or] at hc
  obtain ⟨h₁, h₂, h₃, h₄, h₅, h₆, h₇⟩ := hc
  rw [scanToken]
  simp only [hp, h₁, h₂, h₃, h₄, h₅, h₆, h₇, decide_false, Bool.false_and, Bool.false_eq_true,
    if_false]
  rw [if_neg (by simpa [and_assoc] using hn)]

theorem scans_string {w : List Char} (hw : ∀ c ∈ w, c ≠ '"' ∧ c ≠ eof)
    (hlen : w.length ≤ bufferSize) :
    Scans findClass ('"' :: (w ++ '"' :: rest)) ⟨.literalString, .ofList w⟩ rest := by
  refine scans_of_scanToken (not_blank_iff.mpr (by decide)) fun l hl => ?_
  rw [scanToken_word (by rw [hl.peekChar]; rfl) (by rw [hl.peekChar]; decide)
    (by rw [hl.peekChar]; simp)]
  have hnext : l.nextChar.At (w ++ '"' :: rest) := hl.next
  obtain ⟨l', hrun, hl'⟩ := readWhile_run (p := fun _ l => isValidStringCharacter l.peekChar)
    (fun hc hl => by
      obtain ⟨h₁, h₂⟩ := hw _ hc
      simp [hl.peekChar, isValidStringCharacter, isDoubleQuote, h₁, h₂])
    (fun hl => by rw [hl.peekChar]; rfl) hlen true hnext
  refine ⟨l'.nextChar, ?_, hl'.next⟩
  have hq : isDoubleQuote l.peekChar = true := by
    rw [hl.peekChar]
    rfl
  rw [scanWord, if_pos hq, hrun]
  rfl

theorem Delimited.peekChar (h : Delimited rest) (hl : l.At rest) :
    l.peekChar = ' ' ∨ l.peekChar = ')' ∨ l.peekChar = eof := by
  cases rest with
  | nil => exact .inr (.inr (peekChar_nil hl.chars))
  | cons c cs =>
      rw [hl.peekChar]
      exact h.elim .inl fun h => .inr (.inl h)

theorem isDigit_ne {c d : Char} (h : c.isDigit = true) (hd : d.isDigit = false) : c ≠ d := by
  rintro rfl
  rw [h] at hd
  cases hd

theorem readNumber_run {w : List Char} (hw : ∀ c ∈ w, c.isDigit = true) (hd : Delimited rest)
    {room : Nat} (hr : w.length ≤ room) (hl : l.At (w ++ rest)) :
    ∃ l', readNumber room true l = .ok (true, w, l') ∧ l'.At rest := by
  induction w generalizing room l with
  | nil =>
      refine ⟨l, readNumber_stop ?_ room, hl⟩
      rcases hd.peekChar hl with h | h | h <;> rw [h] <;> rfl
  | cons c w ih =>
      obtain ⟨room, rfl⟩ := Nat.exists_eq_succ_of_ne_zero (Nat.ne_of_gt (Nat.lt_of_lt_of_le
        (Nat.succ_pos _) hr))
      obtain ⟨l', hrun, hl'⟩ := ih (fun c hc => hw c (List.mem_cons_of_mem _ hc))
        (Nat.le_of_succ_le_succ hr) hl.next
      have hdig := hw c List.mem_cons_self
      have hdot : (c == '.') = false := by
        simpa using isDigit_ne hdig (d := '.') rfl
      refine ⟨l', ?_, hl'⟩
      have hb : (c != '.') = true := by rw [bne, hdot]; rfl
      rw [readNumber, hl.peekChar, isValidNumberChar, hdig, hdot, hb]
      simp only [Bool.true_or, Bool.false_and, Bool.not_false, Bool.and_self, if_pos]
      rw [hrun]
      rfl

theorem atol_toDigits_eq_min (n : Nat) : atol (Nat.toDigits 10 n) = min (2 ^ 63 - 1) n := by
  have hall : (Nat.toDigits 10 n).takeWhile Char.isDigit = Nat.toDigits 10 n := by
    rw [List.takeWhile_eq_self_iff]
    exact fun c hc => Nat.isDigit_of_mem_toDigits (by decide) (by decide) hc
  rw [atol, hall, Nat.ofDigitChars_toDigits (by decide) (by decide)]

theorem atol_toDigits {n : Nat} (h : n < 2 ^ 63) : atol (Nat.toDigits 10 n) = n := by
  rw [atol_toDigits_eq_min]
  exact Nat.min_eq_right (Nat.le_pred_of_lt h)

/-- The decimal digits of a number. -/
theorem scans_long (n : Nat) (hlen : (Nat.toDigits 10 n).length ≤ bufferSize)
    (hd : Delimited rest) :
    Scans findClass (Nat.toDigits 10 n ++ rest) ⟨.literalLong, .ofList (Nat.toDigits 10 n)⟩
      rest := by
  have hw : ∀ c ∈ Nat.toDigits 10 n, c.isDigit = true := fun c hc =>
    Nat.isDigit_of_mem_toDigits (by decide) (by decide) hc
  obtain ⟨c, cs, hcs⟩ := List.exists_cons_of_ne_nil (Nat.toDigits_ne_nil (n := n) (b := 10))
  rw [hcs] at hw hlen ⊢
  have hdig := hw c List.mem_cons_self
  have hne (d : Char) (hd : d.isDigit = false) : c ≠ d := isDigit_ne hdig hd
  have hpunct : punctuation c = none := by
    unfold punctuation
    split <;> first | rfl | exact absurd rfl (hne _ rfl)
  refine scans_of_scanToken (not_blank_iff.mpr ?_) fun l hl => ?_
  · simp [hne]
  · rw [scanToken_word (by rw [hl.peekChar, hpunct]) (by rw [hl.peekChar]; simp [hne, eof])
      (by rw [hl.peekChar]; simp [hne])]
    obtain ⟨l', hrun, hl'⟩ := readNumber_run hw hd hlen hl
    refine ⟨l', ?_, hl'⟩
    have hq : isDoubleQuote c = false := by simp [isDoubleQuote, hne]
    rw [scanWord]
    simp only [hl.peekChar, hq, hdig, if_pos, Bool.false_eq_true, if_false]
    rw [hrun]
    rfl

/-! ### Words -/

/-- The kind a word is registered with. -/
def keyword (w : List Char) : Option Token.Kind :=
  (keywordList.map fun e => (e.1.toList, e.2)).reverse.lookup w

theorem find_keywords (w : List Char) :
    keywords.find w = keyword w :=
  Trie.find_ofList _ w

/-- The characters a word consists of behind its first letter. -/
def isWordChar (c : Char) : Bool := c.isAlpha || c.isDigit || c == '-' || c == '_'

theorem isWordChar_ne {c d : Char} (h : isWordChar c = true) (hd : isWordChar d = false) :
    c ≠ d := by
  rintro rfl
  rw [h] at hd
  cases hd

theorem isAlpha_ne {c d : Char} (h : c.isAlpha = true) (hd : d.isAlpha = false) : c ≠ d := by
  rintro rfl
  rw [h] at hd
  cases hd

/-- A letter is no digit. -/
theorem isDigit_of_isAlpha {c : Char} (h : c.isAlpha = true) : c.isDigit = false := by
  by_contra hne
  have hd : c.isDigit = true := by simpa using hne
  have hdigit : 48 ≤ c.val ∧ c.val ≤ 57 := by simpa [Char.isDigit] using hd
  have hletter : (65 ≤ c.val ∧ c.val ≤ 90) ∨ (97 ≤ c.val ∧ c.val ≤ 122) := by
    have hor : (decide (c.val ≥ 65 ∧ c.val ≤ 90) ||
      (decide (c.val ≥ 97) && decide (c.val ≤ 122))) = true := h
    simpa using hor
  simp only [UInt32.le_iff_toNat_le] at hdigit hletter
  simp at hdigit hletter
  omega

theorem isWordChar_of_isAlpha {c : Char} (h : c.isAlpha = true) : isWordChar c = true := by
  simp [isWordChar, h]

theorem isValidIdentifierChar_word (l : Lexer) {c : Char} {i : Bool} (h : isWordChar c = true)
    (hi : i = true → c.isAlpha = true) : l.isValidIdentifierChar c i = true := by
  rw [isValidIdentifierChar]
  by_cases ha : c.isAlpha = true
  · rw [if_pos ha]
  · have hif : i = false := by
      by_contra hne
      exact ha (hi (by simpa using hne))
    rw [if_neg ha]
    by_cases hd : c.isDigit = true
    · rw [if_pos (by simp [hd, hif])]
    · rw [if_neg (by simp [hd])]
      have hc : c = '-' ∨ c = '_' := by simpa [isWordChar, ha, hd] using h
      rcases hc with rfl | rfl <;> rfl

theorem not_isValidIdentifierChar_of_delimited (hd : Delimited rest) (hl : l.At rest) (i : Bool) :
    l.isValidIdentifierChar l.peekChar i = false := by
  rcases hd.peekChar hl with h | h | h <;> rw [h] <;> cases i <;> rfl

theorem readIdentifier_stop {buf : List Char} {ckw : Option (Trie Char Token.Kind)}
    (h : l.isValidIdentifierChar l.peekChar buf.isEmpty = false) (room : Nat) :
    readIdentifier findClass room ckw buf l = .ok (⟨l.kindOfWord ckw, .ofList buf⟩, l) := by
  cases room <;> rw [readIdentifier, if_neg (by rw [h]; exact Bool.false_ne_true)]

theorem readIdentifier_step {buf : List Char} {ckw : Option (Trie Char Token.Kind)}
    (findClass : String → Option ClassId) (h : l.isValidIdentifierChar l.peekChar buf.isEmpty = true) (hq : l.peekChar ≠ '?')
    (hdot : l.peekChar ≠ '.') (room : Nat) :
    readIdentifier findClass (room + 1) ckw buf l =
      readIdentifier findClass room (ckw.bind (·.child? l.peekChar)) (buf ++ [l.peekChar])
        l.nextChar := by
  rw [readIdentifier, if_pos h, if_neg (by simp [hq]), if_neg (by simp [hq]),
    if_neg (by simp [hdot])]

theorem readIdentifier_run {w buf : List Char} {ckw : Option (Trie Char Token.Kind)}
    (findClass : String → Option ClassId) (hw : ∀ c ∈ w, isWordChar c = true) (hf : buf = [] → ∀ c ∈ w.head?, c.isAlpha = true)
    (hd : Delimited rest) {room : Nat} (hr : w.length ≤ room) (hl : l.At (w ++ rest)) :
    ∃ l', readIdentifier findClass room ckw buf l =
      .ok (⟨l'.kindOfWord (Trie.descend ckw w), .ofList (buf ++ w)⟩, l') ∧ l'.At rest := by
  induction w generalizing room l buf ckw with
  | nil =>
      refine ⟨l, ?_, hl⟩
      rw [readIdentifier_stop (not_isValidIdentifierChar_of_delimited hd hl _), List.append_nil]
      rfl
  | cons c w ih =>
      obtain ⟨room, rfl⟩ := Nat.exists_eq_succ_of_ne_zero (Nat.ne_of_gt (Nat.lt_of_lt_of_le
        (Nat.succ_pos _) hr))
      have hc := hw c List.mem_cons_self
      have hvalid : l.isValidIdentifierChar l.peekChar buf.isEmpty = true := by
        rw [hl.peekChar]
        exact isValidIdentifierChar_word l hc fun hb => hf (by simpa using hb) c rfl
      have hne (d : Char) (hd : isWordChar d = false) : l.peekChar ≠ d := by
        rw [hl.peekChar]
        exact isWordChar_ne hc hd
      obtain ⟨l', hrun, hl'⟩ := ih (fun d hd => hw d (List.mem_cons_of_mem _ hd))
        (fun h => absurd h (List.append_ne_nil_of_right_ne_nil buf (List.cons_ne_nil c [])))
        (Nat.le_of_succ_le_succ hr) hl.next
      refine ⟨l', ?_, hl'⟩
      rw [readIdentifier_step findClass hvalid (hne _ rfl) (hne _ rfl), hl.peekChar, hrun,
        List.append_assoc, List.singleton_append]
      rfl

/-- A word does not look like `new:`. -/
theorem not_new_of_word {w : List Char} (hw : ∀ c ∈ w, isWordChar c = true)
    (hd : Delimited rest) :
    ¬ ((w ++ rest).getD 1 eof = 'e' ∧ (w ++ rest).getD 2 eof = 'w' ∧
      (w ++ rest).getD 3 eof = ':' ∧ w ≠ []) := by
  rintro ⟨h₁, h₂, h₃, hne⟩
  have hrest (d : Char) (hd' : d ≠ ' ') (hd'' : d ≠ ')') (he : d ≠ eof) :
      rest.getD 0 eof ≠ d := by
    cases rest with
    | nil => exact he.symm
    | cons c cs =>
        rcases hd with h | h
        · simpa [h] using hd'.symm
        · simpa [h] using hd''.symm
  -- the word ends before the `e`, the `w` or the `:`, or it contains the `:`
  match w, hne with
  | [a], _ => exact hrest 'e' (by decide) (by decide) (by decide) h₁
  | [a, b], _ => exact hrest 'w' (by decide) (by decide) (by decide) h₂
  | [a, b, d], _ => exact hrest ':' (by decide) (by decide) (by decide) h₃
  | a :: b :: d :: e :: w, _ =>
      have he : e = ':' := h₃
      exact isWordChar_ne (hw e (by simp)) (d := ':') (by decide) he

/-- **A word is scanned whole**, and its kind is the one registered for the whole word. -/
theorem scans_word {w : List Char} (hw : ∀ d ∈ w, isWordChar d = true)
    (hc : c.isAlpha = true) (hlen : (c :: w).length ≤ bufferSize) (hd : Delimited rest) :
    Scans findClass (c :: w ++ rest)
      ⟨(keywords.find (c :: w)).getD .identifier, .ofList (c :: w)⟩ rest := by
  have hne (d : Char) (hd : d.isAlpha = false) : c ≠ d := isAlpha_ne hc hd
  have hall : ∀ d ∈ c :: w, isWordChar d = true := by
    simpa [isWordChar_of_isAlpha hc] using hw
  have hpunct : punctuation c = none := by
    unfold punctuation
    split <;> first | rfl | exact absurd rfl (hne _ rfl)
  have hdig : c.isDigit = false := isDigit_of_isAlpha hc
  refine scans_of_scanToken (not_blank_iff.mpr ?_) fun l hl => ?_
  · simp [hne]
  · have hl' : l.At (c :: w ++ rest) := hl
    rw [scanToken_word (by rw [hl.peekChar, hpunct]) (by rw [hl.peekChar]; simp [hne, eof])
      (by
        rw [hl'.peekChar_eq 1, hl'.peekChar_eq 2, hl'.peekChar_eq 3]
        rintro ⟨-, h₁, h₂, h₃⟩
        exact not_new_of_word hall hd ⟨h₁, h₂, h₃, List.cons_ne_nil _ _⟩)]
    have hfirst : ([] : List Char) = [] → ∀ d ∈ (c :: w).head?, d.isAlpha = true :=
      fun _ d hd => by cases hd; exact hc
    obtain ⟨l₁, hrun, hl₁⟩ := readIdentifier_run findClass hall hfirst hd hlen hl'
    refine ⟨l₁, ?_, hl₁⟩
    have hq : isDoubleQuote c = false := by simp [isDoubleQuote, hne]
    have hv : l.isValidIdentifierChar c true = true :=
      isValidIdentifierChar_word l (isWordChar_of_isAlpha hc) fun _ => hc
    rw [scanWord]
    simp only [hl.peekChar, hq, hdig, hv, if_pos, Bool.false_eq_true, if_false]
    rw [hrun, kindOfWord, hl₁.args]
    rfl

end Lexer

end Gel
