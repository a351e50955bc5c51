import Gel.Scanning
import Mathlib.Tactic.IntervalCases

/-!
# Lexemes — identifiers, keywords and the prefixes of class names

Outside parameter lists.  `Lexeme`: a maximal run of identifier characters, up to a `..`, at a
position where no earlier case of the switch applies.

* `scan_lexeme_iff`: the kind of its token is the one registered for the whole lexeme exactly when
  the `?` it may end in does not matter, for the loop does not look that `?` up.
* `classLexemes_iff`: `#C?`, `:->C` and `new:C` are single tokens exactly when the name does not
  start like a boolean literal.
-/

namespace Gel

open Faulting

namespace Lexer

variable {findClass : String → Option ClassId} {l : Lexer} {c : Char} {w rest : List Char}

/-- `IsValidIdentifierChar` outside parameter lists. -/
def isNameChar (c : Char) (initial : Bool := false) : Bool :=
  isValidIdentifierChar { chars := [] } c initial

theorem isValidIdentifierChar_eq (h : l.args = false) (c : Char) (initial : Bool) :
    l.isValidIdentifierChar c initial = isNameChar c initial := by
  rw [isNameChar, isValidIdentifierChar, isValidIdentifierChar, h]

theorem nextChar_args (l : Lexer) : l.nextChar.args = l.args := by
  obtain ⟨chars, _, _, _⟩ := l
  cases chars <;> rfl

theorem peekChar_eq (h : l.chars = w) (i : Nat) : l.peekChar i = w.getD i eof := by
  rw [peekChar, h]

theorem peekChar_cons {cs : List Char} (h : l.chars = c :: cs) : l.peekChar = c := by
  rw [peekChar, h]
  rfl

theorem nextChar_cons {cs : List Char} (h : l.chars = c :: cs) : l.nextChar.chars = cs := by
  rw [chars_nextChar, h]
  rfl

theorem isNameChar_of_initial (h : isNameChar c = false) (initial : Bool) :
    isNameChar c initial = false := by
  cases initial with
  | false => exact h
  | true =>
      rw [isNameChar, isValidIdentifierChar] at h ⊢
      by_cases ha : c.isAlpha = true
      · simp [ha] at h
      · by_cases hd : c.isDigit = true
        · simp [hd] at h
        · simp only [ha, hd, Bool.false_eq_true, Bool.false_and, if_false] at h ⊢
          split at h
          · exact absurd h (by simp)
          · simp_all

theorem chars_advance {pre cs : List Char} (h : l.chars = pre ++ cs) :
    (l.advance pre.length).chars = cs := by
  induction pre generalizing l with
  | nil => exact h
  | cons c pre ih => exact ih (nextChar_cons h)

theorem args_advance (n : Nat) (l : Lexer) : (l.advance n).args = l.args := by
  induction n generalizing l with
  | zero => rfl
  | succ n ih => exact (ih l.nextChar).trans (nextChar_args l)

/-! ### The loop over an identifier -/

/-- A name cannot go on here. -/
def Ends (rest : List Char) : Prop := isNameChar (rest.getD 0 eof) = false

instance (rest : List Char) : Decidable (Ends rest) := inferInstanceAs (Decidable (_ = _))

/-- The characters the loop goes down the trie with: all but a `?` behind which the name ends. -/
def lookedUp (w rest : List Char) : List Char :=
  if w.getLast? = some '?' ∧ Ends rest then w.dropLast else w

theorem lookedUp_cons {d : Char} (h : w ≠ []) : lookedUp (d :: w) rest = d :: lookedUp w rest := by
  obtain ⟨c, w, rfl⟩ := List.exists_cons_of_ne_nil h
  rw [lookedUp, lookedUp, List.getLast?_cons_cons, List.dropLast_cons_cons]
  split <;> rfl

/-- A run of identifier characters, behind the characters `buf` of the same identifier. -/
structure Run (findClass : String → Option ClassId) (buf w rest : List Char) : Prop where
  initial : buf = [] → ∃ c w', w = c :: w' ∧ isNameChar c true = true
  chars : ∀ c ∈ w, isNameChar c = true
  no_range : ∀ u v, w = u ++ '.' :: v → (v ++ rest).getD 0 eof ≠ '.'
  ends : Ends rest ∨ ∃ r, rest = '.' :: '.' :: r
  no_class : ∀ u, w = u ++ ['?'] → Ends rest → findClass (.ofList (buf ++ u)) = none

theorem Run.tail {buf : List Char} (h : Run findClass buf (c :: w) rest) :
    Run findClass (buf ++ [c]) w rest where
  initial := fun hb => absurd hb (List.append_ne_nil_of_right_ne_nil buf (List.cons_ne_nil c []))
  chars := fun d hd => h.chars d (List.mem_cons_of_mem _ hd)
  no_range := fun u v hw => h.no_range (c :: u) v (by rw [hw]; rfl)
  ends := h.ends
  no_class := fun u hw he => by
    rw [List.append_assoc]
    exact h.no_class (c :: u) (by rw [hw]; rfl) he

theorem Run.first {buf : List Char} (h : Run findClass buf (c :: w) rest) :
    isNameChar c buf.isEmpty = true := by
  cases hb : buf with
  | nil =>
      obtain ⟨d, w', heq, hd⟩ := h.initial hb
      cases heq
      exact hd
  | cons => exact h.chars c List.mem_cons_self

/-- The loop stops where the run ends. -/
theorem readIdentifier_end {buf : List Char} {ckw : Option (Trie Char Token.Kind)} (hb : buf ≠ [])
    (h : Run findClass buf [] rest) (hl : l.chars = rest) (ha : l.args = false) (room : Nat) :
    readIdentifier findClass room ckw buf l = .ok (⟨l.kindOfWord ckw, .ofList buf⟩, l) := by
  have hi : buf.isEmpty = false := by simpa using hb
  rcases h.ends with he | ⟨r, rfl⟩
  · refine readIdentifier_stop ?_ room
    rw [isValidIdentifierChar_eq ha, hi, peekChar_eq hl]
    exact he
  · have hp : l.peekChar = '.' := peekChar_cons hl
    have hp₁ : l.peekChar 1 = '.' := peekChar_eq hl 1
    cases room <;>
      rw [readIdentifier, hp, hp₁, isValidIdentifierChar_eq ha, hi, if_pos (by decide),
        if_neg (by simp), if_neg (by simp), if_pos (by decide)]

/-- A `?` behind which the name ends is taken without a step down the trie. -/
theorem readIdentifier_question {buf : List Char} {ckw : Option (Trie Char Token.Kind)}
    (h : Run findClass buf ['?'] rest) (he : Ends rest) (hl : l.chars = '?' :: rest)
    (ha : l.args = false) (room : Nat) :
    readIdentifier findClass (room + 1) ckw buf l =
      readIdentifier findClass room ckw (buf ++ ['?']) l.nextChar := by
  have hp : l.peekChar = '?' := peekChar_cons hl
  have hp₁ : isNameChar (l.peekChar 1) = false := by
    rw [peekChar_eq hl]
    exact he
  have hc : findClass (.ofList buf) = none := by
    have := h.no_class [] rfl he
    rwa [List.append_nil] at this
  rw [readIdentifier]
  simp only [hp, isValidIdentifierChar_eq ha, h.first, hp₁, hc]
  rfl

/-- Any other character is a step down the trie. -/
theorem readIdentifier_char {buf : List Char} {ckw : Option (Trie Char Token.Kind)}
    (h : Run findClass buf (c :: w) rest) (hl : l.chars = c :: (w ++ rest)) (ha : l.args = false)
    (hq : c = '?' → ¬ Ends (w ++ rest)) (room : Nat) :
    readIdentifier findClass (room + 1) ckw buf l =
      readIdentifier findClass room (ckw.bind (·.child? c)) (buf ++ [c]) l.nextChar := by
  have hp : l.peekChar = c := peekChar_cons hl
  have hp₁ : l.peekChar 1 = (w ++ rest).getD 0 eof := peekChar_eq hl 1
  have hq' : ¬ ((decide (c = '?') && !isNameChar ((w ++ rest).getD 0 eof)) = true) := by
    intro hand
    obtain ⟨h₁, h₂⟩ := Bool.and_eq_true_iff.mp hand
    rw [Bool.not_eq_true'] at h₂
    exact hq (of_decide_eq_true h₁) h₂
  have hdot : ¬ ((decide (c = '.') && decide ((w ++ rest).getD 0 eof = '.')) = true) := by
    intro hand
    obtain ⟨h₁, h₂⟩ := Bool.and_eq_true_iff.mp hand
    exact h.no_range [] w (by rw [of_decide_eq_true h₁]; rfl) (of_decide_eq_true h₂)
  rw [readIdentifier]
  simp only [hp, hp₁, isValidIdentifierChar_eq ha, h.first, ha, if_pos, Bool.and_false,
    Bool.false_eq_true, if_false]
  rw [if_neg hq', if_neg hdot]

/-- A character more than there is room for. -/
theorem readIdentifier_full {buf : List Char} {ckw : Option (Trie Char Token.Kind)}
    (h : Run findClass buf (c :: w) rest) (hl : l.chars = c :: (w ++ rest)) (ha : l.args = false) :
    readIdentifier findClass 0 ckw buf l = .error .undefined := by
  have hp : l.peekChar = c := peekChar_cons hl
  have hp₁ : l.peekChar 1 = (w ++ rest).getD 0 eof := peekChar_eq hl 1
  rw [readIdentifier]
  simp only [hp, hp₁, isValidIdentifierChar_eq ha, h.first, ha, if_pos, Bool.and_false,
    Bool.false_eq_true, if_false]
  by_cases hq : (decide (c = '?') && !isNameChar ((w ++ rest).getD 0 eof)) = true
  · rw [if_pos hq]
    obtain ⟨h₁, h₂⟩ := Bool.and_eq_true_iff.mp hq
    rw [Bool.not_eq_true'] at h₂
    -- the run ends behind the `?`, or its next character could not be one
    have hw : w = [] := by
      cases w with
      | nil => rfl
      | cons d w =>
          have hd := h.chars d (by simp)
          rw [List.cons_append, List.getD_cons_zero, hd] at h₂
          cases h₂
    subst hw
    have hc := h.no_class [] (by rw [of_decide_eq_true h₁]; rfl) h₂
    rw [List.append_nil] at hc
    rw [hc]
    rfl
  · have hdot : ¬ ((decide (c = '.') && decide ((w ++ rest).getD 0 eof = '.')) = true) := by
      intro hand
      obtain ⟨h₁, h₂⟩ := Bool.and_eq_true_iff.mp hand
      exact h.no_range [] w (by rw [of_decide_eq_true h₁]; rfl) (of_decide_eq_true h₂)
    rw [if_neg hq, if_neg hdot]

/-- Behind a `?` at which a name can end there is nothing more of a run. -/
theorem Run.eq_nil {buf : List Char} (h : Run findClass buf (c :: w) rest)
    (he : Ends (w ++ rest)) : w = [] := by
  cases w with
  | nil => rfl
  | cons d w =>
      have hd := h.chars d (by simp)
      rw [Ends, List.cons_append, List.getD_cons_zero, hd] at he
      cases he

/-- The loop takes the whole run, or does not have the room for it. -/
theorem readIdentifier_lexeme {buf : List Char} {ckw : Option (Trie Char Token.Kind)} {room : Nat}
    (h : Run findClass buf w rest) (hl : l.chars = w ++ rest) (ha : l.args = false) :
    (w.length ≤ room → ∃ l', readIdentifier findClass room ckw buf l =
        .ok (⟨l'.kindOfWord (Trie.descend ckw (lookedUp w rest)), .ofList (buf ++ w)⟩, l') ∧
      l'.chars = rest ∧ l'.args = false) ∧
    (room < w.length → readIdentifier findClass room ckw buf l = .error .undefined) := by
  induction w generalizing buf ckw room l with
  | nil =>
      have hb : buf ≠ [] := by
        intro hb
        obtain ⟨c, w, hw, -⟩ := h.initial hb
        cases hw
      refine ⟨fun _ => ⟨l, ?_, hl, ha⟩, fun hr => absurd hr (Nat.not_lt_zero _)⟩
      rw [readIdentifier_end hb h hl ha, List.append_nil, lookedUp, if_neg (by simp)]
      rfl
  | cons c w ih =>
      cases room with
      | zero => exact ⟨fun hr => absurd hr (by simp), fun _ => readIdentifier_full h hl ha⟩
      | succ room =>
          have hchars : l.nextChar.chars = w ++ rest := nextChar_cons hl
          have hargs : l.nextChar.args = false := (nextChar_args l).trans ha
          have hnext (ckw : Option (Trie Char Token.Kind)) :=
            @ih l.nextChar (buf ++ [c]) ckw room h.tail hchars hargs
          by_cases hq : c = '?' ∧ Ends (w ++ rest)
          · obtain ⟨rfl, he⟩ := hq
            obtain rfl := h.eq_nil he
            have hlook : lookedUp ['?'] rest = lookedUp [] rest := by
              rw [lookedUp, lookedUp, if_pos ⟨rfl, he⟩, if_neg (by simp)]
              rfl
            obtain ⟨hrun, hfull⟩ := hnext ckw
            rw [readIdentifier_question h he hl ha, hlook]
            rw [List.append_assoc] at hrun
            exact ⟨fun hr => hrun (Nat.le_of_succ_le_succ hr),
              fun hr => hfull (Nat.lt_of_succ_lt_succ hr)⟩
          · have hlook : lookedUp (c :: w) rest = c :: lookedUp w rest := by
              by_cases hw : w = []
              · subst hw
                rw [lookedUp, lookedUp, if_neg (by simpa using hq), if_neg (by simp)]
              · exact lookedUp_cons hw
            obtain ⟨hrun, hfull⟩ := hnext (ckw.bind (·.child? c))
            rw [readIdentifier_char h hl ha (fun h₁ h₂ => hq ⟨h₁, h₂⟩), hlook]
            rw [List.append_assoc] at hrun
            exact ⟨fun hr => hrun (Nat.le_of_succ_le_succ hr),
              fun hr => hfull (Nat.lt_of_succ_lt_succ hr)⟩

/-! ### Identifiers and keywords -/

/-- None of the cases that come before identifiers takes what is at this position. -/
structure StartsName (l : Lexer) : Prop where
  symbol : punctuation l.peekChar = none ∧ l.peekChar ≠ '<' ∧ l.peekChar ≠ '>'
  dollar : l.peekChar = '$' → l.isDispatching = false ∧ l.peekChar 1 ≠ '('
  cast : ¬ (l.peekChar = ':' ∧ l.peekChar 1 = '-' ∧ l.peekChar 2 = '>')
  new : ¬ (l.peekChar = 'n' ∧ l.peekChar 1 = 'e' ∧ l.peekChar 2 = 'w' ∧ l.peekChar 3 = ':')

/-- The identifier-shaped lexeme `w` is at this position, in front of `rest`. -/
structure Lexeme (findClass : String → Option ClassId) (l : Lexer) (w rest : List Char) : Prop where
  chars : l.chars = w ++ rest
  args : l.args = false
  start : StartsName l
  run : Run findClass [] w rest

theorem not_isDigit_of_initial (h : isNameChar c true = true) : c.isDigit = false := by
  by_contra hd
  have hd' : c.isDigit = true := by simpa using hd
  have hdigits : c ∈ ['0', '1', '2', '3', '4', '5', '6', '7', '8', '9'] := by
    simp only [Char.isDigit, Bool.and_eq_true, decide_eq_true_eq, UInt32.le_iff_toNat_le] at hd'
    obtain ⟨h₁, h₂⟩ := hd'
    rw [← Char.ofNat_toNat c]
    have h₁ : 48 ≤ c.toNat := h₁
    have h₂ : c.toNat ≤ 57 := h₂
    generalize c.toNat = n at h₁ h₂
    interval_cases n <;> decide
  have hall : ∀ c ∈ ['0', '1', '2', '3', '4', '5', '6', '7', '8', '9'],
      isNameChar c true = false := List.all_iff_forall_prop.mp (by decide)
  rw [hall c hdigits] at h
  cases h

/-- At a lexeme `NextToken` is the loop over it. -/
theorem scanToken_lexeme (h : Lexeme findClass l w rest) :
    l.scanToken findClass = readIdentifier findClass bufferSize (some keywords) [] l := by
  obtain ⟨c, w', rfl, hi⟩ := h.run.initial rfl
  have hp : l.peekChar = c := peekChar_cons h.chars
  obtain ⟨⟨hpunct, hlt, hgt⟩, hdollar, hcast, hnew⟩ := h.start
  rw [hp] at hpunct hlt hgt hdollar hcast hnew
  have hne (d : Char) (hd : isNameChar d true = false) : c ≠ d := by
    rintro rfl
    rw [hi] at hd
    cases hd
  have hdot : c ≠ '.' := hne _ (by decide)
  have hhash : c ≠ '#' := hne _ (by decide)
  have heof : c ≠ eof := hne _ (by decide)
  have hquote : isDoubleQuote c = false := beq_eq_false_iff_ne.mpr (hne _ (by decide))
  have hd₁ : ¬ ((decide (c = '$') && l.isDispatching) = true) := by
    intro hand
    obtain ⟨h₁, h₂⟩ := Bool.and_eq_true_iff.mp hand
    rw [(hdollar (of_decide_eq_true h₁)).1] at h₂
    cases h₂
  have hd₂ : ¬ ((decide (c = '$') && decide (l.peekChar 1 = '(')) = true) := by
    intro hand
    obtain ⟨h₁, h₂⟩ := Bool.and_eq_true_iff.mp hand
    exact (hdollar (of_decide_eq_true h₁)).2 (of_decide_eq_true h₂)
  rw [scanToken]
  simp only [hp, hpunct]
  rw [if_neg hdot, if_neg hhash, if_neg hd₁, if_neg hd₂, if_neg hlt, if_neg hgt, if_neg heof,
    if_neg (by simpa [and_assoc] using hcast), if_neg (by simpa [and_assoc] using hnew), scanWord]
  simp only [hp, hquote, not_isDigit_of_initial hi, isValidIdentifierChar_eq h.args, hi, if_pos,
    Bool.false_eq_true, if_false]

/-- What the loop makes of a lexeme that fits the buffer: its kind is looked up without a `?` at
its end. -/
theorem scan_lexeme (h : Lexeme findClass l.trimmed w rest) (hw : w.length ≤ bufferSize) :
    ∃ l', l.scan findClass =
        .ok (⟨(keyword (lookedUp w rest)).getD .identifier, .ofList w⟩, l') ∧ l'.chars = rest := by
  obtain ⟨l', hrun, hl', ha⟩ := (readIdentifier_lexeme h.run h.chars h.args).1 hw
  refine ⟨l', ?_, hl'⟩
  rw [scan_eq, scanToken_lexeme h, hrun, kindOfWord, if_neg (by simp [ha]), List.nil_append,
    ← find_keywords]
  rfl

/-- Whether a word is registered. -/
def IsKeyword (w : List Char) : Prop := ∃ k, keyword w = some k

theorem not_isKeyword {w : List Char} : ¬ IsKeyword w ↔ keyword w = none := by
  rw [IsKeyword, ← Option.isSome_iff_exists]
  simp

theorem keyword_mem {k : Token.Kind} (h : keyword w = some k) :
    (w, k) ∈ keywordList.map fun e => (e.1.toList, e.2) := by
  obtain ⟨l₁, l₂, hl, -⟩ := List.lookup_eq_some_iff.mp h
  rw [← List.mem_reverse, hl]
  simp

/-- A keyword is no identifier, and is none with a `?` behind it. -/
theorem keyword_facts {k : Token.Kind} (h : keyword w = some k) :
    k ≠ .identifier ∧ keyword (w ++ ['?']) = none := by
  have hall : ∀ e ∈ keywordList.map fun e => (e.1.toList, e.2),
      e.2 ≠ .identifier ∧ keyword (e.1 ++ ['?']) = none := by
    decide
  exact hall _ (keyword_mem h)

/-- **The kind of an identifier-shaped lexeme** is the one registered for the whole of it exactly
when it does not end in a `?` that matters. -/
theorem scan_lexeme_iff (h : Lexeme findClass l.trimmed w rest) :
    (∃ l', l.scan findClass = .ok (⟨(keyword w).getD .identifier, .ofList w⟩, l') ∧
        l'.chars = rest) ↔
      w.length ≤ bufferSize ∧
        ∀ u, w = u ++ ['?'] → Ends rest → ¬ IsKeyword w ∧ ¬ IsKeyword u := by
  by_cases hw : w.length ≤ bufferSize
  · obtain ⟨l', hscan, hl'⟩ := scan_lexeme h hw
    have hiff : (∃ l', l.scan findClass = .ok (⟨(keyword w).getD .identifier, .ofList w⟩, l') ∧
        l'.chars = rest) ↔
        (keyword (lookedUp w rest)).getD .identifier = (keyword w).getD .identifier := by
      constructor
      · rintro ⟨l'', hscan', -⟩
        rw [hscan] at hscan'
        exact congrArg Token.kind (Prod.mk.inj (Except.ok.inj hscan')).1
      · intro heq
        exact ⟨l', heq ▸ hscan, hl'⟩
    rw [hiff]
    by_cases hq : ∃ u, w = u ++ ['?'] ∧ Ends rest
    · obtain ⟨u, rfl, he⟩ := hq
      have hlook : lookedUp (u ++ ['?']) rest = u := by
        rw [lookedUp, if_pos ⟨by simp, he⟩, List.dropLast_concat]
      rw [hlook]
      constructor
      · intro heq
        refine ⟨hw, fun u' hu' _ => ?_⟩
        obtain rfl : u = u' := (List.append_left_inj _).mp hu'
        cases hku : keyword u with
        | some k =>
            obtain ⟨hk, hnone⟩ := keyword_facts hku
            rw [hku, hnone] at heq
            exact absurd heq hk
        | none =>
            cases hkw : keyword (u ++ ['?']) with
            | some k =>
                rw [hku, hkw] at heq
                exact absurd heq.symm (keyword_facts hkw).1
            | none => exact ⟨not_isKeyword.mpr hkw, not_isKeyword.mpr hku⟩
      · rintro ⟨-, hcond⟩
        obtain ⟨h₁, h₂⟩ := hcond u rfl he
        rw [not_isKeyword.mp h₁, not_isKeyword.mp h₂]
    · have hlook : lookedUp w rest = w := by
        refine if_neg fun hand => hq ?_
        obtain ⟨hlast, he⟩ := hand
        obtain ⟨u, hu⟩ := List.getLast?_eq_some_iff.mp hlast
        exact ⟨u, hu, he⟩
      rw [hlook]
      exact ⟨fun _ => ⟨hw, fun u hu he => absurd ⟨u, hu, he⟩ hq⟩, fun _ => rfl⟩
  · -- a lexeme that does not fit is written past the buffer
    have hfull : readIdentifier findClass bufferSize (some keywords) [] l.trimmed =
        .error .undefined :=
      (readIdentifier_lexeme h.run h.chars h.args).2 (Nat.lt_of_not_le hw)
    constructor
    · rintro ⟨l', hscan, -⟩
      rw [scan_eq, scanToken_lexeme h, hfull] at hscan
      cases hscan
    · rintro ⟨hle, -⟩
      exact absurd hle hw

/-- A run of letters, digits and `?` is free of ranges. -/
theorem no_range_of_not_mem (h : '.' ∉ w) (u v : List Char) (hw : w = u ++ '.' :: v) :
    (v ++ rest).getD 0 eof ≠ '.' := by
  rw [hw] at h
  simp at h

theorem scan_lexeme_iff_sample :
    (∃ l', ({ chars := "cond x".toList } : Lexer).scan (fun _ => none) =
        .ok (⟨(keyword "cond".toList).getD .identifier, .ofList "cond".toList⟩, l') ∧
        l'.chars = " x".toList) ↔
      "cond".toList.length ≤ bufferSize ∧
        ∀ u, "cond".toList = u ++ ['?'] → Ends " x".toList →
          ¬ IsKeyword "cond".toList ∧ ¬ IsKeyword u :=
  scan_lexeme_iff {
    chars := rfl
    args := rfl
    start := ⟨by decide, by decide, by decide, by decide⟩
    run := ⟨fun _ => ⟨'c', "ond".toList, rfl, by decide⟩, List.all_iff_forall_prop.mp (by decide),
      no_range_of_not_mem (by decide), .inl (by decide), fun _ _ _ => rfl⟩ }

/-- `eq?` is a lexeme that is registered, but its token is an identifier. -/
theorem scan_eq_question :
    Lexeme (fun _ => none) { chars := "eq? x y".toList } "eq?".toList " x y".toList ∧
      keyword "eq?".toList = some (.binaryOp .equals) ∧
      ¬ ∃ l', ({ chars := "eq? x y".toList } : Lexer).scan (fun _ => none) =
        .ok (⟨(keyword "eq?".toList).getD .identifier, .ofList "eq?".toList⟩, l') := by
  refine ⟨⟨rfl, rfl, ⟨by decide, by decide, by decide, by decide⟩,
    ⟨fun _ => ⟨'e', "q?".toList, rfl, by decide⟩, List.all_iff_forall_prop.mp (by decide),
      no_range_of_not_mem (by decide), .inl (by decide), fun _ _ _ => rfl⟩⟩, by decide, ?_⟩
  rintro ⟨l', h⟩
  have hrun : ({ chars := "eq? x y".toList } : Lexer).scan (fun _ => none) =
      .ok (⟨.identifier, "eq?"⟩, { chars := " x y".toList }) := by rfl
  rw [hrun] at h
  exact absurd (congrArg Token.kind (Prod.mk.inj (Except.ok.inj h)).1) (by decide)

/-! ### Class names behind a prefix -/

/-- Letters and digits, starting with a letter. -/
def IsClassName (w : List Char) : Prop :=
  ∃ c cs, w = c :: cs ∧ c.isAlpha = true ∧ ∀ d ∈ cs, d.isAlpha = true ∨ d.isDigit = true

/-- In front of a delimiter the text is one token. -/
def Lexes (findClass : String → Option ClassId) (text : List Char) (t : Token) : Prop :=
  ∀ (l : Lexer) (rest : List Char), l.chars = text ++ rest → l.args = false → Ends rest →
    ∃ l', l.scan findClass = .ok (t, l') ∧ l'.chars = rest

/-- The tokens with the class name `w` in them, and the boolean literals. -/
def ClassLexemes (findClass : String → Option ClassId) (w : List Char) : Prop :=
  Lexes findClass ('#' :: (w ++ ['?'])) ⟨.instanceOfExpr, .ofList w⟩ ∧
    Lexes findClass (':' :: '-' :: '>' :: w) ⟨.castExpr, .ofList w⟩ ∧
    Lexes findClass ('n' :: 'e' :: 'w' :: ':' :: w) ⟨.newExpr, .ofList w⟩ ∧
    (∀ c ∈ ['t', 'T'], Lexes findClass ['#', c] ⟨.literalTrue, ""⟩) ∧
    ∀ c ∈ ['f', 'F'], Lexes findClass ['#', c] ⟨.literalFalse, ""⟩

theorem isNameChar_class {i : Bool} (h : c.isAlpha = true ∨ c.isDigit = true)
    (hi : i = true → c.isAlpha = true) : isNameChar c i = true := by
  refine isValidIdentifierChar_word _ ?_ hi
  rcases h with h | h <;> simp [isWordChar, h]

/-- A loop over a class name takes all of it, or does not have the room for it. -/
theorem readWhile_class {p : Bool → Lexer → Bool} {i : Bool} {room : Nat}
    (hp : ∀ {i l c cs}, l.args = false → l.chars = c :: cs →
      c.isAlpha = true ∨ c.isDigit = true → (i = true → c.isAlpha = true) → p i l = true)
    (hs : ∀ {i l}, l.args = false → l.chars = rest → p i l = false)
    (hw : ∀ c ∈ w, c.isAlpha = true ∨ c.isDigit = true)
    (hi : i = true → ∀ c ∈ w.head?, c.isAlpha = true)
    (hl : l.chars = w ++ rest) (ha : l.args = false) :
    (w.length ≤ room → ∃ l', readWhile p room i l = .ok (w, l') ∧ l'.chars = rest ∧
      l'.args = false) ∧
    (room < w.length → readWhile p room i l = .error .undefined) := by
  induction w generalizing room i l with
  | nil => exact ⟨fun _ => ⟨l, readWhile_stop (hs ha hl) room, hl, ha⟩,
      fun hr => absurd hr (Nat.not_lt_zero _)⟩
  | cons c w ih =>
      have hc : p i l = true := hp ha hl (hw c List.mem_cons_self) fun h => hi h c rfl
      cases room with
      | zero =>
          refine ⟨fun hr => absurd hr (by simp), fun _ => ?_⟩
          rw [readWhile, if_pos hc]
      | succ room =>
          obtain ⟨hrun, hfull⟩ := @ih l.nextChar false room
            (fun d hd => hw d (List.mem_cons_of_mem _ hd)) (fun h => by cases h)
            (nextChar_cons hl) ((nextChar_args l).trans ha)
          constructor
          · intro hr
            obtain ⟨l', h', hl', ha'⟩ := hrun (Nat.le_of_succ_le_succ hr)
            refine ⟨l', ?_, hl', ha'⟩
            rw [readWhile, if_pos hc]
            dsimp only
            rw [h', peekChar_cons hl]
            rfl
          · intro hr
            rw [readWhile, if_pos hc]
            dsimp only
            rw [hfull (Nat.lt_of_succ_lt_succ hr)]
            rfl

/-- What `:->` and `new:` read behind their prefix. -/
theorem readName_class (hw : IsClassName w) (hl : l.chars = w ++ rest) (ha : l.args = false)
    (he : Ends rest) :
    (w.length ≤ bufferSize → ∃ l', l.readName = .ok (w, l') ∧ l'.chars = rest) ∧
    (bufferSize < w.length → l.readName = .error .undefined) := by
  obtain ⟨c, cs, rfl, hc, hcs⟩ := hw
  obtain ⟨hrun, hfull⟩ := @readWhile_class l (c :: cs) rest
    (fun initial l => l.isValidIdentifierChar l.peekChar initial) true bufferSize
    (fun ha hl hc hi => by
      rw [isValidIdentifierChar_eq ha, peekChar_cons hl]
      exact isNameChar_class hc hi)
    (fun {i l} ha hl => by
      rw [isValidIdentifierChar_eq ha, peekChar_eq hl]
      exact isNameChar_of_initial he i)
    (by simpa [hc] using hcs) (fun _ d hd => by cases hd; exact hc) hl ha
  exact ⟨fun hr => (hrun hr).imp fun _ h => ⟨h.1, h.2.1⟩, hfull⟩

theorem scan_of_not_blank {cs : List Char} (hl : l.chars = c :: cs) (hb : ¬ isBlank c) :
    l.scan findClass = l.scanToken findClass := by
  rw [scan_eq, trimmed, skipBlanks_of_not_blank (by rwa [peekChar_cons hl])]

theorem scan_hash {cs : List Char} (hl : l.chars = '#' :: cs) :
    l.scan findClass = l.scanHash := by
  have hp : l.peekChar = '#' := peekChar_cons hl
  rw [scan_of_not_blank hl (not_blank_iff.mpr (by decide)), scanToken]
  simp only [hp]
  rfl

theorem scan_cast {cs : List Char} (hl : l.chars = ':' :: '-' :: '>' :: cs) :
    l.scan findClass = buffered .castExpr (l.advance 3).readName := by
  have hp : l.peekChar = ':' := peekChar_cons hl
  have hp₁ : l.peekChar 1 = '-' := peekChar_eq hl 1
  have hp₂ : l.peekChar 2 = '>' := peekChar_eq hl 2
  rw [scan_of_not_blank hl (not_blank_iff.mpr (by decide)), scanToken]
  simp only [hp, hp₁, hp₂]
  rfl

theorem scan_new {cs : List Char} (hl : l.chars = 'n' :: 'e' :: 'w' :: ':' :: cs) :
    l.scan findClass = buffered .newExpr (l.advance 4).readName := by
  have hp : l.peekChar = 'n' := peekChar_cons hl
  have hp₁ : l.peekChar 1 = 'e' := peekChar_eq hl 1
  have hp₂ : l.peekChar 2 = 'w' := peekChar_eq hl 2
  have hp₃ : l.peekChar 3 = ':' := peekChar_eq hl 3
  rw [scan_of_not_blank hl (not_blank_iff.mpr (by decide)), scanToken]
  simp only [hp, hp₁, hp₂, hp₃]
  rfl

/-- A prefix of `n` characters that `NextToken` steps over before it reads a name. -/
theorem lexes_name {k : Token.Kind} {pre : List Char} (hw : IsClassName w)
    (hlen : w.length ≤ bufferSize)
    (hscan : ∀ {l : Lexer} {cs}, l.chars = pre ++ cs →
      l.scan findClass = buffered k (l.advance pre.length).readName) :
    Lexes findClass (pre ++ w) ⟨k, .ofList w⟩ := by
  intro l rest hl ha he
  rw [List.append_assoc] at hl
  have hargs : (l.advance pre.length).args = false := (args_advance _ l).trans ha
  obtain ⟨l', hrun, hl'⟩ := (readName_class hw (chars_advance hl) hargs he).1 hlen
  refine ⟨l', ?_, hl'⟩
  rw [hscan hl, hrun]
  rfl

/-- `#` in front of a name, when the name does not start like a boolean literal. -/
theorem lexes_instanceOf {cs : List Char} (hc : c.isAlpha = true)
    (hcs : ∀ d ∈ cs, d.isAlpha = true ∨ d.isDigit = true) (hlen : (c :: cs).length ≤ bufferSize)
    (ht : c.toLower ≠ 't') (hf : c.toLower ≠ 'f') :
    Lexes findClass ('#' :: (c :: cs ++ ['?'])) ⟨.instanceOfExpr, .ofList (c :: cs)⟩ := by
  intro l rest hl ha he
  rw [List.cons_append, List.append_assoc] at hl
  have hp₁ : l.peekChar 1 = c := peekChar_eq hl 1
  have hvalid : l.isValidIdentifierChar c = true := by
    rw [isValidIdentifierChar_eq ha]
    exact isNameChar_class (.inl hc) fun _ => hc
  obtain ⟨hrun, -⟩ := @readWhile_class l.nextChar (c :: cs) ('?' :: rest)
    (fun initial l => l.isValidIdentifierChar l.peekChar initial && l.peekChar != '?') true
    bufferSize
    (fun {i l d ds} ha hl hd hi => by
      have hne : d ≠ '?' := by
        rintro rfl
        exact absurd hd (by decide)
      rw [isValidIdentifierChar_eq ha, peekChar_cons hl, isNameChar_class hd hi]
      simpa using hne)
    (fun ha hl => by rw [peekChar_cons hl]; simp)
    (by simpa [hc] using hcs) (fun _ d hd => by cases hd; exact hc) (nextChar_cons hl)
    ((nextChar_args l).trans ha)
  obtain ⟨l', hread, hl', -⟩ := hrun hlen
  refine ⟨l'.nextChar, ?_, nextChar_cons hl'⟩
  rw [scan_hash hl, scanHash, hp₁]
  split
  · rename_i h
    exact absurd h hf
  · rename_i h
    exact absurd h ht
  · rw [if_pos hvalid, hread]
    change (if l'.peekChar = '?' then _ else _) = _
    rw [if_pos (peekChar_cons hl')]
    rfl

theorem lexes_bool {k : Token.Kind} (h : c.toLower = 't' ∧ k = .literalTrue ∨
    c.toLower = 'f' ∧ k = .literalFalse) : Lexes findClass ['#', c] ⟨k, ""⟩ := by
  intro l rest hl ha he
  have hp₁ : l.peekChar 1 = c := peekChar_eq hl 1
  refine ⟨l.advance 2, ?_, nextChar_cons (nextChar_cons hl)⟩
  rw [scan_hash hl, scanHash, hp₁]
  rcases h with ⟨hc, rfl⟩ | ⟨hc, rfl⟩ <;> simp only [hc]

/-- **The tokens with a class name in them** are the ones they should be exactly when the name does
not start like a boolean literal, and fits the buffer. -/
theorem classLexemes_iff (findClass : String → Option ClassId) (hw : IsClassName w) :
    ClassLexemes findClass w ↔
      w.length ≤ bufferSize ∧ ∀ c ∈ w.head?, c.toLower ≠ 't' ∧ c.toLower ≠ 'f' := by
  constructor
  · rintro ⟨hinst, hcast, -⟩
    constructor
    · by_contra hlong
      obtain ⟨l', hscan, -⟩ := hcast { chars := ':' :: '-' :: '>' :: w } []
        (List.append_nil _).symm rfl (by decide)
      have hfull := (@readName_class { chars := w } w [] hw (List.append_nil w).symm rfl
        (by decide)).2 (Nat.lt_of_not_le hlong)
      rw [scan_cast rfl] at hscan
      change buffered _ (readName { chars := w }) = _ at hscan
      rw [hfull] at hscan
      cases hscan
    · obtain ⟨c, cs, rfl, hc, -⟩ := hw
      rintro d hd
      obtain rfl : c = d := Option.some.inj hd
      obtain ⟨l', hscan, -⟩ := hinst { chars := '#' :: (c :: cs ++ ['?']) } []
        (List.append_nil _).symm rfl (by decide)
      have hpeek : Lexer.peekChar { chars := '#' :: (c :: cs ++ ['?']) } 1 = c := rfl
      rw [scan_hash rfl, scanHash, hpeek] at hscan
      constructor
      · intro h
        simp only [h] at hscan
        cases hscan
      · intro h
        simp only [h] at hscan
        cases hscan
  · rintro ⟨hlen, hfirst⟩
    refine ⟨?_, @lexes_name findClass w .castExpr [':', '-', '>'] hw hlen fun hl => scan_cast hl,
      @lexes_name findClass w .newExpr ['n', 'e', 'w', ':'] hw hlen fun hl => scan_new hl, ?_, ?_⟩
    · obtain ⟨c, cs, rfl, hc, hcs⟩ := hw
      obtain ⟨ht, hf⟩ := hfirst c rfl
      exact lexes_instanceOf hc hcs hlen ht hf
    · simp only [List.forall_mem_cons]
      exact ⟨lexes_bool (.inl ⟨by decide, rfl⟩), lexes_bool (.inl ⟨by decide, rfl⟩), by simp⟩
    · simp only [List.forall_mem_cons]
      exact ⟨lexes_bool (.inr ⟨by decide, rfl⟩), lexes_bool (.inr ⟨by decide, rfl⟩), by simp⟩

theorem classLexemes_iff_sample :
    ClassLexemes (fun _ => none) "Long".toList ↔ "Long".toList.length ≤ bufferSize ∧
      ∀ c ∈ "Long".toList.head?, c.toLower ≠ 't' ∧ c.toLower ≠ 'f' :=
  classLexemes_iff (fun _ => none)
    ⟨'L', "ong".toList, rfl, by decide, List.all_iff_forall_prop.mp (by decide)⟩

/-- `#Triple?` is the literal `#T` and a rest. -/
theorem classLexemes_triple :
    IsClassName "Triple".toList ∧ ¬ ClassLexemes (fun _ => none) "Triple".toList := by
  refine ⟨⟨'T', "riple".toList, rfl, by decide, List.all_iff_forall_prop.mp (by decide)⟩, ?_⟩
  rintro ⟨h, -⟩
  obtain ⟨l', hscan, -⟩ := h { chars := "#Triple?".toList } [] rfl rfl (by decide)
  have hrun : ({ chars := "#Triple?".toList } : Lexer).scan (fun _ => none) =
      .ok (⟨.literalTrue, ""⟩, { chars := "riple?".toList }) := by rfl
  rw [hrun] at hscan
  cases hscan

end Lexer

end Gel
