import Gel.Parser
import Gel.Support.Faulting

/-!
# Tokens — what looking ahead does not change

A token that was peeked is the one that is taken next, and it is peeked again.  An invalid token is
not kept but scanned again, from where the blanks in front of it end.
-/

namespace Gel

open Faulting

namespace Lexer

/-- A character in front of which `NextToken` calls itself. -/
def isBlank (c : Char) : Prop := c ∈ ['\n', '\t', '\r', ' '] ∨ c = ';'

theorem skipBlanks_of_not_blank {l : Lexer} (h : ¬ isBlank l.peekChar) (n : Nat) :
    l.skipBlanks n = l := by
  cases n with
  | zero => rfl
  | succ n => rw [skipBlanks, if_neg fun hb => h (.inl hb), if_neg fun hb => h (.inr hb)]

theorem chars_nextChar (l : Lexer) : l.nextChar.chars = l.chars.tail := by
  obtain ⟨chars, _, _, _⟩ := l
  cases chars <;> rfl

theorem length_chars_advance (n : Nat) (l : Lexer) :
    (l.advance n).chars.length = l.chars.length - n := by
  induction n generalizing l with
  | zero => rfl
  | succ n ih => rw [advance, ih, chars_nextChar, List.length_tail, Nat.sub_sub, Nat.add_comm]

theorem peekChar_nil {l : Lexer} (h : l.chars = []) : l.peekChar = eof := by
  rw [peekChar, h]
  rfl

theorem length_pos_of_blank {l : Lexer} (h : isBlank l.peekChar) : 0 < l.chars.length := by
  rw [List.length_pos_iff]
  intro hnil
  rw [peekChar_nil hnil] at h
  revert h
  unfold isBlank eof
  decide

/-- A comment has its semicolon. -/
theorem length_advanceUntil_lt {l : Lexer} (h : l.peekChar = ';') :
    (l.advanceUntil '\n').chars.length < l.chars.length := by
  have hpos := length_pos_of_blank (.inr h)
  rw [advanceUntil, length_chars_advance]
  refine Nat.sub_lt hpos ?_
  cases hl : l.chars with
  | nil => simp [hl] at hpos
  | cons c cs =>
      have hc : c = ';' := by simpa [peekChar, hl] using h
      subst hc
      rw [List.takeWhile_cons_of_pos (by decide)]
      simp

/-- Enough steps over blanks lead to a character that is none. -/
theorem not_blank_skipBlanks {n : Nat} {l : Lexer} (h : l.chars.length ≤ n) :
    ¬ isBlank (l.skipBlanks n).peekChar := by
  induction n generalizing l with
  | zero =>
      intro hb
      have hpos := length_pos_of_blank (l := l) hb
      omega
  | succ n ih =>
      rw [skipBlanks]
      by_cases hw : l.peekChar ∈ ['\n', '\t', '\r', ' ']
      · rw [if_pos hw]
        refine ih ?_
        rw [chars_nextChar, List.length_tail]
        omega
      · rw [if_neg hw]
        by_cases hs : l.peekChar = ';'
        · rw [if_pos hs]
          exact ih (Nat.le_of_lt_succ (Nat.lt_of_lt_of_le (length_advanceUntil_lt hs) h))
        · rw [if_neg hs]
          intro hb
          exact hb.elim hw hs

/-- The lexer after the blanks in front of the next token. -/
def trimmed (l : Lexer) : Lexer := l.skipBlanks l.chars.length

theorem trimmed_trimmed (l : Lexer) : l.trimmed.trimmed = l.trimmed :=
  skipBlanks_of_not_blank (not_blank_skipBlanks (Nat.le_refl _)) _

theorem scan_eq (findClass : String → Option ClassId) (l : Lexer) :
    l.scan findClass = l.trimmed.scanToken findClass := rfl

theorem scan_trimmed (findClass : String → Option ClassId) (l : Lexer) :
    l.trimmed.scan findClass = l.scan findClass := by
  rw [scan_eq, trimmed_trimmed, scan_eq]

/-! ### Invalid tokens -/

theorem punctuation_ne_invalid {c : Char} {k : Token.Kind} (h : punctuation c = some k) :
    k ≠ .invalid := by
  unfold punctuation at h
  split at h <;> cases h <;> decide

/-- A property of every kind that a word can have. -/
theorem find_keywords_kind {P : Token.Kind → Prop} (hP : ∀ e ∈ keywordList, P e.2)
    {w : List Char} {k : Token.Kind} (h : keywords.find w = some k) : P k := by
  rw [keywords, Trie.find_ofList] at h
  obtain ⟨l₁, l₂, hl, -⟩ := List.lookup_eq_some_iff.mp h
  have hmem : (w, k) ∈ (keywordList.map fun e => (e.1.toList, e.2)).reverse := by
    rw [hl]
    simp
  rw [List.mem_reverse] at hmem
  obtain ⟨e, he, heq⟩ := List.mem_map.mp hmem
  cases heq
  exact hP e he

/-- The kind of a word that ends at a node the keywords lead to. -/
theorem kindOfWord_kind {P : Token.Kind → Prop} (hP : ∀ e ∈ keywordList, P e.2)
    (hi : P .identifier) (l : Lexer) (w : List Char) :
    P (l.kindOfWord (Trie.descend (some keywords) w)) := by
  rw [kindOfWord]
  by_cases ha : l.args
  · rwa [if_pos ha]
  · rw [if_neg ha]
    cases hf : (Trie.descend (some keywords) w).bind Trie.value with
    | none => exact hi
    | some k => exact find_keywords_kind hP hf

theorem readIdentifier_kind {P : Token.Kind → Prop} (hP : ∀ e ∈ keywordList, P e.2)
    (hi : P .identifier) (hc : P .instanceOfExpr) {findClass : String → Option ClassId}
    {room : Nat} {w buf : List Char} {l l' : Lexer} {t : Token}
    (h : readIdentifier findClass room (Trie.descend (some keywords) w) buf l = .ok (t, l')) :
    P t.kind := by
  -- the node is the one some word `w` leads to, and stays one
  induction room generalizing w buf l with
  | zero =>
      rw [readIdentifier] at h
      split at h
      · split at h
        · split at h
          · cases h
            exact hc
          · cases h
        · split at h
          · cases h
            exact kindOfWord_kind hP hi _ w
          · split at h
            · cases h
              exact kindOfWord_kind hP hi _ w
            · cases h
      · cases h
        exact kindOfWord_kind hP hi _ w
  | succ room ih =>
      rw [readIdentifier] at h
      split at h
      · split at h
        · split at h
          · cases h
            exact hc
          · exact ih h
        · split at h
          · cases h
            exact kindOfWord_kind hP hi _ w
          · split at h
            · cases h
              exact kindOfWord_kind hP hi _ w
            · have hw : (Trie.descend (some keywords) w).bind (·.child? l.peekChar) =
                  Trie.descend (some keywords) (w ++ [l.peekChar]) := by
                rw [Trie.descend_append]
                rfl
              rw [hw] at h
              exact ih h
      · cases h
        exact kindOfWord_kind hP hi _ w

/-- An invalid token consumes nothing. -/
theorem scanWord_invalid {findClass : String → Option ClassId} {l l' : Lexer} {t : Token}
    (h : l.scanWord findClass = .ok (t, l')) (ht : t.kind = .invalid) : l' = l := by
  rw [scanWord] at h
  dsimp only at h
  split at h
  · obtain ⟨⟨text, l₁⟩, -, h⟩ := result_bind_eq_ok.mp h
    cases h
    cases ht
  · split at h
    · obtain ⟨⟨whole, text, l₁⟩, -, h⟩ := result_bind_eq_ok.mp h
      cases h
      cases whole <;> cases ht
    · split at h
      · exact absurd ht (readIdentifier_kind (P := (· ≠ .invalid)) (w := []) (by decide) (by decide)
          (by decide) h)
      · cases h
        rfl

theorem scanHash_kind {l l' : Lexer} {t : Token} (h : l.scanHash = .ok (t, l')) :
    t.kind ∈ [.literalFalse, .literalTrue, .instanceOfExpr, .hash] := by
  rw [scanHash] at h
  split at h
  · cases h
    decide
  · cases h
    decide
  · split at h
    · obtain ⟨⟨name, l₁⟩, -, h⟩ := result_bind_eq_ok.mp h
      dsimp only at h
      split at h
      · cases h
        simp
      · cases h
    · cases h
      decide

theorem scanParameter_kind {l l' : Lexer} {t : Token} (h : l.scanParameter = .ok (t, l')) :
    t.kind = .identifier := by
  rw [scanParameter] at h
  split at h
  · obtain ⟨⟨digits, l₁⟩, -, h⟩ := result_bind_eq_ok.mp h
    cases h
    rfl
  · cases h
    rfl

theorem buffered_kind {k : Token.Kind} {r : Except Fault (List Char × Lexer)} {l' : Lexer}
    {t : Token} (h : buffered k r = .ok (t, l')) : t.kind = k := by
  cases r with
  | error e => cases h
  | ok r =>
      cases h
      rfl

theorem scanToken_invalid {findClass : String → Option ClassId} {l l' : Lexer} {t : Token}
    (h : l.scanToken findClass = .ok (t, l')) (ht : t.kind = .invalid) : l' = l := by
  rw [scanToken] at h
  cases hp : punctuation l.peekChar with
  | some k =>
      rw [hp] at h
      cases h
      exact absurd ht (punctuation_ne_invalid hp)
  | none =>
      rw [hp] at h
      dsimp only at h
      split at h
      · rw [scanDot] at h
        split at h
        · cases h
          cases hl : l.args <;> rw [hl] at ht <;> cases ht
        · cases h
          cases ht
      split at h
      · have hk := scanHash_kind h
        rw [ht] at hk
        exact absurd hk (by decide)
      split at h
      · rw [scanParameter_kind h] at ht
        cases ht
      split at h
      · cases h
        cases ht
      split at h
      · rw [scanComparison] at h
        split at h <;> cases h <;> cases ht
      split at h
      · rw [scanComparison] at h
        split at h <;> cases h <;> cases ht
      split at h
      · cases h
        rfl
      split at h
      · rw [buffered_kind h] at ht
        cases ht
      split at h
      · rw [buffered_kind h] at ht
        cases ht
      exact scanWord_invalid h ht

/-- An invalid token is scanned again. -/
theorem scan_invalid {findClass : String → Option ClassId} {l l' : Lexer} {t : Token}
    (h : l.scan findClass = .ok (t, l')) (ht : t.kind = .invalid) :
    l'.scan findClass = .ok (t, l') := by
  obtain rfl : l' = l.trimmed := scanToken_invalid h ht
  rw [scan_trimmed]
  exact h

end Lexer

namespace Parser

variable {reg : Registry} {p q : Parser}

theorem nextToken_some {t : Token} (h : p.peek = some t) :
    nextToken reg p = .ok (t, { p with peek := none }) := by
  rw [nextToken, bind_run (get_run p), h]
  rfl

theorem nextToken_none {t : Token} {l : Lexer} (h : p.peek = none)
    (hs : p.lexer.scan reg.findClass = .ok (t, l)) :
    nextToken reg p = .ok (t, { p with lexer := l }) := by
  rw [nextToken, bind_run (get_run p), h]
  exact bind_run (lift_run hs)

/-- The token that is taken was peeked, or is scanned. -/
theorem nextToken_eq_ok {t : Token} (h : nextToken reg p = .ok (t, q)) :
    p.peek = some t ∧ q = { p with peek := none } ∨
      p.peek = none ∧ ∃ l, p.lexer.scan reg.findClass = .ok (t, l) ∧ q = { p with lexer := l } := by
  cases hp : p.peek with
  | some t' =>
      rw [nextToken_some hp] at h
      cases h
      exact .inl ⟨rfl, rfl⟩
  | none =>
      cases hs : p.lexer.scan reg.findClass with
      | error e =>
          have herr : nextToken reg p = .error e := by
            rw [nextToken, bind_run (get_run p), hp]
            refine bind_run_error ?_
            rw [hs]
            rfl
          rw [herr] at h
          cases h
      | ok r =>
          obtain ⟨t', l⟩ := r
          rw [nextToken_none hp hs] at h
          cases h
          exact .inr ⟨rfl, l, rfl, by rw [hp]⟩

theorem peekToken_some {t : Token} (h : p.peek = some t) : peekToken reg p = .ok (t, p) := by
  rw [peekToken, bind_run (get_run p), h]
  rfl

theorem peekToken_none (h : p.peek = none) {t : Token} (hn : nextToken reg p = .ok (t, q)) :
    peekToken reg p = .ok (t, { q with peek := if t.kind = .invalid then none else some t }) := by
  rw [peekToken, bind_run (get_run p), h]
  exact bind_run hn

/-- Looking at a token is taking it and, unless it is invalid, putting it back. -/
theorem peekToken_eq_ok {t : Token} (h : peekToken reg p = .ok (t, q)) :
    p.peek = some t ∧ q = p ∨ p.peek = none ∧ ∃ l, p.lexer.scan reg.findClass = .ok (t, l) ∧
      q = { p with lexer := l, peek := if t.kind = .invalid then none else some t } := by
  cases hp : p.peek with
  | some t' =>
      rw [peekToken_some hp] at h
      cases h
      exact .inl ⟨rfl, rfl⟩
  | none =>
      have h' := h
      rw [peekToken, bind_run (get_run p), hp] at h'
      obtain ⟨t', p₁, hn, -⟩ := bind_eq_ok.mp h'
      rw [peekToken_none hp hn] at h
      cases h
      obtain ⟨hs, -⟩ | ⟨-, l, hs, rfl⟩ := nextToken_eq_ok hn
      · rw [hp] at hs
        cases hs
      · exact .inr ⟨rfl, l, hs, rfl⟩

/-- **The token that was looked at is taken next.** -/
theorem nextToken_of_peek {t : Token} (h : peekToken reg p = .ok (t, q)) :
    nextToken reg q = nextToken reg p := by
  obtain ⟨-, rfl⟩ | ⟨hp, l, hs, rfl⟩ := peekToken_eq_ok h
  · rfl
  · rw [nextToken_none hp hs]
    by_cases ht : t.kind = .invalid
    · rw [if_pos ht, nextToken_none rfl (Lexer.scan_invalid hs ht), hp]
    · rw [if_neg ht, nextToken_some rfl, hp]

/-- **A token that was looked at is looked at again.** -/
theorem peekToken_of_peek {t : Token} (h : peekToken reg p = .ok (t, q)) :
    peekToken reg q = .ok (t, q) := by
  obtain ⟨hp, rfl⟩ | ⟨hp, l, hs, rfl⟩ := peekToken_eq_ok h
  · exact peekToken_some hp
  · by_cases ht : t.kind = .invalid
    · rw [if_pos ht, peekToken_none rfl (nextToken_none rfl (Lexer.scan_invalid hs ht)), if_pos ht]
    · rw [if_neg ht, peekToken_some rfl]

theorem peekKind_eq_ok {k : Token.Kind} (h : peekKind reg p = .ok (k, q)) :
    ∃ t, peekToken reg p = .ok (t, q) ∧ t.kind = k := map_eq_ok.mp h

theorem peekKind_of_peek {k : Token.Kind} (h : peekKind reg p = .ok (k, q)) :
    peekKind reg q = .ok (k, q) := by
  obtain ⟨t, ht, rfl⟩ := peekKind_eq_ok h
  exact map_run (peekToken_of_peek ht)

theorem expectNext_of_peek {k k' : Token.Kind} (h : peekKind reg p = .ok (k, q)) :
    expectNext reg k' q = expectNext reg k' p := by
  obtain ⟨t, ht, rfl⟩ := peekKind_eq_ok h
  change (nextToken reg q).bind _ = (nextToken reg p).bind _
  rw [nextToken_of_peek ht]

end Parser

end Gel
