import Gel.Depth

/-!
# Quoted data — where `ParseQuotedExpr` stops

The reader steps over white space, copies a character, and then copies on until the counter is back
where it was in front of a `)` or a white space.  The end of the input is a white space that
`NextChar` does not step over.

* `scanningEnds_iff`: the loops of `NextToken` always end; those of the reader end exactly when
  there is a character to copy and the counter comes back.
* `quotes_iff`: a datum is read whole exactly when the counter is not back before its end, and is
  back at its end; strings are counted like anything else.
-/

namespace Gel

open Faulting

namespace Lexer

variable {findClass : String → Option ClassId} {l l' m : Lexer} {c : Char} {cs u v rest : List Char}
  {depth : UInt64} {room n : Nat}

/-! ### The loops of `NextToken` -/

/-- A loop ends that has room for every character that is left. -/
theorem readWhile_ends {p : Bool → Lexer → Bool} (hp : ∀ {i l}, l.chars = [] → p i l = false)
    (i : Bool) (h : l.chars.length ≤ room) : ∃ r, readWhile p room i l = .ok r := by
  induction room generalizing i l with
  | zero =>
      have hnil : l.chars = [] := List.length_eq_zero_iff.mp (Nat.le_zero.mp h)
      exact ⟨_, readWhile_stop (hp hnil) 0⟩
  | succ room ih =>
      cases hstep : p i l with
      | false => exact ⟨_, readWhile_stop hstep _⟩
      | true =>
          have hlen : l.nextChar.chars.length ≤ room := by
            rw [chars_nextChar, List.length_tail]
            exact Nat.sub_le_of_le_add h
          obtain ⟨r, hr⟩ := ih false hlen
          refine ⟨(l.peekChar :: r.1, r.2), ?_⟩
          rw [readWhile, if_pos hstep]
          dsimp only
          rw [hr]
          rfl

theorem not_isValidIdentifierChar_eof (h : l.chars = []) (i : Bool) :
    l.isValidIdentifierChar l.peekChar i = false := by
  rw [peekChar_nil h]
  cases i <;> rfl

theorem length_nextChar_le (h : l.chars.length ≤ room + 1) : l.nextChar.chars.length ≤ room := by
  rw [chars_nextChar, List.length_tail]
  exact Nat.sub_le_of_le_add h

theorem readNumber_ends (whole : Bool) (h : l.chars.length ≤ room) :
    ∃ r, readNumber room whole l = .ok r := by
  induction room generalizing whole l with
  | zero =>
      have hnil : l.chars = [] := List.length_eq_zero_iff.mp (Nat.le_zero.mp h)
      exact ⟨_, readNumber_stop (by rw [peekChar_nil hnil]; rfl) 0⟩
  | succ room ih =>
      obtain ⟨r, hr⟩ := ih (whole && l.peekChar != '.') (length_nextChar_le h)
      rw [readNumber]
      split
      · refine ⟨(r.1, l.peekChar :: r.2.1, r.2.2), ?_⟩
        dsimp only
        rw [hr]
        rfl
      · exact ⟨_, rfl⟩

theorem readIdentifier_ends (findClass : String → Option ClassId)
    (ckw : Option (Trie Char Token.Kind)) (buf : List Char) (h : l.chars.length ≤ room) :
    ∃ r, readIdentifier findClass room ckw buf l = .ok r := by
  induction room generalizing ckw buf l with
  | zero =>
      have hnil : l.chars = [] := List.length_eq_zero_iff.mp (Nat.le_zero.mp h)
      exact ⟨_, readIdentifier_stop (not_isValidIdentifierChar_eof hnil _) 0⟩
  | succ room ih =>
      rw [readIdentifier]
      split
      · split
        · split
          · exact ⟨_, rfl⟩
          · exact ih _ _ (length_nextChar_le h)
        · split
          · exact ⟨_, rfl⟩
          · split
            · exact ⟨_, rfl⟩
            · exact ih _ _ (length_nextChar_le h)
      · exact ⟨_, rfl⟩

theorem skipBlanks_add (n m : Nat) (l : Lexer) :
    l.skipBlanks (n + m) = (l.skipBlanks n).skipBlanks m := by
  induction n generalizing l with
  | zero => rw [Nat.zero_add, skipBlanks]
  | succ n ih =>
      by_cases hb : isBlank l.peekChar
      · rw [Nat.add_right_comm, skipBlanks, skipBlanks]
        rcases hb with hw | hs
        · rw [if_pos hw, if_pos hw, ih]
        · have hw : l.peekChar ∉ ['\n', '\t', '\r', ' '] := by
            rw [hs]
            decide
          rw [if_neg hw, if_neg hw, if_pos hs, if_pos hs, ih]
      · rw [skipBlanks_of_not_blank hb, skipBlanks_of_not_blank hb, skipBlanks_of_not_blank hb]

/-- `AdvanceUntil` stops where it should, or at the end. -/
theorem peekChar_advanceUntil (c : Char) (l : Lexer) :
    (l.advanceUntil c).peekChar ∈ [c, '\x00', eof] := by
  have hchars := chars_advance (List.takeWhile_append_dropWhile
    (p := fun d => d != c && d != '\x00' && d != eof) (l := l.chars)).symm
  have hhead := List.head?_dropWhile_not (fun d => d != c && d != '\x00' && d != eof) l.chars
  rw [advanceUntil, peekChar, hchars]
  cases hrest : l.chars.dropWhile fun d => d != c && d != '\x00' && d != eof with
  | nil => simp
  | cons d ds =>
      rw [hrest] at hhead
      have hd : (d != c && d != '\x00' && d != eof) = false := hhead
      rw [List.getD_cons_zero]
      by_contra hne
      simp only [List.mem_cons, List.not_mem_nil, or_false, not_or] at hne
      simp [hne] at hd

/-- The loops that `NextToken` can start from this position end, the buffer aside. -/
structure LoopsEnd (findClass : String → Option ClassId) (l : Lexer) : Prop where
  blanks : ∃ n, ∀ m, l.skipBlanks (n + m) = l.skipBlanks n
  comment : ∀ c, (l.advanceUntil c).peekChar ∈ [c, '\x00', eof]
  name : ∃ room r, readWhile (fun initial l => l.isValidIdentifierChar l.peekChar initial) room true
    l = .ok r
  instanceOf : ∃ room r, readWhile (fun initial l =>
    l.isValidIdentifierChar l.peekChar initial && l.peekChar != '?') room true l = .ok r
  parameter : ∃ room r, readWhile (fun _ l => isValidNumberChar l.peekChar) room false l = .ok r
  string : ∃ room r, readWhile (fun _ l => isValidStringCharacter l.peekChar) room true l = .ok r
  number : ∃ room r, readNumber room true l = .ok r
  identifier : ∃ room r, readIdentifier findClass room (some keywords) [] l = .ok r

theorem loopsEnd (findClass : String → Option ClassId) (l : Lexer) : LoopsEnd findClass l where
  blanks := by
    refine ⟨l.chars.length, fun m => ?_⟩
    rw [skipBlanks_add]
    exact skipBlanks_of_not_blank (not_blank_skipBlanks (Nat.le_refl _)) m
  comment := fun c => peekChar_advanceUntil c l
  name := ⟨_, readWhile_ends (fun h => not_isValidIdentifierChar_eof h _) true (Nat.le_refl _)⟩
  instanceOf := ⟨_, readWhile_ends
    (fun h => by rw [not_isValidIdentifierChar_eof h, Bool.false_and]) true (Nat.le_refl _)⟩
  parameter := ⟨_, readWhile_ends (fun h => by rw [peekChar_nil h]; rfl) false (Nat.le_refl _)⟩
  string := ⟨_, readWhile_ends (fun h => by rw [peekChar_nil h]; rfl) true (Nat.le_refl _)⟩
  number := ⟨_, readNumber_ends true (Nat.le_refl _)⟩
  identifier := ⟨_, readIdentifier_ends findClass (some keywords) [] (Nat.le_refl _)⟩

/-! ### The loops of the reader -/

theorem skipWhitespace_run {ws : List Char} (hl : l.chars = ws ++ c :: cs)
    (hws : ∀ d ∈ ws, isWhitespaceChar d = true) (hc : isWhitespaceChar c = false)
    (hn : ws.length < n) : l.skipWhitespace n = .ok (l.advance ws.length) := by
  induction ws generalizing l n with
  | nil =>
      obtain ⟨n, rfl⟩ := Nat.exists_eq_succ_of_ne_zero (Nat.ne_of_gt hn)
      have hp : l.peekChar = c := peekChar_cons hl
      rw [skipWhitespace, hp, hc]
      rfl
  | cons d ws ih =>
      obtain ⟨n, rfl⟩ := Nat.exists_eq_succ_of_ne_zero (Nat.ne_of_gt (Nat.zero_lt_of_lt hn))
      have hp : l.peekChar = d := peekChar_cons hl
      rw [skipWhitespace, hp, hws d List.mem_cons_self, if_pos rfl]
      exact ih (nextChar_cons hl) (fun e he => hws e (List.mem_cons_of_mem _ he))
        (Nat.lt_of_succ_lt_succ hn)

/-- `SkipWhitespace` only ends at a character. -/
theorem skipWhitespace_eq_ok (h : l.skipWhitespace n = .ok m) : ∃ ws c cs, l.chars = ws ++ c :: cs ∧
    (∀ d ∈ ws, isWhitespaceChar d = true) ∧ isWhitespaceChar c = false ∧
      m = l.advance ws.length := by
  induction n generalizing l with
  | zero => cases h
  | succ n ih =>
      rw [skipWhitespace] at h
      cases hl : l.chars with
      | nil =>
          -- at the end of the input the next character stays the one that is skipped
          have hnext : l.nextChar.chars = [] := by rw [chars_nextChar, hl]; rfl
          rw [peekChar_nil hl] at h
          obtain ⟨ws, c, cs, hcs, -⟩ := ih h
          rw [hnext] at hcs
          exact absurd hcs.symm (by simp)
      | cons c cs =>
          rw [peekChar_cons hl] at h
          by_cases hc : isWhitespaceChar c = true
          · rw [if_pos hc] at h
            obtain ⟨ws, d, ds, hds, hws, hd, rfl⟩ := ih h
            rw [nextChar_cons hl] at hds
            refine ⟨c :: ws, d, ds, by rw [hds]; rfl, ?_, hd, rfl⟩
            rw [List.forall_mem_cons]
            exact ⟨hc, hws⟩
          · rw [if_neg hc] at h
            cases h
            exact ⟨[], c, cs, rfl, by simp, by simpa using hc, rfl⟩

theorem skipWhitespace_unique {n' : Nat} {m' : Lexer} (h : l.skipWhitespace n = .ok m)
    (h' : l.skipWhitespace n' = .ok m') : m = m' := by
  induction n generalizing n' l with
  | zero => cases h
  | succ n ih =>
      cases n' with
      | zero => cases h'
      | succ n' =>
          rw [skipWhitespace] at h h'
          by_cases hc : isWhitespaceChar l.peekChar = true
          · rw [if_pos hc] at h h'
            exact ih h h'
          · rw [if_neg hc] at h h'
            cases h
            cases h'
            rfl

/-- What ends the loop of the reader. -/
def stops (depth : UInt64) (l : Lexer) : Bool :=
  (l.peekChar = ')' || isWhitespaceChar l.peekChar) && l.depth ≤ depth

/-- The next characters. -/
def taken : Nat → Lexer → List Char
  | 0, _ => []
  | n + 1, l => l.peekChar :: taken n l.nextChar

theorem length_taken (n : Nat) (l : Lexer) : (l.taken n).length = n := by
  induction n generalizing l with
  | zero => rfl
  | succ n ih => rw [taken, List.length_cons, ih]

theorem taken_eq (h : n ≤ l.chars.length) : l.taken n = l.chars.take n := by
  induction n generalizing l with
  | zero => rfl
  | succ n ih =>
      obtain ⟨c, cs, hl⟩ := List.exists_cons_of_length_pos (Nat.zero_lt_of_lt h)
      rw [hl, List.length_cons] at h
      rw [taken, ih (by rw [nextChar_cons hl]; exact Nat.le_of_succ_le_succ h), nextChar_cons hl,
        peekChar_cons hl, hl, List.take_succ_cons]

/-- The loop of the reader stops behind `n + 1` characters, and no sooner. -/
structure StopsAfter (depth : UInt64) (l : Lexer) (n : Nat) : Prop where
  goes : ∀ k < n, stops depth (l.advance (k + 1)) = false
  stops : stops depth (l.advance (n + 1)) = true

theorem StopsAfter.next (h : StopsAfter depth l (n + 1)) : StopsAfter depth l.nextChar n where
  goes := fun k hk => h.goes (k + 1) (Nat.succ_lt_succ hk)
  stops := h.stops

theorem readQuoted_run (h : StopsAfter depth l n) (hn : n < room) :
    l.readQuoted depth room = .ok (l.taken (n + 1), l.advance (n + 1)) := by
  induction n generalizing l room with
  | zero =>
      obtain ⟨room, rfl⟩ := Nat.exists_eq_succ_of_ne_zero (Nat.ne_of_gt hn)
      rw [readQuoted]
      exact if_pos h.stops
  | succ n ih =>
      obtain ⟨room, rfl⟩ := Nat.exists_eq_succ_of_ne_zero (Nat.ne_of_gt (Nat.zero_lt_of_lt hn))
      have hfirst : Lexer.stops depth l.nextChar = false := h.goes 0 (Nat.succ_pos n)
      have hgo : ¬ Lexer.stops depth l.nextChar = true := by
        rw [hfirst]
        exact Bool.false_ne_true
      rw [readQuoted]
      refine (if_neg hgo).trans ?_
      rw [ih h.next (Nat.lt_of_succ_lt_succ hn)]
      rfl

theorem readQuoted_eq_ok (h : l.readQuoted depth room = .ok (cs, l')) :
    ∃ n < room, StopsAfter depth l n ∧ cs = l.taken (n + 1) ∧ l' = l.advance (n + 1) := by
  induction room generalizing l cs with
  | zero => cases h
  | succ room ih =>
      rw [readQuoted] at h
      by_cases hstop : stops depth l.nextChar = true
      · have heq := (if_pos hstop).symm.trans h
        cases heq
        exact ⟨0, Nat.succ_pos room, ⟨fun k hk => absurd hk (Nat.not_lt_zero k), hstop⟩, rfl, rfl⟩
      · obtain ⟨⟨cs', l₁⟩, hrun, heq⟩ := result_bind_eq_ok.mp ((if_neg hstop).symm.trans h)
        cases heq
        obtain ⟨n, hn, hafter, rfl, rfl⟩ := ih hrun
        refine ⟨n + 1, Nat.succ_lt_succ hn, ⟨fun k hk => ?_, hafter.stops⟩, rfl, rfl⟩
        cases k with
        | zero => exact Bool.not_eq_true _ ▸ hstop
        | succ k => exact hafter.goes k (Nat.lt_of_succ_lt_succ hk)

/-- Where a datum may end. -/
def Delimits (v : List Char) : Prop :=
  v.getD 0 eof = ')' ∨ isWhitespaceChar (v.getD 0 eof) = true

theorem stops_advance (n : Nat) (l : Lexer) : stops depth (l.advance n) = true ↔
    Delimits (l.chars.drop n) ∧ level l.depth (l.chars.take n) ≤ depth := by
  rw [stops, depth_advance, peekChar_eq (chars_advance_eq n l), Delimits]
  simp

theorem exists_stopsAfter (h : stops depth (l.advance (n + 1)) = true) :
    ∃ n, StopsAfter depth l n := by
  have hex : ∃ n, stops depth (l.advance (n + 1)) = true := ⟨n, h⟩
  exact ⟨Nat.find hex, fun k hk => by simpa using Nat.find_min hex hk, Nat.find_spec hex⟩

/-- Behind the quote there is a character to copy, and a place to stop at from it on. -/
def Closes (depth : UInt64) (l : Lexer) : Prop :=
  ∃ ws c u v, l.chars = ws ++ c :: (u ++ v) ∧ (∀ d ∈ ws, isWhitespaceChar d = true) ∧
    isWhitespaceChar c = false ∧ Delimits v ∧ level l.depth (c :: u) ≤ depth

theorem ne_paren_of_whitespace (h : isWhitespaceChar c = true) : c ≠ '(' ∧ c ≠ ')' := by
  constructor
  · rintro rfl
    cases h
  · rintro rfl
    cases h

theorem depth_advance_whitespace {ws : List Char} (hl : l.chars = ws ++ cs)
    (hws : ∀ d ∈ ws, isWhitespaceChar d = true) : (l.advance ws.length).depth = l.depth := by
  rw [depth_advance, hl, List.take_left]
  exact level_eq_self fun d hd => ne_paren_of_whitespace (hws d hd)

/-- The loops of the reader end, the buffer aside. -/
def ReaderEnds (depth : UInt64) (l : Lexer) : Prop :=
  ∃ n m, l.skipWhitespace n = .ok m ∧ ∃ room r, m.readQuoted depth room = .ok r

theorem readerEnds_iff : ReaderEnds depth l ↔ Closes depth l := by
  constructor
  · rintro ⟨n, m, hskip, room, ⟨text, l'⟩, hread⟩
    obtain ⟨ws, c, cs, hl, hws, hc, rfl⟩ := skipWhitespace_eq_ok hskip
    obtain ⟨k, -, hafter, -⟩ := readQuoted_eq_ok hread
    obtain ⟨hend, hlevel⟩ := (stops_advance _ _).mp hafter.stops
    rw [chars_advance hl] at hend hlevel
    rw [depth_advance_whitespace hl hws] at hlevel
    refine ⟨ws, c, cs.take k, cs.drop k, ?_, hws, hc, hend, hlevel⟩
    rw [List.take_append_drop, hl]
  · rintro ⟨ws, c, u, v, hl, hws, hc, hend, hlevel⟩
    have hm : (l.advance ws.length).chars = (c :: u) ++ v := chars_advance hl
    have hstop : stops depth ((l.advance ws.length).advance (u.length + 1)) = true := by
      rw [stops_advance, hm, depth_advance_whitespace hl hws]
      exact ⟨by simpa using hend, by simpa using hlevel⟩
    obtain ⟨n, hafter⟩ := exists_stopsAfter hstop
    exact ⟨_, _, skipWhitespace_run hl hws hc (Nat.lt_succ_self _), _, _,
      readQuoted_run hafter (Nat.lt_succ_self n)⟩

end Lexer

namespace Parser

variable {reg : Registry} {p q : Parser}

/-- `NextToken` and `ParseQuotedExpr` end, the buffer aside. -/
def ScanningEnds (reg : Registry) (p : Parser) : Prop :=
  (∀ l, Lexer.LoopsEnd reg.findClass l) ∧
    ∀ t q, expectNext reg .quote p = .ok (t, q) → q.lexer.ReaderEnds p.lexer.depth

/-- **Scanning ends** exactly when a datum that closes is behind the quote. -/
theorem scanningEnds_iff (reg : Registry) (p : Parser) : ScanningEnds reg p ↔
    ∀ t q, expectNext reg .quote p = .ok (t, q) → q.lexer.Closes p.lexer.depth := by
  constructor
  · rintro ⟨-, hread⟩ t q hq
    exact Lexer.readerEnds_iff.mp (hread t q hq)
  · intro h
    exact ⟨Lexer.loopsEnd reg.findClass, fun t q hq => Lexer.readerEnds_iff.mpr (h t q hq)⟩

/-- Nothing behind a quote, and a list that is not closed. -/
theorem not_scanningEnds : ¬ ScanningEnds {} { lexer := { chars := ['\''] } } ∧
    ¬ ScanningEnds {} { lexer := { chars := ['\'', '(', 'a'] } } := by
  constructor
  · rintro ⟨-, hread⟩
    have hends := hread ⟨.quote, ""⟩ { lexer := { chars := [] } } rfl
    obtain ⟨ws, c, u, v, hl, -⟩ := Lexer.readerEnds_iff.mp hends
    exact absurd hl (by simp)
  · rintro ⟨-, hread⟩
    have hends := hread ⟨.quote, ""⟩ { lexer := { chars := ['(', 'a'] } } rfl
    obtain ⟨ws, c, u, v, hl, hws, -, -, hlevel⟩ := Lexer.readerEnds_iff.mp hends
    cases ws with
    | cons d ws =>
        obtain ⟨rfl, -⟩ := List.cons.inj hl
        exact absurd (hws _ List.mem_cons_self) (by decide)
    | nil =>
        obtain ⟨rfl, huv⟩ := List.cons.inj hl
        have hu : ∀ d ∈ u, d ≠ '(' ∧ d ≠ ')' := by
          intro d hd
          have hmem : d ∈ ['a'] := by
            rw [huv]
            exact List.mem_append_left v hd
          rw [List.mem_singleton.mp hmem]
          decide
        have hone : Lexer.level 0 ('(' :: u) = 1 := Lexer.level_eq_self hu
        rw [hone] at hlevel
        exact absurd hlevel (by decide)

end Parser

/-! ### Data -/

/-- A datum, with the given characters in its string literals. -/
inductive Datum (ok : Char → Prop) : List Char → Prop where
  | identifier {c : Char} {cs : List Char} (h : Lexer.isNameChar c true = true)
      (hs : ∀ d ∈ cs, Lexer.isNameChar d = true) : Datum ok (c :: cs)
  | number {c : Char} {cs : List Char} (h : c.isDigit = true)
      (hs : ∀ d ∈ cs, isValidNumberChar d = true) : Datum ok (c :: cs)
  | string {cs : List Char} (h : ∀ d ∈ cs, ok d) : Datum ok ('"' :: (cs ++ ['"']))
  | nil : Datum ok ['(', ')']
  /-- A datum at the front of a list. -/
  | cons {d cs : List Char} (h : Datum ok d) (hs : Datum ok ('(' :: cs)) :
      Datum ok ('(' :: (d ++ cs))
  | blank {c : Char} {cs : List Char} (h : c ∈ [' ', '\t', '\r', '\n'])
      (hs : Datum ok ('(' :: cs)) : Datum ok ('(' :: c :: cs)

theorem not_whitespace_of_name {c : Char} {i : Bool} (h : Lexer.isNameChar c i = true) :
    isWhitespaceChar c = false := by
  by_contra hc
  have hall : ∀ c ∈ [' ', '\t', '\r', '\n', eof], ∀ i, Lexer.isNameChar c i = false :=
    List.all_iff_forall_prop.mp (by decide)
  rw [hall c (by simpa [isWhitespaceChar, or_iff_not_imp_left] using hc) i] at h
  cases h

theorem not_whitespace_of_number {c : Char} {whole : Bool}
    (h : isValidNumberChar c whole = true) : isWhitespaceChar c = false := by
  by_contra hc
  have hall : ∀ c ∈ [' ', '\t', '\r', '\n', eof], ∀ whole, isValidNumberChar c whole = false :=
    List.all_iff_forall_prop.mp (by decide)
  rw [hall c (by simpa [isWhitespaceChar, or_iff_not_imp_left] using hc) whole] at h
  cases h

/-- The first character of a datum is one to copy. -/
theorem Datum.first {ok : Char → Prop} {c : Char} {cs : List Char} (h : Datum ok (c :: cs)) :
    isWhitespaceChar c = false := by
  cases h with
  | identifier h => exact not_whitespace_of_name h
  | number h => exact @not_whitespace_of_number c true (by rw [isValidNumberChar, h]; rfl)
  | string => rfl
  | nil => rfl
  | cons => rfl
  | blank => rfl

/-- The counter is back at the end of the datum, and not before it where the datum could end. -/
structure Readable (depth : UInt64) (d : List Char) : Prop where
  goes : ∀ u v, d = u ++ v → u ≠ [] → v ≠ [] → Lexer.Delimits v → depth < Lexer.level depth u
  returns : Lexer.level depth d = depth

/-- The expression a datum is read as. -/
def quotation (d : List Char) : Expr :=
  if d = ['(', ')'] then .literal .null else .quoted (.string (.ofList d))

theorem quotation_inj {d d' : List Char} (h : quotation d = quotation d') : d = d' := by
  rw [quotation, quotation] at h
  split at h
  · rename_i hd
    split at h
    · rename_i hd'
      rw [hd, hd']
    · cases h
  · split at h
    · cases h
    · exact String.ofList_injective (by simpa using h)

namespace Parser

variable {reg : Registry} {p q : Parser} {n : Nat} {d rest : List Char}

/-- The parser is at a quote, or has peeked it, and the datum `d` is behind it. -/
def AtQuote (p : Parser) (d rest : List Char) : Prop :=
  ∃ ws, (∀ c ∈ ws, isWhitespaceChar c = true) ∧
    ((∃ t, p.peek = some t ∧ t.kind = .quote ∧ p.lexer.chars = ws ++ (d ++ rest)) ∨
      p.peek = none ∧ p.lexer.chars = '\'' :: (ws ++ (d ++ rest)))

/-- `ParseQuotedExpr` takes `d`, yields it and leaves the counter as it was. -/
def Quotes (reg : Registry) (p : Parser) (d rest : List Char) : Prop :=
  ∃ n q, parseQuotedExpr reg n p = .ok (quotation d, q) ∧ q.lexer.chars = rest ∧
    q.lexer.depth = p.lexer.depth

theorem parseQuotedExpr_eq_ok {e : Expr} : parseQuotedExpr reg n p = .ok (e, q) ↔
    ∃ t q₁ m text l, expectNext reg .quote p = .ok (t, q₁) ∧ q₁.lexer.skipWhitespace n = .ok m ∧
      m.readQuoted p.lexer.depth bufferSize = .ok (text, l) ∧ e = quotation text ∧
      q = { q₁ with lexer := l } := by
  constructor
  · intro h
    obtain ⟨p₀, p₁, hget, h⟩ := bind_eq_ok.mp h
    cases hget
    obtain ⟨t, q₁, hq, h⟩ := bind_eq_ok.mp h
    obtain ⟨_, _, hget, h⟩ := bind_eq_ok.mp h
    obtain ⟨rfl, rfl⟩ := Prod.mk.inj (Except.ok.inj hget)
    obtain ⟨m, _, hskip, h⟩ := bind_eq_ok.mp h
    obtain ⟨hm, rfl⟩ := lift_eq_ok.mp hskip
    obtain ⟨⟨text, l⟩, q, hread, h⟩ := bind_eq_ok.mp h
    obtain ⟨hl, rfl⟩ := lift_eq_ok.mp hread
    cases h
    exact ⟨t, q, m, text, l, hq, hm, hl, rfl, rfl⟩
  · rintro ⟨t, q₁, m, text, l, hq, hm, hl, rfl, rfl⟩
    refine (bind_run (get_run p)).trans ?_
    refine (bind_run hq).trans ?_
    refine (bind_run (get_run q₁)).trans ?_
    refine (bind_run (lift_run hm)).trans ?_
    exact bind_run (lift_run hl)

/-- Behind the quote the reader is at the datum. -/
theorem AtQuote.expectNext (h : AtQuote p d rest) (reg : Registry) : ∃ t q ws,
    expectNext reg .quote p = .ok (t, q) ∧ (∀ c ∈ ws, isWhitespaceChar c = true) ∧
      q.lexer.chars = ws ++ (d ++ rest) ∧ q.lexer.depth = p.lexer.depth := by
  obtain ⟨ws, hws, ⟨t, hp, ht, hl⟩ | ⟨hp, hl⟩⟩ := h
  · refine ⟨t, { p with peek := none }, ws, ?_, hws, hl, rfl⟩
    refine (bind_run (nextToken_some hp)).trans ?_
    rw [if_neg (by simp [ht])]
    rfl
  · refine ⟨⟨.quote, ""⟩, { p with lexer := p.lexer.nextChar }, ws, ?_, hws,
      Lexer.nextChar_cons hl, ?_⟩
    · have hscan : p.lexer.scan reg.findClass = .ok (⟨.quote, ""⟩, p.lexer.nextChar) := by
        rw [Lexer.scan_of_not_blank hl (Lexer.not_blank_iff.mpr (by decide)), Lexer.scanToken,
          Lexer.peekChar_cons hl]
        rfl
      exact bind_run (nextToken_none hp hscan)
    · refine Lexer.depth_nextChar_of_ne ?_ ?_ <;> rw [Lexer.peekChar_cons hl] <;> decide

theorem delimits_append {v : List Char} (hv : v ≠ []) (rest : List Char) :
    Lexer.Delimits (v ++ rest) ↔ Lexer.Delimits v := by
  obtain ⟨c, cs, rfl⟩ := List.exists_cons_of_ne_nil hv
  rfl

/-- In front of a delimiter the loop of the reader takes a datum exactly when it is readable. -/
theorem stopsAfter_iff {m : Lexer} {c : Char} {cs : List Char} (hm : m.chars = c :: cs ++ rest)
    (hrest : Lexer.Delimits rest)
    (hlevel : Lexer.level m.depth (c :: cs) = m.depth) :
    Lexer.StopsAfter m.depth m cs.length ↔ Readable m.depth (c :: cs) := by
  -- behind a proper part `u` of the datum
  have hpart {u v : List Char} (huv : c :: cs = u ++ v) (hv : v ≠ []) :
      Lexer.stops m.depth (m.advance u.length) = true ↔
        Lexer.Delimits v ∧ Lexer.level m.depth u ≤ m.depth := by
    rw [Lexer.stops_advance, hm, huv, List.append_assoc, List.drop_left, List.take_left,
      delimits_append hv]
  constructor
  · intro h
    refine ⟨fun u v huv hu hv hend => ?_, hlevel⟩
    obtain ⟨d, u, rfl⟩ := List.exists_cons_of_ne_nil hu
    have hlt : u.length < cs.length := by
      have hlen := congrArg List.length huv
      have hpos := List.length_pos_of_ne_nil hv
      simp only [List.length_cons, List.length_append] at hlen
      omega
    have hgo := h.goes u.length hlt
    rw [← UInt64.not_le]
    intro hle
    have hstop := (hpart huv hv).mpr ⟨hend, hle⟩
    rw [List.length_cons, hgo] at hstop
    cases hstop
  · intro h
    refine ⟨fun k hk => ?_, ?_⟩
    · have hsplit : c :: cs = c :: cs.take k ++ cs.drop k := by
        rw [List.cons_append, List.take_append_drop]
      have hv : cs.drop k ≠ [] := by
        rw [ne_eq, List.drop_eq_nil_iff, Nat.not_le]
        exact hk
      have hlen : (c :: cs.take k).length = k + 1 := by
        rw [List.length_cons, List.length_take, Nat.min_eq_left (Nat.le_of_lt hk)]
      by_contra hstop
      rw [Bool.not_eq_false, ← hlen] at hstop
      obtain ⟨hend, hle⟩ := (hpart hsplit hv).mp hstop
      exact UInt64.not_le.mpr (h.goes _ _ hsplit (List.cons_ne_nil _ _) hv hend) hle
    · have hdrop : (c :: cs ++ rest).drop (cs.length + 1) = rest := List.drop_left' rfl
      have htake : (c :: cs ++ rest).take (cs.length + 1) = c :: cs := List.take_left' rfl
      rw [Lexer.stops_advance, hm, hdrop, htake, hlevel]
      exact ⟨hrest, UInt64.le_refl _⟩

end Parser

/-! ### Data without parentheses in their strings -/

/-- A character of a string literal that is no parenthesis. -/
def isPlainCharacter (c : Char) : Prop :=
  isValidStringCharacter c = true ∧ c ≠ '(' ∧ c ≠ ')'

/-- The counter does not fall below its start in any part of the datum, and a list stays above it
until its end. -/
structure Rises (depth : UInt64) (d : List Char) : Prop where
  returns : Lexer.level depth d = depth
  part : ∀ u v, d = u ++ v → depth ≤ Lexer.level depth u
  list : ∀ u v cs, d = '(' :: cs → d = u ++ v → u ≠ [] → v ≠ [] → depth < Lexer.level depth u

theorem Rises.of_plain {d : List Char} (h : ∀ c ∈ d, c ≠ '(' ∧ c ≠ ')') (depth : UInt64) :
    Rises depth d where
  returns := Lexer.level_eq_self h
  part := by
    rintro u v rfl
    rw [Lexer.level_eq_self fun c hc => h c (List.mem_append_left v hc)]
    exact UInt64.le_refl _
  list := by
    rintro u v cs rfl
    exact absurd rfl (h '(' List.mem_cons_self).1

theorem toNat_succ {depth : UInt64} (h : depth.toNat + 1 < 2 ^ 64) :
    (depth + 1).toNat = depth.toNat + 1 := by
  rw [UInt64.toNat_add]
  exact Nat.mod_eq_of_lt h

theorem lt_level_lParen {depth : UInt64} (h : depth.toNat + 1 < 2 ^ 64) : depth < depth + 1 := by
  rw [UInt64.lt_iff_toNat_lt, toNat_succ h]
  exact Nat.lt_succ_self _

theorem Rises.nil {depth : UInt64} (h : depth.toNat + 1 < 2 ^ 64) : Rises depth ['(', ')'] := by
  have hreturns : Lexer.level depth ['(', ')'] = depth := UInt64.add_sub_cancel depth 1
  have hpart {u v : List Char} (huv : ['(', ')'] = u ++ v) (hu : u ≠ []) (hv : v ≠ []) :
      depth < Lexer.level depth u := by
    obtain ⟨c, u, rfl⟩ := List.exists_cons_of_ne_nil hu
    obtain ⟨hc, huv'⟩ := List.cons.inj huv
    subst hc
    cases u with
    | nil => exact lt_level_lParen h
    | cons d u =>
        have hnil : [] = u ++ v := (List.cons.inj huv').2
        exact absurd (List.append_eq_nil_iff.mp hnil.symm).2 hv
  refine ⟨hreturns, fun u v huv => ?_, fun u v _ _ huv hu hv => hpart huv hu hv⟩
  by_cases hu : u = []
  · rw [hu]
    exact UInt64.le_refl _
  · by_cases hv : v = []
    · rw [hv, List.append_nil] at huv
      rw [← huv, hreturns]
      exact UInt64.le_refl _
    · exact UInt64.le_of_lt (hpart huv hu hv)

/-- Something that comes back to its start, at the front of a list. -/
theorem Rises.cons {depth : UInt64} {d cs : List Char} (h : depth.toNat + 1 < 2 ^ 64)
    (hd : Rises (depth + 1) d) (hcs : Rises depth ('(' :: cs)) : Rises depth ('(' :: (d ++ cs)) := by
  have hskip (w : List Char) : Lexer.level depth ('(' :: (d ++ w)) = Lexer.level depth ('(' :: w) := by
    change Lexer.level (depth + 1) (d ++ w) = Lexer.level (depth + 1) w
    rw [Lexer.level_append, hd.returns]
  have hpart {u v : List Char} (huv : d ++ cs = u ++ v) :
      depth < Lexer.level depth ('(' :: u) ∨ ∃ w, u = d ++ w ∧ cs = w ++ v := by
    rcases List.append_eq_append_iff.mp huv with ⟨w, rfl, rfl⟩ | ⟨w, rfl, -⟩
    · exact .inr ⟨w, rfl, rfl⟩
    · exact .inl (UInt64.lt_of_lt_of_le (lt_level_lParen h) (hd.part u w rfl))
  refine ⟨(hskip cs).trans hcs.returns, fun u v huv => ?_, fun u v _ _ huv hu hv => ?_⟩
  · cases u with
    | nil => exact UInt64.le_refl _
    | cons c u =>
        obtain ⟨hc, huv'⟩ := List.cons.inj huv
        subst hc
        rcases hpart huv' with hlt | ⟨w, rfl, rfl⟩
        · exact UInt64.le_of_lt hlt
        · rw [hskip]
          exact hcs.part ('(' :: w) v rfl
  · obtain ⟨c, u, rfl⟩ := List.exists_cons_of_ne_nil hu
    obtain ⟨hc, huv'⟩ := List.cons.inj huv
    subst hc
    rcases hpart huv' with hlt | ⟨w, rfl, rfl⟩
    · exact hlt
    · rw [hskip]
      exact hcs.list ('(' :: w) v (w ++ v) rfl rfl (List.cons_ne_nil _ _) hv

theorem Datum.rises {d : List Char} (h : Datum isPlainCharacter d) {depth : UInt64}
    (hd : depth.toNat + d.length < 2 ^ 64) : Rises depth d := by
  induction h generalizing depth with
  | identifier h hs =>
      refine .of_plain ?_ depth
      rw [List.forall_mem_cons]
      exact ⟨Lexer.ne_paren_of_name h, fun c hc => Lexer.ne_paren_of_name (hs c hc)⟩
  | @number c cs h hs =>
      refine .of_plain ?_ depth
      have hc : isValidNumberChar c = true := by rw [isValidNumberChar, h]; rfl
      rw [List.forall_mem_cons]
      exact ⟨Lexer.ne_paren_of_number hc, fun c hc => Lexer.ne_paren_of_number (hs c hc)⟩
  | string h =>
      refine .of_plain ?_ depth
      simp only [List.mem_cons, List.mem_append, List.not_mem_nil, or_false]
      rintro c (rfl | hc | rfl)
      · decide
      · exact (h c hc).2
      · decide
  | nil => exact .nil (Nat.lt_of_succ_lt hd)
  | @cons d cs h hs ih ihs =>
      simp only [List.length_cons, List.length_append] at hd ihs
      have hsucc : depth.toNat + 1 < 2 ^ 64 := by omega
      exact .cons hsucc (ih (by rw [toNat_succ hsucc]; omega)) (ihs (by omega))
  | @blank c cs h hs ih =>
      simp only [List.length_cons] at hd ih
      have hc : ∀ d ∈ [c], d ≠ '(' ∧ d ≠ ')' := by
        have hall : ∀ c ∈ [' ', '\t', '\r', '\n'], c ≠ '(' ∧ c ≠ ')' :=
          List.all_iff_forall_prop.mp (by decide)
        simpa using hall c h
      exact .cons (by omega) (.of_plain hc (depth + 1)) (ih (by omega))

/-- Where no string has a parenthesis in it, every list is readable, and so is everything else
without white space. -/
theorem Datum.readable {d : List Char} (h : Datum isPlainCharacter d)
    (hblank : d.head? = some '"' → ∀ c ∈ d, isWhitespaceChar c = false) {depth : UInt64}
    (hd : depth.toNat + d.length < 2 ^ 64) : Readable depth d := by
  have hrises := h.rises hd
  refine ⟨fun u v huv hu hv hend => ?_, hrises.returns⟩
  obtain ⟨c, v, rfl⟩ := List.exists_cons_of_ne_nil hv
  have hmem : c ∈ d := by
    rw [huv]
    simp
  have hword (hc : isWhitespaceChar c = false ∧ c ≠ ')') : depth < Lexer.level depth u := by
    rcases hend with hend | hend
    · exact absurd hend hc.2
    · exact absurd hend (by simp [hc.1])
  cases h with
  | identifier h hs =>
      rcases List.mem_cons.mp hmem with rfl | hmem
      · exact hword ⟨not_whitespace_of_name h, (Lexer.ne_paren_of_name h).2⟩
      · exact hword ⟨not_whitespace_of_name (hs c hmem), (Lexer.ne_paren_of_name (hs c hmem)).2⟩
  | @number c' cs h hs =>
      have hc' : isValidNumberChar c' = true := by rw [isValidNumberChar, h]; rfl
      rcases List.mem_cons.mp hmem with rfl | hmem
      · exact hword ⟨not_whitespace_of_number hc', (Lexer.ne_paren_of_number hc').2⟩
      · exact hword ⟨not_whitespace_of_number (hs c hmem), (Lexer.ne_paren_of_number (hs c hmem)).2⟩
  | string h =>
      refine hword ⟨hblank rfl c hmem, ?_⟩
      simp only [List.mem_cons, List.mem_append, List.not_mem_nil, or_false] at hmem
      rcases hmem with rfl | hmem | rfl
      · decide
      · exact (h c hmem).2.2
      · decide
  | nil => exact hrises.list u _ _ rfl huv hu hv
  | cons => exact hrises.list u _ _ rfl huv hu hv
  | blank => exact hrises.list u _ _ rfl huv hu hv

end Gel
