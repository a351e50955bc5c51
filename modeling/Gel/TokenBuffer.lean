import Gel.QuotedData

/-!
# TokenBuffer — how far the scanning loops write

Every token text is put together in one buffer, for which `kDefaultBufferSize` characters have been
reserved; the loops of `NextToken` and of `ParseQuotedExpr` write through an index that nothing
bounds.  `WriteLoop` is such a loop by the characters it goes on at, and it `Fits` when it stops
before the index reaches the size.

* `scanToken_undefined_iff`, `readQuoted_undefined_iff`: a call writes outside the buffer exactly when it
  runs a loop that does not fit.
* `writesInside_iff`: over any calls one after the other.
-/

namespace Gel

/-- A loop that writes characters: the number that stand in the buffer before it, and whether it
writes another after `k` of its own. -/
structure WriteLoop where
  written : Nat := 0
  continues : Nat → Bool

/-- The loop stops before it writes at an index outside the buffer. -/
def WriteLoop.Fits (w : WriteLoop) : Prop :=
  ∃ k, w.written + k ≤ bufferSize ∧ w.continues k = false

theorem WriteLoop.not_fits {w : WriteLoop} {room : Nat} (h : w.written + room = bufferSize) :
    ¬ w.Fits ↔ ∀ k ≤ room, w.continues k = true := by
  rw [Fits, not_exists]
  constructor
  · intro hno k hk
    by_contra hstop
    exact hno k ⟨h ▸ Nat.add_le_add_left hk _, Bool.eq_false_of_not_eq_true hstop⟩
  · rintro hall k ⟨hk, hstop⟩
    rw [hall k (Nat.le_of_add_le_add_left (h ▸ hk))] at hstop
    cases hstop

namespace Lexer

/-! ### The loops -/

/-- The characters of a name, from `l` on. -/
def nameLoop (l : Lexer) : WriteLoop where
  continues k := (l.advance k).isValidIdentifierChar (l.advance k).peekChar (k == 0)

/-- The characters of the class of an instance test, which end at a `?`. -/
def classLoop (l : Lexer) : WriteLoop where
  continues k := (l.advance k).isValidIdentifierChar (l.advance k).peekChar (k == 0) &&
    (l.advance k).peekChar != '?'

/-- The number of a parameter, behind its `$`. -/
def parameterLoop (l : Lexer) : WriteLoop where
  written := 1
  continues k := isValidNumberChar (l.advance k).peekChar

def stringLoop (l : Lexer) : WriteLoop where
  continues k := isValidStringCharacter (l.advance k).peekChar

/-- A number goes on at a digit, and at the first point that has a digit behind it. -/
def takesNumber (whole : Bool) (l : Lexer) : Bool :=
  isValidNumberChar l.peekChar whole &&
    !(l.peekChar == '.' && !isValidNumberChar (l.peekChar 1) false)

def numberLoop (l : Lexer) : WriteLoop where
  continues k := takesNumber ((l.chars.take k).all (· != '.')) (l.advance k)

/-- An identifier or a keyword with `text` in the buffer goes on at a character of a name; not at a
`?` that makes it an instance test, at a `?` among parameters, and at two points. -/
def takesWord (findClass : String → Option ClassId) (text : List Char) (l : Lexer) : Bool :=
  l.isValidIdentifierChar l.peekChar text.isEmpty &&
    if l.peekChar = '?' && !l.isValidIdentifierChar (l.peekChar 1) then
      (findClass (.ofList text)).isNone
    else !(l.peekChar = '?' && l.args) && !(l.peekChar = '.' && l.peekChar 1 = '.')

def wordLoop (findClass : String → Option ClassId) (l : Lexer) : WriteLoop where
  continues k := takesWord findClass (l.chars.take k) (l.advance k)

/-- Quoted data goes on after its first character until the counter is back in front of a `)` or a
white space. -/
def quotedLoop (depth : UInt64) (l : Lexer) : WriteLoop where
  continues k := k == 0 || !stops depth (l.advance k)

/-- The loop at a `#`. -/
def hashLoop (l : Lexer) : Option WriteLoop :=
  if (l.peekChar 1).toLower = 'f' ∨ (l.peekChar 1).toLower = 't' then none
  else if l.isValidIdentifierChar (l.peekChar 1) then some l.nextChar.classLoop
  else none

/-- The loop behind the switch. -/
def lexemeLoop (findClass : String → Option ClassId) (l : Lexer) : Option WriteLoop :=
  let c := l.peekChar
  if isDoubleQuote c then some l.nextChar.stringLoop
  else if c.isDigit then some l.numberLoop
  else if l.isValidIdentifierChar c true then some (l.wordLoop findClass)
  else none

/-- The loop that `NextToken` runs at a character that starts a token. -/
def tokenLoop (findClass : String → Option ClassId) (l : Lexer) : Option WriteLoop :=
  let c := l.peekChar
  if (punctuation c).isSome || c = '.' then none
  else if c = '#' then l.hashLoop
  else if c = '$' && l.isDispatching then
    if (l.peekChar 1).isDigit then some l.nextChar.parameterLoop else none
  else if c = '$' && l.peekChar 1 = '(' then none
  else if c = '<' || c = '>' || c = eof then none
  else if c = ':' && l.peekChar 1 = '-' && l.peekChar 2 = '>' then some (l.advance 3).nameLoop
  else if c = 'n' && l.peekChar 1 = 'e' && l.peekChar 2 = 'w' && l.peekChar 3 = ':' then
    some (l.advance 4).nameLoop
  else l.lexemeLoop findClass

/-- The loop, if any, does not fit. -/
def Overflows (w : Option WriteLoop) : Prop := ∃ s, w = some s ∧ ¬ s.Fits

@[simp] theorem overflows_some {w : WriteLoop} : Overflows (some w) ↔ ¬ w.Fits := by
  simp [Overflows]

@[simp] theorem not_overflows_none : ¬ Overflows none := by
  simp [Overflows]

/-! ### Each loop writes outside the buffer when it goes on for too long -/

variable {findClass : String → Option ClassId} {l : Lexer} {depth : UInt64}

theorem error_bind_iff {α β : Type} {x : Except Fault α} (f : α → β) :
    (do let a ← x; return f a) = .error .undefined ↔ x = .error .undefined := by
  cases x <;> simp [Bind.bind, Except.bind, Pure.pure, Except.pure]

theorem forall_le_succ_iff {p : Nat → Prop} {n : Nat} :
    (∀ k ≤ n + 1, p k) ↔ p 0 ∧ ∀ k ≤ n, p (k + 1) := by
  simpa only [Nat.lt_succ_iff] using Nat.forall_lt_succ_left (n := n + 1) (p := p)

theorem readWhile_undefined_iff (p : Bool → Lexer → Bool) (room : Nat) (initial : Bool) (l : Lexer) :
    readWhile p room initial l = .error .undefined ↔
      ∀ k ≤ room, p (initial && k == 0) (l.advance k) = true := by
  induction room generalizing initial l with
  | zero =>
      cases h : p initial l <;> simp [readWhile, h, advance]
  | succ room ih =>
      rw [forall_le_succ_iff]
      have hzero : (initial && (0 : Nat) == 0) = initial := by simp
      rw [hzero]
      cases h : p initial l with
      | false => simp [readWhile, h, advance]
      | true =>
          rw [readWhile, if_pos h]
          refine (error_bind_iff _).trans ((ih false l.nextChar).trans ?_)
          simp [advance, h]

/-- The characters read after one more. -/
theorem all_take_succ (l : Lexer) (whole : Bool) (k : Nat) :
    (whole && (l.chars.take (k + 1)).all (· != '.')) =
      ((whole && l.peekChar != '.') && (l.nextChar.chars.take k).all (· != '.')) := by
  rw [chars_nextChar, peekChar]
  cases l.chars with
  | nil => simp [eof]
  | cons c cs => simp [Bool.and_assoc]

theorem readNumber_undefined_iff (room : Nat) (whole : Bool) (l : Lexer) :
    readNumber room whole l = .error .undefined ↔
      ∀ k ≤ room, takesNumber (whole && (l.chars.take k).all (· != '.')) (l.advance k) = true := by
  induction room generalizing whole l with
  | zero =>
      have hread : readNumber 0 whole l =
          if takesNumber whole l then .error .undefined else .ok (whole, [], l) := rfl
      rw [hread]
      cases h : takesNumber whole l <;> simp [advance, h]
  | succ room ih =>
      have hread : readNumber (room + 1) whole l = if takesNumber whole l then do
          let r ← readNumber room (whole && l.peekChar != '.') l.nextChar
          return (r.1, l.peekChar :: r.2.1, r.2.2) else .ok (whole, [], l) := rfl
      rw [forall_le_succ_iff, hread]
      have hzero : takesNumber (whole && (l.chars.take 0).all (· != '.')) (l.advance 0) =
          takesNumber whole l := by simp [advance]
      rw [hzero]
      simp only [all_take_succ, advance]
      cases h : takesNumber whole l with
      | false => simp
      | true =>
          rw [if_pos rfl, error_bind_iff, ih]
          simp only [true_and]

theorem takesWord_eq_false (h : l.chars = []) (text : List Char) :
    takesWord findClass text l = false := by
  rw [takesWord, not_isValidIdentifierChar_eof h, Bool.false_and]

/-- The loop over a word ends where it does not go on. -/
theorem readIdentifier_stops {buf : List Char} (h : takesWord findClass buf l = false)
    (ckw : Option (Trie Char Token.Kind)) (room : Nat) :
    ∃ r, readIdentifier findClass room ckw buf l = .ok r := by
  by_cases hvalid : l.isValidIdentifierChar l.peekChar buf.isEmpty
  · rw [takesWord, hvalid, Bool.true_and] at h
    by_cases hq : (decide (l.peekChar = '?') && !l.isValidIdentifierChar (l.peekChar 1)) = true
    · rw [if_pos hq, Option.isNone_eq_false_iff] at h
      cases room <;>
        rw [readIdentifier, if_pos hvalid, if_pos hq, if_pos h] <;>
        exact ⟨_, rfl⟩
    · rw [if_neg hq, Bool.and_eq_false_iff, Bool.not_eq_false', Bool.not_eq_false'] at h
      by_cases hargs : (decide (l.peekChar = '?') && l.args) = true
      · cases room <;>
          rw [readIdentifier, if_pos hvalid, if_neg hq, if_pos hargs] <;>
          exact ⟨_, rfl⟩
      · have hdots := h.resolve_left hargs
        cases room <;>
          rw [readIdentifier, if_pos hvalid, if_neg hq, if_neg hargs, if_pos hdots] <;>
          exact ⟨_, rfl⟩
  · cases room <;>
      rw [readIdentifier, if_neg hvalid] <;>
      exact ⟨_, rfl⟩

/-- The loop over a word writes a character, or has no room for it. -/
theorem readIdentifier_goes {buf : List Char} (h : takesWord findClass buf l = true)
    (ckw : Option (Trie Char Token.Kind)) :
    readIdentifier findClass 0 ckw buf l = .error .undefined ∧
    ∃ ckw', ∀ room, readIdentifier findClass (room + 1) ckw buf l =
      readIdentifier findClass room ckw' (buf ++ [l.peekChar]) l.nextChar := by
  rw [takesWord, Bool.and_eq_true] at h
  obtain ⟨hvalid, h⟩ := h
  by_cases hq : (decide (l.peekChar = '?') && !l.isValidIdentifierChar (l.peekChar 1)) = true
  · rw [if_pos hq] at h
    have hclass : ¬ (findClass (.ofList buf)).isSome = true := by
      rw [Option.isNone_iff_eq_none.mp h]
      exact Bool.false_ne_true
    refine ⟨?_, ckw, fun room => ?_⟩ <;>
      rw [readIdentifier, if_pos hvalid, if_pos hq, if_neg hclass]
  · rw [if_neg hq, Bool.and_eq_true, Bool.not_eq_true', Bool.not_eq_true'] at h
    obtain ⟨hargs, hdots⟩ := h
    have hargs : ¬ (decide (l.peekChar = '?') && l.args) = true := Bool.not_eq_true _ ▸ hargs
    have hdots : ¬ (decide (l.peekChar = '.') && decide (l.peekChar 1 = '.')) = true :=
      Bool.not_eq_true _ ▸ hdots
    refine ⟨?_, ckw.bind (·.child? l.peekChar), fun room => ?_⟩ <;>
      rw [readIdentifier, if_pos hvalid, if_neg hq, if_neg hargs, if_neg hdots]

theorem readIdentifier_undefined_iff (room : Nat) (ckw : Option (Trie Char Token.Kind))
    (buf : List Char) (l : Lexer) :
    readIdentifier findClass room ckw buf l = .error .undefined ↔
      ∀ k ≤ room, takesWord findClass (buf ++ l.chars.take k) (l.advance k) = true := by
  induction room generalizing ckw buf l with
  | zero =>
      cases h : takesWord findClass buf l with
      | false =>
          obtain ⟨r, hr⟩ := readIdentifier_stops h ckw 0
          simp [hr, advance, h]
      | true => simp [(readIdentifier_goes h ckw).1, advance, h]
  | succ room ih =>
      have hzero : takesWord findClass (buf ++ l.chars.take 0) (l.advance 0) =
          takesWord findClass buf l := by rw [List.take_zero, List.append_nil, advance]
      rw [forall_le_succ_iff, hzero]
      cases h : takesWord findClass buf l with
      | false =>
          obtain ⟨r, hr⟩ := readIdentifier_stops h ckw (room + 1)
          simp [hr]
      | true =>
          obtain ⟨-, ckw', hgo⟩ := readIdentifier_goes h ckw
          rw [hgo, ih]
          cases hl : l.chars with
          | nil =>
              rw [takesWord_eq_false hl] at h
              cases h
          | cons c cs =>
              simp [advance, chars_nextChar, peekChar_cons hl, hl]

/-- **`ParseQuotedExpr`** writes outside the buffer when its loop goes on for too long. -/
theorem readQuoted_undefined_iff (depth : UInt64) (room : Nat) (l : Lexer) :
    readQuoted depth room l = .error .undefined ↔
      ∀ k ≤ room, (l.quotedLoop depth).continues k = true := by
  induction room generalizing l with
  | zero => simp [readQuoted, quotedLoop]
  | succ room ih =>
      have hread : readQuoted depth (room + 1) l = if stops depth l.nextChar then
          .ok ([l.peekChar], l.nextChar) else do
            let r ← readQuoted depth room l.nextChar
            return (l.peekChar :: r.1, r.2) := rfl
      have hnext : (∀ k ≤ room, (l.quotedLoop depth).continues (k + 1) = true) ↔
          stops depth l.nextChar = false ∧
            ∀ k ≤ room, (l.nextChar.quotedLoop depth).continues k = true := by
        have hcontinues : ∀ k, (l.quotedLoop depth).continues (k + 1) =
            !stops depth (l.nextChar.advance k) := fun _ => rfl
        simp only [hcontinues]
        constructor
        · intro h
          refine ⟨by simpa [advance] using h 0 (Nat.zero_le _), fun k hk => ?_⟩
          simp [quotedLoop, h k hk]
        · rintro ⟨hfirst, h⟩ k hk
          cases k with
          | zero => simpa [advance] using hfirst
          | succ k => simpa [quotedLoop] using h (k + 1) hk
      have hzero : (l.quotedLoop depth).continues 0 = true := rfl
      rw [forall_le_succ_iff, hnext, hread]
      by_cases hstop : stops depth l.nextChar
      · simp [hstop]
      · rw [if_neg hstop, error_bind_iff, ih]
        simp [hstop, hzero]

/-! ### A call of `NextToken` -/

/-- A loop from an empty buffer has room for as many characters as the buffer. -/
theorem not_fits_iff {w : WriteLoop} (hw : w.written = 0) :
    ¬ w.Fits ↔ ∀ k ≤ bufferSize, w.continues k = true :=
  WriteLoop.not_fits (by rw [hw, Nat.zero_add])

theorem readName_undefined_iff (kind : Token.Kind) (l : Lexer) :
    buffered kind l.readName = .error .undefined ↔ ¬ l.nameLoop.Fits := by
  have hbuffered : buffered kind l.readName = .error .undefined ↔ l.readName = .error .undefined := by
    rw [buffered]
    cases l.readName <;> simp [Functor.map, Except.map]
  rw [hbuffered, readName, readWhile_undefined_iff, not_fits_iff rfl]
  rfl

theorem scanHash_undefined_iff (l : Lexer) :
    l.scanHash = .error .undefined ↔ Overflows l.hashLoop := by
  rw [scanHash, hashLoop]
  split
  next hfalse => simp [hfalse]
  next htrue => simp [htrue]
  next hfalse htrue =>
    rw [if_neg (not_or.mpr ⟨hfalse, htrue⟩)]
    by_cases hvalid : l.isValidIdentifierChar (l.peekChar 1)
    · rw [if_pos hvalid, if_pos hvalid, overflows_some, not_fits_iff rfl]
      refine Iff.trans ?_ (readWhile_undefined_iff (fun initial l =>
        l.isValidIdentifierChar l.peekChar initial && l.peekChar != '?') bufferSize true l.nextChar)
      -- behind the loop there is a `?`, or the program ends
      cases readWhile (fun initial l => l.isValidIdentifierChar l.peekChar initial &&
          l.peekChar != '?') bufferSize true l.nextChar with
      | error e => simp [Bind.bind, Except.bind]
      | ok r =>
          refine iff_of_false ?_ (fun h => by cases h)
          simp only [Bind.bind, Except.bind]
          split <;> (intro h; cases h)
    · simp [hvalid]

theorem scanParameter_undefined_iff (l : Lexer) : l.scanParameter = .error .undefined ↔
    Overflows (if (l.peekChar 1).isDigit then some l.nextChar.parameterLoop else none) := by
  rw [scanParameter]
  by_cases hdigit : (l.peekChar 1).isDigit
  · have hroom : l.nextChar.parameterLoop.written + (bufferSize - 1) = bufferSize := rfl
    rw [if_pos hdigit, if_pos hdigit, error_bind_iff, overflows_some, WriteLoop.not_fits hroom,
      readWhile_undefined_iff]
    rfl
  · simp [hdigit]

theorem scanWord_undefined_iff (findClass : String → Option ClassId) (l : Lexer) :
    l.scanWord findClass = .error .undefined ↔ Overflows (l.lexemeLoop findClass) := by
  simp only [scanWord, lexemeLoop]
  by_cases hquote : isDoubleQuote l.peekChar
  · rw [if_pos hquote, if_pos hquote, error_bind_iff, overflows_some, not_fits_iff rfl,
      readWhile_undefined_iff]
    rfl
  by_cases hdigit : l.peekChar.isDigit
  · rw [if_neg hquote, if_neg hquote, if_pos hdigit, if_pos hdigit, overflows_some, not_fits_iff rfl]
    exact (error_bind_iff _).trans (readNumber_undefined_iff bufferSize true l)
  by_cases hvalid : l.isValidIdentifierChar l.peekChar true
  · rw [if_neg hquote, if_neg hquote, if_neg hdigit, if_neg hdigit, if_pos hvalid, if_pos hvalid,
      overflows_some, not_fits_iff rfl, readIdentifier_undefined_iff]
    rfl
  · simp [hquote, hdigit, hvalid]

/-- **`NextToken`** writes outside the buffer exactly when the loop it runs does not fit. -/
theorem scanToken_undefined_iff (findClass : String → Option ClassId) (l : Lexer) :
    l.scanToken findClass = .error .undefined ↔ Overflows (l.tokenLoop findClass) := by
  simp only [scanToken, tokenLoop]
  cases hp : punctuation l.peekChar with
  | some k => simp
  | none =>
  by_cases hdot : l.peekChar = '.'
  · simp [hdot]
  by_cases hhash : l.peekChar = '#'
  · simpa [hhash] using scanHash_undefined_iff l
  by_cases hdispatching : (decide (l.peekChar = '$') && l.isDispatching) = true
  · simpa [hdot, hhash, hdispatching] using scanParameter_undefined_iff l
  by_cases hdispatch : (decide (l.peekChar = '$') && decide (l.peekChar 1 = '(')) = true
  · simp [hdot, hhash, hdispatching, hdispatch]
  by_cases hless : l.peekChar = '<'
  · simp [hless]
  by_cases hgreater : l.peekChar = '>'
  · simp [hgreater]
  by_cases heof : l.peekChar = eof
  · simp [heof, eof]
  by_cases hcast : (decide (l.peekChar = ':') && decide (l.peekChar 1 = '-') &&
      decide (l.peekChar 2 = '>')) = true
  · simpa [hdot, hhash, hdispatching, hdispatch, hless, hgreater, heof, hcast] using
      readName_undefined_iff .castExpr (l.advance 3)
  by_cases hnew : (decide (l.peekChar = 'n') && decide (l.peekChar 1 = 'e') &&
      decide (l.peekChar 2 = 'w') && decide (l.peekChar 3 = ':')) = true
  · simpa [hdot, hhash, hdispatching, hdispatch, hless, hgreater, heof, hcast, hnew] using
      readName_undefined_iff .newExpr (l.advance 4)
  · simpa [hdot, hhash, hdispatching, hdispatch, hless, hgreater, heof, hcast, hnew] using
      scanWord_undefined_iff findClass l

/-! ### Calls one after the other -/

/-- What the parser does to its lexer: `NextToken`, `SkipWhitespace` over at most `n` characters, the
loop of `ParseQuotedExpr`, and setting `args_` and `dispatched_`. -/
inductive Call where
  | token
  | whitespace (n : Nat)
  | quoted (depth : UInt64)
  | args (rhs : Bool)
  | dispatched (rhs : Int)

namespace Call

/-- The lexer behind a call. -/
def run (findClass : String → Option ClassId) : Call → Lexer → Except Fault Lexer
  | token, l => do
      let r ← l.scan findClass
      return r.2
  | whitespace n, l => l.skipWhitespace n
  | quoted depth, l => do
      let r ← l.readQuoted depth bufferSize
      return r.2
  | args rhs, l => .ok { l with args := rhs }
  | dispatched rhs, l => .ok { l with dispatched := rhs }

/-- The loop of a call that writes to the buffer. -/
def loop (findClass : String → Option ClassId) : Call → Lexer → Option WriteLoop
  | token, l => (l.skipBlanks l.chars.length).tokenLoop findClass
  | quoted depth, l => some (l.quotedLoop depth)
  | whitespace _, _ | args _, _ | dispatched _, _ => none

theorem skipWhitespace_ne_undefined (n : Nat) (l : Lexer) :
    l.skipWhitespace n ≠ .error .undefined := by
  induction n generalizing l with
  | zero =>
      intro h
      cases h
  | succ n ih =>
      rw [skipWhitespace]
      split
      · exact ih _
      · intro h
        cases h

theorem run_undefined_iff (findClass : String → Option ClassId) (c : Call) (l : Lexer) :
    c.run findClass l = .error .undefined ↔ Overflows (c.loop findClass l) := by
  cases c with
  | token => exact (error_bind_iff _).trans (scanToken_undefined_iff findClass _)
  | quoted depth =>
      refine (error_bind_iff _).trans ((readQuoted_undefined_iff depth bufferSize l).trans ?_)
      rw [loop, overflows_some, not_fits_iff rfl]
  | whitespace n => exact iff_of_false (skipWhitespace_ne_undefined n l) not_overflows_none
  | args rhs | dispatched rhs => exact iff_of_false nofun not_overflows_none

end Call

/-- No call writes at an index outside the buffer; this is the one undefined behaviour of a call. -/
def WritesInside (findClass : String → Option ClassId) (cs : List Call) (l : Lexer) : Prop :=
  cs.foldlM (fun l c => c.run findClass l) l ≠ .error .undefined

/-- Every loop that the calls run fits in the buffer: the text of every token and of every datum is
at most as long as the buffer. -/
def AllFit (findClass : String → Option ClassId) : List Call → Lexer → Prop
  | [], _ => True
  | c :: cs, l => (∀ w, c.loop findClass l = some w → w.Fits) ∧
      ∀ l', c.run findClass l = .ok l' → AllFit findClass cs l'

/-- **The token buffer over a run.**  No character is written outside the buffer if and only if
every token and every datum that is read fits in it. -/
theorem writesInside_iff (findClass : String → Option ClassId) (cs : List Call) (l : Lexer) :
    WritesInside findClass cs l ↔ AllFit findClass cs l := by
  induction cs generalizing l with
  | nil => exact iff_of_true nofun trivial
  | cons c cs ih =>
      have hfits : (∀ w, c.loop findClass l = some w → w.Fits) ↔
          ¬ c.run findClass l = .error .undefined := by
        rw [Call.run_undefined_iff, Overflows, not_exists]
        exact forall_congr' fun w => by rw [not_and, not_not]
      rw [AllFit, hfits]
      rw [WritesInside, List.foldlM_cons]
      cases hrun : c.run findClass l with
      | error e => simp [Bind.bind, Except.bind]
      | ok l' =>
          have hnext : WritesInside findClass cs l' ↔ AllFit findClass cs l' := ih l'
          simpa [Bind.bind, Except.bind, WritesInside] using hnext

/-- A string of 1025 characters. -/
theorem not_writesInside_string : ¬ ∀ (findClass : String → Option ClassId) (cs : List Call)
    (l : Lexer), WritesInside findClass cs l := by
  intro h
  refine h (fun _ => none) [.token] { chars := '"' :: List.replicate 1025 'a' ++ ['"'] } ?_
  decide +kernel

end Lexer

end Gel
