import Gel.Object
import Gel.Support.Trie
import Mathlib.Algebra.Group.Nat.Defs
import Mathlib.Data.Bool.AllAny

/-!
# Lexer — characters to tokens

`Parser::NextToken` without the peeked token: the switch over the next characters and the scanning
loops.  The input is its list of unread characters, a byte being the character of its code; past
the end `PeekChar` reads `EOF`, which as a `char` is the byte 255.

The token buffer has room for the size it was reserved with, and a write past it is undefined.
Whether parameters are being read (`args`) and how many parameters of a dispatch literal are known
(`dispatched`, negative outside one) decide what some characters mean.
-/

namespace Gel

/-- `Token::Kind`, without the kinds that nothing produces. -/
inductive Token.Kind where
  | endOfStream | invalid
  | unaryOp (op : UnaryOp) | binaryOp (op : BinaryOp)
  | beginExpr | whileExpr | whenExpr | caseExpr | importExpr | letExpr | letRxExpr | throwExpr
  | instanceOfExpr | castExpr | newExpr
  | fn | defNamespace | defNative | defMacro | set | define | defn | hash | quote | cond
  | lParen | rParen | dot | dotDotDot | range | identifier | lBrace | rBrace | lBracket | rBracket
  | question | comma | dispatch | literalDouble | literalLong | literalTrue | literalFalse
  | literalString
  deriving DecidableEq, Repr

structure Token where
  kind : Token.Kind
  text : String := ""
  deriving DecidableEq, Repr

/-- `Token::IsLiteral`. -/
def Token.Kind.isLiteral : Token.Kind → Bool
  | .lBrace | .literalTrue | .literalFalse | .literalString | .literalLong | .literalDouble => true
  | _ => false

/-- The words `Parser::Init` registers. -/
def keywordList : List (String × Token.Kind) :=
  [("ns", .defNamespace), ("def", .define), ("defmacro", .defMacro), ("import", .importExpr),
   ("cons", .binaryOp .cons), ("car", .unaryOp .car), ("cdr", .unaryOp .cdr),
   ("begin", .beginExpr), ("add", .binaryOp .add), ("subtract", .binaryOp .subtract),
   ("multiply", .binaryOp .multiply), ("divide", .binaryOp .divide), ("fn", .fn),
   ("quote", .quote), ("not", .unaryOp .not), ("and", .binaryOp .binaryAnd),
   ("or", .binaryOp .binaryOr), ("throw", .throwExpr), ("eq?", .binaryOp .equals),
   ("instanceof?", .binaryOp .instanceOf), ("nonnull?", .unaryOp .nonnull),
   ("null?", .unaryOp .null), ("set!", .set), ("cond", .cond), ("when", .whenExpr),
   ("case", .caseExpr), ("while", .whileExpr), ("defn", .defn), ("let", .letExpr),
   ("let:rx", .letRxExpr), ("defnative", .defNative)]

/-- `keywords_`. -/
def keywords : Trie Char Token.Kind := .ofList (keywordList.map fun e => (e.1.toList, e.2))

/-- `EOF`, converted to a `char`. -/
def eof : Char := 'ÿ'

/-- `Parser::kDefaultBufferSize`. -/
def bufferSize : Nat := 1024

structure Lexer where
  chars : List Char
  depth : UInt64 := 0
  args : Bool := false
  dispatched : Int := -1
  deriving DecidableEq, Repr

/-- `IsWhitespaceChar`; the end of the input is one. -/
def isWhitespaceChar (c : Char) : Bool := c ∈ [' ', '\t', '\r', '\n', eof]

def isDoubleQuote (c : Char) : Bool := c == '"'

def isValidStringCharacter (c : Char) : Bool := c != eof && !isDoubleQuote c

def isValidNumberChar (c : Char) (whole : Bool := true) : Bool :=
  c.isDigit || (c == '.' && whole)

/-- The C library's `atol` of a text that starts with digits, which saturates at `LONG_MAX`. -/
def atol (cs : List Char) : Nat :=
  min (2 ^ 63 - 1) (Nat.ofDigitChars 10 (cs.takeWhile Char.isDigit) 0)

/-- `atoi`: the low half of `atol`, signed. -/
def atoi (cs : List Char) : Int :=
  (Int.ofNat (atol cs)).bmod (2 ^ 32)

/-- `Token::AsLong`. -/
def Token.asLong (t : Token) : UInt64 := .ofNat (atol t.text.toList)

/-- `Token::AsDouble`: `atof` of digits with a point among them. -/
def Token.asDouble (t : Token) : UInt64 :=
  let whole := t.text.toList.takeWhile (· != '.')
  let fraction := (t.text.toList.drop (whole.length + 1)).takeWhile Char.isDigit
  (Float.ofScientific (Nat.ofDigitChars 10 (whole ++ fraction) 0) true fraction.length).toBits

namespace Lexer

def isDispatching (l : Lexer) : Bool := 0 ≤ l.dispatched

def peekChar (l : Lexer) (offset : Nat := 0) : Char := l.chars.getD offset eof

/-- `NextChar` counts parentheses and stays at the end of the input. -/
def nextChar (l : Lexer) : Lexer :=
  match l.chars with
  | [] => l
  | c :: cs =>
      { l with
        chars := cs
        depth := if c = '(' then l.depth + 1 else if c = ')' then l.depth - 1 else l.depth }

def advance : Nat → Lexer → Lexer
  | 0, l => l
  | n + 1, l => advance n l.nextChar

/-- `AdvanceUntil`; it also stops at a null character and at the end of the input. -/
def advanceUntil (expected : Char) (l : Lexer) : Lexer :=
  advance (l.chars.takeWhile fun c => c != expected && c != '\x00' && c != eof).length l

/-- `SkipWhitespace`, for at most the given number of characters. -/
def skipWhitespace : Nat → Lexer → Except Fault Lexer
  | 0, _ => .error .timeout
  | n + 1, l => if isWhitespaceChar l.peekChar then skipWhitespace n l.nextChar else .ok l

def isValidIdentifierChar (l : Lexer) (c : Char) (initial : Bool := false) : Bool :=
  if c.isAlpha then true
  else if c.isDigit && !initial then true
  else if c ∈ ['!', '$', '%', '&', '*', '/', ':', '<', '=', '>', '?'] then !l.args
  else if c ∈ ['~', '_', '^', '+', '-'] then true
  else c == '.' && !initial

/-- `while (p) buffer_[token_len_++] = NextChar();` with room for `room` characters more; `p` is
also told whether the buffer is empty. -/
def readWhile (p : Bool → Lexer → Bool) : Nat → Bool → Lexer → Except Fault (List Char × Lexer)
  | room, initial, l =>
      if p initial l then
        match room with
        | 0 => .error .undefined
        | room + 1 => do
            let (cs, l') ← readWhile p room false l.nextChar
            return (l.peekChar :: cs, l')
      else .ok ([], l)

/-- A token whose text is what the buffer holds. -/
def buffered (kind : Token.Kind) (r : Except Fault (List Char × Lexer)) :
    Except Fault (Token × Lexer) :=
  (fun r => (⟨kind, .ofList r.1⟩, r.2)) <$> r

/-- The loop of `NextToken` over the characters of a name. -/
def readName (l : Lexer) : Except Fault (List Char × Lexer) :=
  readWhile (fun initial l => l.isValidIdentifierChar l.peekChar initial) bufferSize true l

/-- The loop over the characters of a number; `whole` until a point has been read. -/
def readNumber : Nat → Bool → Lexer → Except Fault (Bool × List Char × Lexer)
  | room, whole, l =>
      if isValidNumberChar l.peekChar whole &&
          !(l.peekChar == '.' && !isValidNumberChar (l.peekChar 1) false) then
        match room with
        | 0 => .error .undefined
        | room + 1 => do
            let (whole, cs, l') ← readNumber room (whole && l.peekChar != '.') l.nextChar
            return (whole, l.peekChar :: cs, l')
      else .ok (whole, [], l)

/-- The kind of a word that has been read to its end at the node `ckw`. -/
def kindOfWord (l : Lexer) (ckw : Option (Trie Char Token.Kind)) : Token.Kind :=
  if l.args then .identifier else (ckw.bind Trie.value).getD .identifier

/-- The loop over the characters of an identifier or a keyword, with `buf` read so far.  A `?` at
the end of a word is not looked up in the trie. -/
def readIdentifier (findClass : String → Option ClassId) :
    Nat → Option (Trie Char Token.Kind) → List Char → Lexer → Except Fault (Token × Lexer)
  | room, ckw, buf, l =>
      let c := l.peekChar
      let done : Token × Lexer := (⟨l.kindOfWord ckw, .ofList buf⟩, l)
      if l.isValidIdentifierChar c buf.isEmpty then
        if c = '?' && !l.isValidIdentifierChar (l.peekChar 1) then
          if (findClass (.ofList buf)).isSome then
            .ok (⟨.instanceOfExpr, .ofList buf⟩, l.nextChar)
          else match room with
            | 0 => .error .undefined
            | room + 1 => readIdentifier findClass room ckw (buf ++ [c]) l.nextChar
        else if c = '?' && l.args then .ok done
        else if c = '.' && l.peekChar 1 = '.' then .ok done
        else match room with
          | 0 => .error .undefined
          | room + 1 =>
              readIdentifier findClass room (ckw.bind (·.child? c)) (buf ++ [c]) l.nextChar
      else .ok done

/-- The tokens of one character. -/
def punctuation : Char → Option Token.Kind
  | '(' => some .lParen
  | ')' => some .rParen
  | '+' => some (.binaryOp .add)
  | '-' => some (.binaryOp .subtract)
  | '*' => some (.binaryOp .multiply)
  | '/' => some (.binaryOp .divide)
  | '%' => some (.binaryOp .modulus)
  | '=' => some (.binaryOp .equals)
  | '&' => some (.binaryOp .binaryAnd)
  | '|' => some (.binaryOp .binaryOr)
  | '!' => some (.unaryOp .not)
  | '[' => some .lBracket
  | ']' => some .rBracket
  | ',' => some .comma
  | '{' => some .lBrace
  | '}' => some .rBrace
  | '?' => some .question
  | '\'' => some .quote
  | _ => none

/-- The case `.`. -/
def scanDot (l : Lexer) : Token × Lexer :=
  if l.peekChar 1 = '.' && l.peekChar 2 = '.' then
    (⟨if l.args then .dotDotDot else .range, ""⟩, l.advance 3)
  else (⟨.dot, ""⟩, l.nextChar)

/-- The case `#`. -/
def scanHash (l : Lexer) : Except Fault (Token × Lexer) :=
  match (l.peekChar 1).toLower with
  | 'f' => .ok (⟨.literalFalse, ""⟩, l.advance 2)
  | 't' => .ok (⟨.literalTrue, ""⟩, l.advance 2)
  | _ =>
      if l.isValidIdentifierChar (l.peekChar 1) then do
        let (name, l) ← readWhile (fun initial l =>
          l.isValidIdentifierChar l.peekChar initial && l.peekChar != '?') bufferSize true l.nextChar
        if l.peekChar = '?' then return (⟨.instanceOfExpr, .ofList name⟩, l.nextChar)
        else throw .fatal
      else .ok (⟨.hash, "#"⟩, l.nextChar)

/-- The case `$` inside a dispatch literal. -/
def scanParameter (l : Lexer) : Except Fault (Token × Lexer) :=
  if (l.peekChar 1).isDigit then do
    let (digits, l) ←
      readWhile (fun _ l => isValidNumberChar l.peekChar) (bufferSize - 1) false l.nextChar
    return (⟨.identifier, .ofList ('$' :: digits)⟩,
      { l with dispatched := max l.dispatched (atoi digits + 1) })
  else
    .ok (⟨.identifier, "$" ++ toString l.dispatched⟩,
      { l.nextChar with dispatched := l.dispatched + 1 })

/-- The cases `<` and `>`, which look for a `=`. -/
def scanComparison (op orEqual : BinaryOp) (l : Lexer) : Token × Lexer :=
  if l.peekChar 1 = '=' then (⟨.binaryOp orEqual, ""⟩, l.advance 2)
  else (⟨.binaryOp op, ""⟩, l.nextChar)

/-- What comes after the switch: strings, numbers and words.  An invalid token carries the rest of
the input and consumes nothing. -/
def scanWord (findClass : String → Option ClassId) (l : Lexer) : Except Fault (Token × Lexer) :=
  let c := l.peekChar
  if isDoubleQuote c then do
    let (text, l) ←
      readWhile (fun _ l => isValidStringCharacter l.peekChar) bufferSize true l.nextChar
    return (⟨.literalString, .ofList text⟩, l.nextChar)
  else if c.isDigit then do
    let (whole, text, l) ← readNumber bufferSize true l
    return (⟨if whole then .literalLong else .literalDouble, .ofList text⟩, l)
  else if l.isValidIdentifierChar c true then
    readIdentifier findClass bufferSize (some keywords) [] l
  else .ok (⟨.invalid, .ofList l.chars⟩, l)

/-- `NextToken` at a character that starts a token. -/
def scanToken (findClass : String → Option ClassId) (l : Lexer) : Except Fault (Token × Lexer) :=
  let c := l.peekChar
  match punctuation c with
  | some k => .ok (⟨k, ""⟩, l.nextChar)
  | none =>
      if c = '.' then .ok l.scanDot
      else if c = '#' then l.scanHash
      else if c = '$' && l.isDispatching then l.scanParameter
      else if c = '$' && l.peekChar 1 = '(' then .ok (⟨.dispatch, ""⟩, l.advance 2)
      else if c = '<' then .ok (l.scanComparison .lessThan .lessThanEqual)
      else if c = '>' then .ok (l.scanComparison .greaterThan .greaterThanEqual)
      else if c = eof then .ok (⟨.endOfStream, ""⟩, l)
      else if c = ':' && l.peekChar 1 = '-' && l.peekChar 2 = '>' then
        buffered .castExpr (l.advance 3).readName
      else if c = 'n' && l.peekChar 1 = 'e' && l.peekChar 2 = 'w' && l.peekChar 3 = ':' then
        buffered .newExpr (l.advance 4).readName
      else l.scanWord findClass

/-- White space and comments, after which `NextToken` calls itself, up to `n` of them. -/
def skipBlanks : Nat → Lexer → Lexer
  | 0, l => l
  | n + 1, l =>
      if l.peekChar ∈ ['\n', '\t', '\r', ' '] then skipBlanks n l.nextChar
      else if l.peekChar = ';' then skipBlanks n (l.advanceUntil '\n')
      else l

/-- `NextToken` when no token is peeked. -/
def scan (findClass : String → Option ClassId) (l : Lexer) : Except Fault (Token × Lexer) :=
  (l.skipBlanks l.chars.length).scanToken findClass

/-- The loop of `ParseQuotedExpr` after its first character: it ends at a closing parenthesis or a
white space that is not deeper than `depth`. -/
def readQuoted (depth : UInt64) : Nat → Lexer → Except Fault (List Char × Lexer)
  | 0, _ => .error .undefined
  | room + 1, l =>
      let c := l.peekChar
      let l := l.nextChar
      if (l.peekChar = ')' || isWhitespaceChar l.peekChar) && l.depth ≤ depth then .ok ([c], l)
      else do
        let (cs, l) ← readQuoted depth room l
        return (c :: cs, l)

end Lexer

end Gel
