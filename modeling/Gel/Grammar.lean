import Gel.Parser
import Mathlib.Logic.Relation

/-!
# Grammar — the forms of the language

What a text has to look like for each parse function to read the tokens it expects.  A `Span` relates
a position in the input to the position behind a piece of text; a position is a lexer with no token
peeked.  Every span is built from single tokens, sequences, repetitions and tokens that are only
looked at.

`Form` closes the rules under nesting.  A quoted datum is as long as the characters that are read
for it, and its parentheses have to match.
-/

namespace Gel

/-- A piece of the input, from a position to a position. -/
abbrev Span := Lexer → Lexer → Prop

namespace Grammar

/-! ### Combinators -/

def seq : List Span → Span
  | [] => Eq
  | s :: ss => Relation.Comp s (seq ss)

def many (s : Span) : Span := Relation.ReflTransGen s

def either (s s' : Span) : Span := fun l l' => s l l' ∨ s' l l'

/-- A change of what the lexer is told about its surroundings. -/
def switch (f : Lexer → Lexer) : Span := fun l l' => l' = f l

variable (reg : Registry) (ns : Option Symbol) (s : Span)

/-! ### Tokens -/

def token (t : Token) : Span := fun l l' =>
  l.scan reg.findClass = .ok (t, l') ∧ t.kind ≠ .invalid

/-- A token of a kind for which `p` holds. -/
def kind (p : Token.Kind → Prop) : Span := fun l l' => ∃ t, token reg t l l' ∧ p t.kind

def one (k : Token.Kind) : Span := kind reg (· = k)

/-- Nothing, in front of a token of a kind for which `p` holds. -/
def ahead (p : Token.Kind → Prop) : Span := fun l l' => l' = l ∧ ∃ m, kind reg p l m

/-- A token of the given kind, or none of it. -/
def optional (k : Token.Kind) : Span := either (one reg k) (ahead reg (· ≠ k))

/-- A token that the given symbol is made of, in the namespace `ns`. -/
def symbol (x : Symbol) : Span := fun l l' => ∃ t, token reg t l l' ∧
  (t.kind = .identifier ∨ t.kind = .newExpr) ∧
  (match ns with
    | some n => Symbol.createIn n t.text
    | none => Symbol.new t.text) = .ok x

def anySymbol : Span := fun l l' => ∃ x, symbol reg ns x l l'

/-! ### Lists -/

/-- Expressions in front of a closing parenthesis or the end of the input. -/
def expressions : Span := seq [many s, ahead reg (Parser.atEnd · = true)]

/-- Expressions in front of a closing parenthesis. -/
def operands : Span := seq [many s, ahead reg (· = .rParen)]

def parenthesised (ss : List Span) : Span := seq (one reg .lParen :: (ss ++ [one reg .rParen]))

/-! ### Literals -/

def isValue (k : Token.Kind) : Prop :=
  k ∈ [.literalTrue, .literalFalse, .literalLong, .literalDouble, .literalString, .identifier]

def entry : Span := seq [anySymbol reg ns, s, optional reg .comma]

def mapLiteral : Span := seq [one reg .lBrace, many (entry reg ns s), one reg .rBrace]

/-- A parameter, and what says that it is optional or takes the rest. -/
def parameter : Span :=
  seq [one reg .identifier, either (kind reg fun k => k = .question ∨ k = .dotDotDot)
    (ahead reg fun k => k = .identifier ∨ k = .rBracket)]

def parameters : Span :=
  seq [one reg .lBracket, switch ({ · with args := true }), many (parameter reg), one reg .rBracket,
    switch ({ · with args := false })]

def name : Span :=
  either (seq [ahead reg (· = .identifier), anySymbol reg ns]) (ahead reg (· ≠ .identifier))

def body : Span := seq [optional reg .literalString, expressions reg s]

def function (k : Token.Kind) : Span := seq [one reg k, name reg ns, parameters reg, body reg s]

def dispatch : Span :=
  seq [one reg .dispatch, switch ({ · with dispatched := 0 }), expressions reg s, one reg .rParen,
    switch ({ · with dispatched := -1 })]

/-- A literal that starts with a token of kind `k`. -/
def literal : Token.Kind → Span
  | .fn => function reg ns s .fn
  | .dispatch => dispatch reg s
  | .lBrace => mapLiteral reg ns s
  | _ => kind reg isValue

/-- A span that the kind of its first token decides. -/
def byFirst (f : Token.Kind → Span) : Span := fun l l' => ∃ t m, token reg t l m ∧ f t.kind l l'

/-! ### Quotes -/

/-- Whether parentheses match, inside `depth` open ones. -/
def balanced : Nat → List Char → Bool
  | depth, [] => depth == 0
  | depth, '(' :: cs => balanced (depth + 1) cs
  | depth, ')' :: cs => depth != 0 && balanced (depth - 1) cs
  | depth, _ :: cs => balanced depth cs

/-- The characters that are read for a datum behind its quote, with matching parentheses. -/
def datum : Span := fun l l' => ∃ n m cs, l.skipWhitespace n = .ok m ∧
  m.readQuoted l.depth bufferSize = .ok (cs, l') ∧ balanced 0 cs = true

def quoted : Span := seq [one reg .quote, datum]

/-! ### Definitions -/

def native : Span :=
  seq [one reg .defNative, anySymbol reg ns, parameters reg, optional reg .literalString]

def definition : Span := seq [one reg .define, anySymbol reg ns, s]

def member : Span :=
  parenthesised reg [byFirst reg fun k => match k with
    | .defn => function reg ns s .defn
    | .defMacro => function reg ns s .defMacro
    | .defNative => native reg ns
    | _ => fun _ _ => False]

/-- A namespace, outside of namespaces; its members are parsed in it. -/
def namespace_ (s : Option Symbol → Span) : Span := fun l l' => ns = none ∧ ∃ x,
  seq [one reg .defNamespace, symbol reg none x, optional reg .literalString,
    operands reg (member reg (some x) (s (some x)))] l l'

/-! ### Calls -/

/-- Whether a symbol in front of operands is a field of a class. -/
def isField (x : Symbol) : Prop :=
  (Parser.typeOf reg x).bind (reg.getFunction · x) = none ∧
    ((Parser.typeOf reg x).bind (reg.getField · x)).isSome

/-- Whether a symbol behind `set!` is a field of a class. -/
def isSettable (x : Symbol) : Prop := ((Parser.typeOf reg x).bind (reg.getField · x)).isSome

/-- A field access has one operand, every other call any number of them. -/
def call : Span := fun l l' =>
  (∃ x, seq [ahead reg (· = .identifier), symbol reg ns x,
    fun l l' => isField reg x ∧ s l l' ∨ ¬ isField reg x ∧ operands reg s l l'] l l') ∨
  seq [ahead reg (· ≠ .identifier), s, operands reg s] l l'

def assignment : Span := fun l l' => ∃ x, seq [one reg .set, symbol reg ns x,
  fun l l' => isSettable reg x ∧ seq [s, s] l l' ∨ ¬ isSettable reg x ∧ s l l'] l l'

/-! ### Forms -/

def unary : Span := seq [kind reg fun k => ∃ op, k = .unaryOp op, s]

def binary : Span := seq [kind reg fun k => ∃ op, k = .binaryOp op, s, s, operands reg s]

/-- A list, or a range. -/
def list : Span :=
  seq [s, either (seq [ahead reg (· ≠ .range), operands reg s]) (seq [one reg .range, s])]

def rxOp : Span := parenthesised reg [anySymbol reg ns, expressions reg s]

def binding : Span := parenthesised reg [anySymbol reg ns, s]

def clause : Span :=
  parenthesised reg [byFirst reg (literal reg ns s), expressions reg s]

/-- What stands between the parentheses of a form whose first token has kind `k`. -/
def form (s : Option Symbol → Span) : Token.Kind → Span
  | .unaryOp _ => unary reg (s ns)
  | .binaryOp _ => binary reg (s ns)
  | .lBrace | .literalTrue | .literalFalse | .literalString | .literalLong | .literalDouble =>
      list reg (s ns)
  | .defNamespace => namespace_ reg ns s
  | .defMacro => function reg ns (s ns) .defMacro
  | .defNative => native reg ns
  | .define => definition reg ns (s ns)
  | .defn => function reg ns (s ns) .defn
  | .newExpr => seq [one reg .newExpr, expressions reg (s ns)]
  | .beginExpr => seq [one reg .beginExpr, operands reg (s ns)]
  | .set => assignment reg ns (s ns)
  | .cond => seq [one reg .cond, s ns, operands reg (s ns)]
  | .throwExpr => seq [one reg .throwExpr, s ns]
  | .fn => function reg ns (s ns) .fn
  | .lParen | .dispatch | .identifier => call reg ns (s ns)
  | .quote => quoted reg
  | .whenExpr => seq [one reg .whenExpr, s ns, expressions reg (s ns)]
  | .caseExpr => seq [one reg .caseExpr, s ns, many (clause reg ns (s ns)),
      ahead reg (Parser.atEnd · = true)]
  | .whileExpr => seq [one reg .whileExpr, s ns, expressions reg (s ns)]
  | .letRxExpr => seq [one reg .letRxExpr, s ns, many (rxOp reg ns (s ns)),
      ahead reg (Parser.atEnd · = true)]
  | .castExpr => seq [one reg .castExpr, s ns]
  | .instanceOfExpr => seq [one reg .instanceOfExpr, s ns]
  | .letExpr => seq [one reg .letExpr, one reg .lParen,
      operands reg (binding reg ns (s ns)), one reg .rParen, expressions reg (s ns)]
  | _ => fun _ _ => False

/-- A form, over the forms inside it. -/
def expression (s : Option Symbol → Span) : Span :=
  byFirst reg fun k =>
    if Parser.startsLiteral k then literal reg ns (s ns) k
    else if k = .quote then quoted reg
    else parenthesised reg [byFirst reg (form reg ns s)]

/-- The forms up to a depth of nesting. -/
def nested : Nat → Option Symbol → Span
  | 0, _ => fun _ _ => False
  | n + 1, ns => expression reg ns (nested n)

end Grammar

/-- One well-formed form of the language. -/
def Form (reg : Registry) (ns : Option Symbol) : Span := fun l l' =>
  ∃ n, Grammar.nested reg n ns l l'

end Gel
