import Gel.FlowGraphBuilder
import Gel.Interpreter
import Gel.Lexer
import Gel.MacroExpander

/-!
# Parser — tokens to expressions

The parse functions of `Parser`, each under its own name.  `ParseExpression` and the functions it
calls are mutually recursive; here every function takes `ParseExpression` as an argument, and
`parseExpression` ties the knot for a bounded depth of nesting.  A loop runs for at most as many
rounds.  Running out of either is the fault `timeout`, which the program does not have.

`ExpectNext` takes the next token whatever it is and only logs one that was not expected; `mismatches`
is that log.  `LOG(FATAL)` and exceptions are faults.  A parse function may return null; a node
whose child is null is not built here, and making one is undefined, as every use of it is.
Docstrings and positions are left out.
-/

namespace Gel

namespace Symbol

/-- The last position of a character, `find_last_of`. -/
def lastIndexOf (c : Char) (cs : List Char) : Option Nat :=
  (cs.reverse.findIdx? (· == c)).map (cs.length - 1 - ·)

/-- How `Symbol::New` takes a text apart.  The second argument of `substr` is a length, so the type
is cut at the position of the colon counted from the start of the text. -/
def split (cs : List Char) : Except Fault (List Char × List Char × List Char) :=
  let ns := ((lastIndexOf '/' cs).map cs.take).getD []
  let offset := if ns.isEmpty then 0 else ns.length + 1
  let type := ((lastIndexOf ':' cs).map (cs.drop offset).take).getD []
  let offset := offset + if type.isEmpty then 0 else type.length + 1
  if cs.length < offset then .error (.thrown "basic_string::substr")
  else .ok (ns, type, cs.drop offset)

def join (ns type name : List Char) : List Char :=
  (if ns.isEmpty then [] else ns ++ ['/']) ++ (if type.isEmpty then [] else type ++ [':']) ++ name

/-- `Symbol::NewInternal`. -/
def newInternal (cs : List Char) : Except Fault Symbol := do
  let (ns, type, name) ← split cs
  return { ns := .ofList ns, type := .ofList type, name := .ofList name }

/-- `Symbol::New(rhs)`. -/
def new (text : String) : Except Fault Symbol := do
  let (ns, type, name) ← split text.toList
  newInternal (join ns type name)

/-- `Namespace::CreateSymbol`, in the namespace with the given symbol. -/
def createIn (ns : Symbol) (text : String) : Except Fault Symbol :=
  if ns.name = "_kernel" then new text
  else
    let cs := text.toList
    let name := ((lastIndexOf '/' cs).map fun i => cs.drop (i + 1)).getD cs
    newInternal (join ns.name.toList [] name)

end Symbol

/-- What the parser looks up outside its input: `Class::FindClass`, the functions and fields of a
class with those of its parents, `Module::FindOrLoad`, and what constants are evaluated with.
Loading a module adds scopes; a scope keeps the parent it was constructed with. -/
structure Registry where
  findClass : String → Option ClassId := fun _ => none
  getFunction : ClassId → Symbol → Option Value := fun _ _ => none
  getField : ClassId → Symbol → Option Value := fun _ _ => none
  findOrLoad : String → Scopes → Option (ScopeId × Scopes) := fun _ _ => none
  findOrLoad_parents : ∀ {name m s m'}, findOrLoad name m = some (s, m') →
    m.scopes.map LocalScope.parent <+: m'.scopes.map LocalScope.parent := by nofun
  config : Config := {}

/-- A `Macro` as the parser makes it. -/
structure MacroObject where
  symbol : Option Symbol := none
  args : List Argument := []
  scope : Option ScopeId := none
  body : List Expr := []

/-- What the macro expander reads of a macro. -/
def MacroObject.toMacro (m : MacroObject) : Macro := ⟨m.args.map Argument.name, m.body⟩

structure NativeProcedure where
  symbol : Symbol
  args : List Argument := []
  deriving DecidableEq, Repr

structure Namespace where
  symbol : Symbol
  scope : ScopeId
  deriving DecidableEq, Repr

/-- A variable's value that is a namespace. -/
def Value.ofNamespace (id : Nat) : Value := .object (.other "Namespace") id

/-- A variable's value that is a module. -/
def Value.ofModule (id : Nat) : Value := .object (.other "Module") id

/-- A `Module` as the parser makes it; `init` is the lambda of its initialisation. -/
structure Module where
  name : String
  scope : ScopeId
  init : Option Nat := none
  deriving DecidableEq, Repr

/-- `Parser`, and the objects it makes.  `script` and `module` are the scopes of `script_` and
`module_`. -/
structure Parser where
  lexer : Lexer
  peek : Option Token := none
  scope : Option ScopeId := none
  scopes : Scopes := {}
  lambdas : List Lambda := []
  macros : List MacroObject := []
  natives : List NativeProcedure := []
  namespaces : List Namespace := []
  current : Option Symbol := none
  script : Option ScopeId := none
  module : Option ScopeId := none
  modules : List Module := []
  mismatches : List (Token.Kind × Token) := []

abbrev Parse := StateT Parser (Except Fault)

/-- A nullable result of a parse function. -/
abbrev ParseExpr := Parse (Option Expr)

namespace Parser

variable (reg : Registry)

/-! ### Tokens -/

/-- `NextToken`. -/
def nextToken : Parse Token := do
  let p ← get
  match p.peek with
  | some t =>
      set { p with peek := none }
      return t
  | none =>
      let (t, lexer) ← p.lexer.scan reg.findClass
      set { p with lexer }
      return t

/-- `PeekToken`; an invalid token is not kept. -/
def peekToken : Parse Token := do
  match (← get).peek with
  | some t => return t
  | none =>
      let t ← nextToken reg
      modify fun p => { p with peek := if t.kind = .invalid then none else some t }
      return t

/-- `PeekKind`. -/
def peekKind : Parse Token.Kind := Token.kind <$> peekToken reg

/-- `PeekEq`. -/
def peekEq (k : Token.Kind) : Parse Bool := (fun k' => k' == k) <$> peekKind reg

/-- `ExpectNext`: a token of another kind is taken all the same. -/
def expectNext (k : Token.Kind) : Parse Token := do
  let t ← nextToken reg
  if t.kind ≠ k then modify fun p => { p with mismatches := p.mismatches ++ [(k, t)] }
  return t

/-- A loop that parses items while the next token does not stop it. -/
def parseUntil {α : Type} (stop : Token.Kind → Bool) (item : Parse α) : Nat → Parse (List α)
  | 0 => throw .timeout
  | n + 1 => do
      if stop (← peekKind reg) then return []
      else
        let x ← item
        let xs ← parseUntil stop item n
        return x :: xs

/-- The stop of `while (!PeekEq(kRParen))`. -/
def atRParen (k : Token.Kind) : Bool := k == .rParen

/-- The stop of the loops that also end with the input. -/
def atEnd (k : Token.Kind) : Bool := k == .rParen || k == .endOfStream

/-- A child that a node is made of. -/
def nonnull (expr : ParseExpr) : Parse Expr := do
  match ← expr with
  | some e => return e
  | none => throw .undefined

/-! ### Scopes and symbols -/

/-- `PushScope`. -/
def pushScope : Parse ScopeId :=
  modifyGet fun p =>
    let (s, scopes) := p.scopes.newScope p.scope
    (s, { p with scope := some s, scopes })

/-- `GetScope`, where the scope is used. -/
def getScope : Parse ScopeId := do
  match (← get).scope with
  | some s => return s
  | none => throw .undefined

/-- `PopScope`; the parent of a root is null. -/
def popScope : Parse Unit := do
  let s ← getScope
  modify fun p => { p with scope := p.scopes.parentOf s }

/-- `LocalVariable::New(scope, symbol, value)`. -/
def newLocal (s : ScopeId) (name : String) (value : Option Value := none) : Parse LocalId :=
  modifyGet fun p =>
    let (l, scopes) := p.scopes.newLocal s name value
    (l, { p with scopes })

/-- `LOG_IF(FATAL, !scope->Add(local))`. -/
def addLocal (s : ScopeId) (l : LocalId) : Parse Unit := do
  let p ← get
  let (ok, scopes) := p.scopes.addLocal s l
  if ok then set { p with scopes } else throw .fatal

/-- `ParseSymbol`. -/
def parseSymbol : Parse Symbol := do
  let next ← nextToken reg
  if next.kind ≠ .identifier ∧ next.kind ≠ .newExpr then throw .fatal
  else match (← get).current with
    | some ns => Symbol.createIn ns next.text
    | none => Symbol.new next.text

/-! ### Literals -/

/-- `ParseLiteralValue`, with `ParseLiteralBool` and `ParseLiteralNumber`. -/
def parseLiteralValue : Parse Value := do
  let next ← nextToken reg
  match next.kind with
  | .literalTrue => return .bool true
  | .literalFalse => return .bool false
  | .literalLong => return .long next.asLong
  | .literalDouble => return .double next.asDouble
  | .literalString => return .string next.text
  | .identifier => return .symbol (← Symbol.new next.text)
  | _ => throw .fatal

/-- An entry of `ParseMap`. -/
def parseEntry (expr : ParseExpr) : Parse Entry := do
  let key ← parseSymbol reg
  let value ← nonnull expr
  if ← peekEq reg .comma then let _ ← nextToken reg
  return .mk key value

/-- `ParseMap`. -/
def parseMap (expr : ParseExpr) (n : Nat) : Parse Expr := do
  let _ ← expectNext reg .lBrace
  let data ← parseUntil reg (· == .rBrace) (parseEntry reg expr) n
  let _ ← expectNext reg .rBrace
  return .newMap data

/-- `ParseExpressionList`: a list that ends at a closing parenthesis or with the input. -/
def parseExpressionList (expr : ParseExpr) (n : Nat) (push : Bool := true) : Parse (List Expr) := do
  if push then let _ ← pushScope
  let expressions ← parseUntil reg atEnd expr n
  if push then popScope
  return expressions.reduceOption

/-! ### Lambdas and macros -/

/-- One parameter of `ParseArguments`, and what says that it is optional or takes the rest. -/
def parseArgument (bind : Bool) : Parse Argument := do
  let name := (← expectNext reg .identifier).text
  let arg : Argument ← match ← peekKind reg with
    | .question => do
        let _ ← nextToken reg
        pure { name, optional := true }
    | .dotDotDot => do
        let _ ← nextToken reg
        pure { name, vararg := true }
    | .identifier | .rBracket => pure { name }
    | _ => throw .fatal
  if bind then
    let scope ← getScope
    let l ← newLocal scope (← Symbol.new name).fullyQualifiedName
    addLocal scope l
  return arg

/-- `SetParsingArgs` and `ClearParsingArgs`. -/
def setParsingArgs (rhs : Bool) : Parse Unit :=
  modify fun p => { p with lexer := { p.lexer with args := rhs } }

/-- `ParseArguments`. -/
def parseArguments (n : Nat) (bind : Bool := false) : Parse (List Argument) := do
  let _ ← expectNext reg .lBracket
  setParsingArgs true
  let args ← parseUntil reg (· == .rBracket) (parseArgument reg bind) n
  setParsingArgs false
  let _ ← expectNext reg .rBracket
  return args

/-- The optional name in front of the parameters. -/
def parseName : Parse (Option Symbol) := do
  if ← peekEq reg .identifier then return some (← parseSymbol reg)
  else return none

/-- The docstring and the body of a lambda or a macro: a docstring without a body is the body. -/
def parseBody (expr : ParseExpr) (n : Nat) : Parse (List Expr) := do
  if ← peekEq reg .literalString then
    let docs ← expectNext reg .literalString
    let body ← parseExpressionList reg expr n false
    return if body.isEmpty then [.literal (.string docs.text)] else body
  else parseExpressionList reg expr n false

/-- The variables `$0`, `$1` … of a dispatch literal with `k` parameters.  They are counted by an
`int`, which overflows at the end of the loop when there are too many. -/
def bindParameters (scope : ScopeId) (k : Nat) : Parse (List Argument) :=
  if k < 2 ^ 31 then
    (List.range k).mapM fun i => do
      let name := "$" ++ toString i
      let l ← newLocal scope name
      addLocal scope l
      return { name }
  else throw .undefined

/-- `SetDispatched`. -/
def setDispatched (rhs : Int) : Parse Unit :=
  modify fun p => { p with lexer := { p.lexer with dispatched := rhs } }

/-- `Lambda::New`. -/
def newLambda : Parse Nat :=
  modifyGet fun p => (p.lambdas.length, { p with lambdas := p.lambdas ++ [{}] })

def setLambda (id : Nat) (f : Lambda) : Parse Unit :=
  modify fun p => { p with lambdas := p.lambdas.set id f }

/-- `ParseLambda` of a dispatch literal. -/
def parseDispatch (expr : ParseExpr) (n : Nat) : Parse Nat := do
  let id ← newLambda
  let scope ← pushScope
  let _ ← expectNext reg .dispatch
  setDispatched 0
  let l ← newLocal scope "this" (some (.lambda id))
  addLocal scope l
  let body ← parseExpressionList reg expr n
  let args ← bindParameters scope (← get).lexer.dispatched.toNat
  setLambda id { args, scope := some scope, body }
  popScope
  setDispatched (-1)
  let _ ← expectNext reg .rParen
  return id

/-- `ParseLambda` of `fn` and `defn`. -/
def parseFunction (expr : ParseExpr) (n : Nat) (kind : Token.Kind) : Parse Nat := do
  let id ← newLambda
  let scope ← pushScope
  let _ ← expectNext reg kind
  let symbol ← parseName reg
  let l ← newLocal scope ((symbol.map Symbol.fullyQualifiedName).getD "$") (some (.lambda id))
  addLocal scope l
  let args ← parseArguments reg n true
  let body ← parseBody reg expr n
  setLambda id { symbol, args, scope := some scope, body }
  popScope
  return id

/-- `ParseLambda`. -/
def parseLambda (expr : ParseExpr) (n : Nat) (kind : Token.Kind) : Parse Nat :=
  if kind = .dispatch then parseDispatch reg expr n else parseFunction reg expr n kind

/-- `ParseMacro`. -/
def parseMacro (expr : ParseExpr) (n : Nat) : Parse MacroId := do
  let _ ← expectNext reg .defMacro
  let id ← modifyGet fun p => (p.macros.length, { p with macros := p.macros ++ [{}] })
  let scope ← pushScope
  let symbol ← parseName reg
  let l ← newLocal scope ((symbol.map Symbol.fullyQualifiedName).getD "$") (some (.ofMacro id))
  addLocal scope l
  let args ← parseArguments reg n
  let body ← parseBody reg expr n
  popScope
  modify fun p => { p with macros := p.macros.set id { symbol, args, scope := some scope, body } }
  return id

/-- `ParseLiteralLambda`. -/
def parseLiteralLambda (expr : ParseExpr) (n : Nat) (kind : Token.Kind) : Parse Expr := do
  return .literal (.lambda (← parseLambda reg expr n kind))

/-- `ParseLiteralExpr`. -/
def parseLiteralExpr (expr : ParseExpr) (n : Nat) : Parse Expr := do
  let k ← peekKind reg
  if k = .fn ∨ k = .dispatch then parseLiteralLambda reg expr n k
  else if k = .lBrace then parseMap reg expr n
  else return .literal (← parseLiteralValue reg)

/-! ### Definitions -/

/-- `ParseDefn`, and the lambda it defines. -/
def parseDefn (expr : ParseExpr) (n : Nat) : Parse Unit := do
  let scope ← getScope
  let id ← parseLambda reg expr n .defn
  match (← get).lambdas[id]?.bind Lambda.symbol with
  | none => throw .undefined
  | some symbol =>
      let l ← newLocal scope symbol.fullyQualifiedName (some (.lambda id))
      addLocal scope l

/-- `ParseMacroDef`; a failure is fatal in every caller. -/
def parseMacroDef (expr : ParseExpr) (n : Nat) : Parse Unit := do
  let scope ← getScope
  let id ← parseMacro reg expr n
  match (← get).macros[id]?.bind MacroObject.symbol with
  | none => throw .undefined
  | some symbol =>
      let l ← newLocal scope symbol.fullyQualifiedName (some (.ofMacro id))
      addLocal scope l

/-- `NativeProcedure::FindOrCreate` and `SetArgs`: the native that is registered for the symbol. -/
def findOrCreate (symbol : Symbol) : Parse Nat := do
  let p ← get
  match p.natives.findIdx? (fun x => x.symbol.equals symbol) with
  | some i => return i
  | none =>
      set { p with natives := p.natives.concat { symbol } }
      return p.natives.length

/-- `ParseDefNative`; a failure is fatal in every caller. -/
def parseDefNative (n : Nat) : Parse Unit := do
  let _ ← expectNext reg .defNative
  let symbol ← parseSymbol reg
  let i ← findOrCreate symbol
  let args ← parseArguments reg n
  modify fun p => { p with natives := p.natives.modify i fun x => { x with args } }
  if ← peekEq reg .literalString then let _ ← expectNext reg .literalString
  let value := (← get).natives[i]?.map fun x => Value.native x.symbol
  let scope ← getScope
  let l ← newLocal scope symbol.fullyQualifiedName value
  addLocal scope l

/-- `ParseDef`: a constant becomes the value of the variable, and nothing is left to execute. -/
def parseDef (expr : ParseExpr) : ParseExpr := do
  let _ ← expectNext reg .define
  let symbol ← parseSymbol reg
  let scope ← getScope
  let l ← newLocal scope symbol.fullyQualifiedName
  addLocal scope l
  let value ← nonnull expr
  let p ← get
  let bound (x : Symbol) :=
    ((p.scopes.lookup reg.config.runtimeScope x.fullyQualifiedName).bind p.scopes.valueOf).isSome
  if value.isConstantExpr bound then
    match value.evalToConstant reg.config p.scopes scope with
    | some (some v) =>
        set { p with scopes := p.scopes.setValue l (some v) }
        return none
    | _ => throw .undefined
  else return some (.setLocal l value)

/-- A definition in `ParseNamespace`. -/
def parseMember (expr : ParseExpr) (n : Nat) : Parse Unit := do
  let _ ← expectNext reg .lParen
  match ← peekKind reg with
  | .defn => parseDefn reg expr n
  | .defMacro => parseMacroDef reg expr n
  | .defNative => parseDefNative reg n
  | _ => throw .fatal
  let _ ← expectNext reg .rParen

/-- `ParseNamespace`. -/
def parseNamespace (expr : ParseExpr) (n : Nat) : Parse Nat := do
  let _ ← expectNext reg .defNamespace
  let symbol ← parseSymbol reg
  let scope ← pushScope
  let id ← modifyGet fun p => (p.namespaces.length,
    { p with namespaces := p.namespaces ++ [{ symbol, scope }], current := some symbol })
  if ← peekEq reg .literalString then let _ ← expectNext reg .literalString
  let _ ← parseUntil reg atRParen (parseMember reg expr n) n
  modify fun p => { p with current := none }
  popScope
  return id

/-- `Script::Append(Namespace*)`, when a script is being parsed. -/
def appendNamespace (symbol : Symbol) (id : Nat) : Parse Unit := do
  let p ← get
  match p.script with
  | none => return
  | some s =>
      let (ok, scopes) := p.scopes.addValue s symbol.fullyQualifiedName (some (.ofNamespace id))
      if ok then set { p with scopes } else throw .fatal

/-- `Module::Append(Namespace*)`, when a module is being parsed; nothing looks at the result. -/
def appendToModule (ns : Namespace) : Parse Unit :=
  modify fun p => match p.module with
    | none => p
    | some s => { p with scopes := (p.scopes.addScope s ns.scope).2 }

/-- `ParseDefNamespace`; a failure is fatal in every caller. -/
def parseDefNamespace (expr : ParseExpr) (n : Nat) : Parse Unit := do
  if (← get).lexer.depth ≠ 1 then throw .fatal
  let id ← parseNamespace reg expr n
  match (← get).namespaces[id]? with
  | none => throw .undefined
  | some ns =>
      let scope ← getScope
      let l ← newLocal scope ns.symbol.fullyQualifiedName (some (.ofNamespace id))
      addLocal scope l
      appendNamespace ns.symbol id
      appendToModule ns

/-! ### Expressions -/

/-- `ParseQuotedExpr`. -/
def parseQuotedExpr (n : Nat) : Parse Expr := do
  let depth := (← get).lexer.depth
  let _ ← expectNext reg .quote
  let p ← get
  let lexer ← p.lexer.skipWhitespace n
  let (text, lexer) ← lexer.readQuoted depth bufferSize
  set { p with lexer }
  return if text = ['(', ')'] then .literal .null else .quoted (.string (.ofList text))

/-- Operands up to the closing parenthesis. -/
def parseOperands (expr : ParseExpr) (n : Nat) : Parse (List Expr) :=
  parseUntil reg atRParen (nonnull expr) n

/-- The class a symbol's type names, when it has a type. -/
def typeOf (symbol : Symbol) : Option ClassId :=
  if symbol.type ≠ "" then reg.findClass symbol.type else none

/-- `ParseCallExpr`: a call of a function of a class, of a field, of a class or of a target. -/
def parseCallExpr (expr : ParseExpr) (n : Nat) : Parse Expr := do
  if ← peekEq reg .identifier then
    let symbol ← parseSymbol reg
    match (typeOf reg symbol).bind (reg.getFunction · symbol),
        (typeOf reg symbol).bind (reg.getField · symbol) with
    | some func, _ => return .callProc (.literal func) (← parseOperands reg expr n)
    | none, some field => return .loadField (← nonnull expr) field
    | none, none => match reg.findClass symbol.name with
        | some c => return .new c (← parseOperands reg expr n)
        | none => return .callProc (.literal (.symbol symbol)) (← parseOperands reg expr n)
  else
    let target ← nonnull expr
    return .callProc target (← parseOperands reg expr n)

/-- `ParseUnaryExpr`. -/
def parseUnaryExpr (expr : ParseExpr) : Parse Expr := do
  match (← nextToken reg).kind with
  | .unaryOp op => return .unary op (← nonnull expr)
  | _ => throw .undefined

/-- The operands after the second of `ParseBinaryExpr`, folded from the left. -/
def parseBinaryRest (expr : ParseExpr) (op : BinaryOp) : Nat → Expr → Parse Expr
  | 0, _ => throw .timeout
  | n + 1, left => do
      if ← peekEq reg .rParen then return left
      else
        let right ← nonnull expr
        parseBinaryRest expr op n (.binaryOp op left right)

/-- `ParseBinaryExpr`. -/
def parseBinaryExpr (expr : ParseExpr) (n : Nat) : Parse Expr := do
  match (← nextToken reg).kind with
  | .binaryOp op =>
      let left ← nonnull expr
      let right ← nonnull expr
      parseBinaryRest reg expr op n (.binaryOp op left right)
  | _ => throw .undefined

/-- `ParseListExpr`: a range of two literals, or a list. -/
def parseListExpr (expr : ParseExpr) (n : Nat) : Parse Expr := do
  let first ← nonnull expr
  if ← peekEq reg .range then
    let _ ← nextToken reg
    match first with
    | .literal (.long a) => match ← expr with
        | some (.literal (.long b)) =>
            let (lo, hi) := (min a.toNat b.toNat, max a.toNat b.toNat)
            return .literal ((List.range' lo (hi - lo + 1)).foldr
              (fun i v => .pair (.long (.ofNat i)) v) .null)
        | _ => throw .fatal
    | _ => throw .fatal
  else
    return .list (first :: (← parseOperands reg expr n))

/-- `ParseBeginExpr`. -/
def parseBeginExpr (expr : ParseExpr) (n : Nat) : Parse Expr := do
  let _ ← expectNext reg .beginExpr
  let _ ← pushScope
  let body ← parseUntil reg atRParen expr n
  popScope
  return .begin body.reduceOption

/-- The loop of `ParseCondExpr`: a test and its action, or the alternate in front of the closing
parenthesis. -/
def parseCondClauses (expr : ParseExpr) : Nat → Parse (List Clause × Option Expr)
  | 0 => throw .timeout
  | n + 1 => do
      let a ← nonnull expr
      if ← peekEq reg .rParen then return ([], some a)
      else
        let b ← nonnull expr
        if ← peekEq reg .rParen then return ([.mk a [b]], none)
        else
          let (clauses, alt) ← parseCondClauses expr n
          return (.mk a [b] :: clauses, alt)

/-- `ParseCondExpr`. -/
def parseCondExpr (expr : ParseExpr) (n : Nat) : Parse Expr := do
  let _ ← expectNext reg .cond
  let (clauses, alt) ← parseCondClauses reg expr n
  return .cond clauses alt

/-- `ParseRxOpExpr`. -/
def parseRxOpExpr (expr : ParseExpr) (n : Nat) : Parse RxOp := do
  let _ ← expectNext reg .lParen
  let symbol ← parseSymbol reg
  let args ← parseExpressionList reg expr n
  let _ ← expectNext reg .rParen
  return .mk symbol args

/-- `ParseLetRxExpr`. -/
def parseLetRxExpr (expr : ParseExpr) (n : Nat) : Parse Expr := do
  let _ ← expectNext reg .letRxExpr
  let _ ← pushScope
  let observable ← nonnull expr
  let operators ← parseUntil reg atEnd (parseRxOpExpr reg expr n) n
  popScope
  return .letRx observable operators

/-- A binding of `ParseLetExpr`. -/
def parseBinding (expr : ParseExpr) (scope : ScopeId) : Parse Expr := do
  let _ ← expectNext reg .lParen
  let symbol ← parseSymbol reg
  if (← get).scopes.has scope symbol.fullyQualifiedName then
    throw (.thrown s!"cannot redefine binding for: {symbol.fullyQualifiedName}")
  let value ← nonnull expr
  let l ← newLocal scope symbol.fullyQualifiedName
  addLocal scope l
  let _ ← expectNext reg .rParen
  return .binding l value

/-- `ParseLetExpr`. -/
def parseLetExpr (expr : ParseExpr) (n : Nat) : Parse Expr := do
  let _ ← expectNext reg .letExpr
  let scope ← pushScope
  let _ ← expectNext reg .lParen
  let bindings ← parseUntil reg atRParen (parseBinding reg expr scope) n
  let _ ← expectNext reg .rParen
  let body ← parseExpressionList reg expr n
  popScope
  return .let bindings body

/-- `ParseThrowExpr`. -/
def parseThrowExpr (expr : ParseExpr) : Parse Expr := do
  let _ ← expectNext reg .throwExpr
  return .throw (← nonnull expr)

/-- `ParseSetExpr`: a field of an instance, or a variable in scope. -/
def parseSetExpr (expr : ParseExpr) : Parse Expr := do
  let _ ← expectNext reg .set
  let symbol ← parseSymbol reg
  match (typeOf reg symbol).bind (reg.getField · symbol) with
  | some field =>
      let instance_ ← nonnull expr
      return .setField field instance_ (← nonnull expr)
  | none =>
      let scope ← getScope
      match (← get).scopes.lookup scope symbol.fullyQualifiedName with
      | none => throw .fatal
      | some l => return .setLocal l (← nonnull expr)

/-- `ParseWhenExpr`. -/
def parseWhenExpr (expr : ParseExpr) (n : Nat) : Parse Expr := do
  let _ ← expectNext reg .whenExpr
  let test ← nonnull expr
  return .when test (← parseExpressionList reg expr n)

/-- A clause of `ParseClauseList`. -/
def parseClause (expr : ParseExpr) (n : Nat) : Parse Clause := do
  let _ ← expectNext reg .lParen
  let key ← parseLiteralExpr reg expr n
  let actions ← parseExpressionList reg expr n
  let _ ← expectNext reg .rParen
  return .mk key actions

/-- `ParseCaseExpr`. -/
def parseCaseExpr (expr : ParseExpr) (n : Nat) : Parse Expr := do
  let _ ← expectNext reg .caseExpr
  let key ← nonnull expr
  return .case key (← parseUntil reg atEnd (parseClause reg expr n) n)

/-- `ParseWhileExpr`. -/
def parseWhileExpr (expr : ParseExpr) (n : Nat) : Parse Expr := do
  let _ ← expectNext reg .whileExpr
  let test ← nonnull expr
  return .while test (← parseExpressionList reg expr n)

/-- The class a token of a given kind names; it must exist. -/
def parseClass (kind : Token.Kind) : Parse ClassId := do
  let symbol ← Symbol.new (← expectNext reg kind).text
  match reg.findClass symbol.name with
  | some c => return c
  | none => throw .fatal

/-- `ParseCastExpr`. -/
def parseCastExpr (expr : ParseExpr) : Parse Expr := do
  let c ← parseClass reg .castExpr
  return .cast c (← nonnull expr)

/-- `ParseInstanceOfExpr`. -/
def parseInstanceOfExpr (expr : ParseExpr) : Parse Expr := do
  let c ← parseClass reg .instanceOfExpr
  return .instanceOf c (← nonnull expr)

/-- `ParseNewExpr`. -/
def parseNewExpr (expr : ParseExpr) (n : Nat) : Parse Expr := do
  let c ← parseClass reg .newExpr
  let args ← parseExpressionList reg expr n
  if ← peekEq reg .rParen then return .new c args else throw .fatal

/-- `ParseImportExpr`. -/
def parseImportExpr : Parse Expr := do
  let _ ← expectNext reg .importExpr
  let next ← expectNext reg .literalString
  let scope ← getScope
  let p ← get
  match reg.findOrLoad next.text p.scopes with
  | none => throw .fatal
  | some (m, scopes) =>
      let (ok, scopes) := scopes.addScope scope m
      if ok then
        set { p with scopes }
        return .import
      else throw .fatal

/-- The switch of `ParseExpression` after its opening parenthesis. -/
def parseForm (expr : ParseExpr) (n : Nat) : ParseExpr := do
  match ← peekKind reg with
  | .unaryOp _ => some <$> parseUnaryExpr reg expr
  | .binaryOp _ => some <$> parseBinaryExpr reg expr n
  | .lBrace | .literalTrue | .literalFalse | .literalString | .literalLong | .literalDouble =>
      some <$> parseListExpr reg expr n
  | .defNamespace => do parseDefNamespace reg expr n; return none
  | .defMacro => do parseMacroDef reg expr n; return none
  | .defNative => do parseDefNative reg n; return none
  | .define => parseDef reg expr
  | .defn => do parseDefn reg expr n; return none
  | .newExpr => some <$> parseNewExpr reg expr n
  | .beginExpr => some <$> parseBeginExpr reg expr n
  | .set => some <$> parseSetExpr reg expr
  | .cond => some <$> parseCondExpr reg expr n
  | .throwExpr => some <$> parseThrowExpr reg expr
  | .fn => some <$> parseLiteralLambda reg expr n .fn
  | .lParen | .dispatch | .identifier => some <$> parseCallExpr reg expr n
  | .quote => some <$> parseQuotedExpr reg n
  | .whenExpr => some <$> parseWhenExpr reg expr n
  | .caseExpr => some <$> parseCaseExpr reg expr n
  | .whileExpr => some <$> parseWhileExpr reg expr n
  | .letRxExpr => some <$> parseLetRxExpr reg expr n
  | .castExpr => some <$> parseCastExpr reg expr
  | .instanceOfExpr => some <$> parseInstanceOfExpr reg expr
  | .letExpr => some <$> parseLetExpr reg expr n
  | _ => throw .fatal

/-- The kinds at which `ParseExpression` calls `ParseLiteralExpr`. -/
def startsLiteral (k : Token.Kind) : Bool :=
  k.isLiteral || k == .identifier || k == .dispatch || k == .fn

/-- `ParseExpression`, for at most the given depth of nesting. -/
def parseExpression : Nat → ParseExpr
  | 0 => throw .timeout
  | n + 1 => do
      let k ← peekKind reg
      if startsLiteral k then some <$> parseLiteralExpr reg (parseExpression n) n
      else if k = .quote then some <$> parseQuotedExpr reg n
      else
        let _ ← expectNext reg .lParen
        let e ← parseForm reg (parseExpression n) n
        let _ ← expectNext reg .rParen
        return e

/-! ### Scripts -/

/-- The switch of `ParseScript` after its opening parenthesis. -/
def parseScriptForm (expr : ParseExpr) (n : Nat) : ParseExpr := do
  match ← peekKind reg with
  | .unaryOp _ => some <$> parseUnaryExpr reg expr
  | .binaryOp _ => some <$> parseBinaryExpr reg expr n
  | .lBrace | .literalTrue | .literalFalse | .literalString | .literalLong | .literalDouble =>
      some <$> parseListExpr reg expr n
  | .defNamespace => do parseDefNamespace reg expr n; return none
  | .define => parseDef reg expr
  | .defn => do parseDefn reg expr n; return none
  | .defMacro => do parseMacroDef reg expr n; return none
  | .beginExpr => some <$> parseBeginExpr reg expr n
  | .set => some <$> parseSetExpr reg expr
  | .cond => some <$> parseCondExpr reg expr n
  | .throwExpr => some <$> parseThrowExpr reg expr
  | .fn => some <$> parseLiteralLambda reg expr n .fn
  | .lParen | .dispatch | .identifier => some <$> parseCallExpr reg expr n
  | .quote => some <$> parseQuotedExpr reg n
  | .whenExpr => some <$> parseWhenExpr reg expr n
  | .caseExpr => some <$> parseCaseExpr reg expr n
  | .whileExpr => some <$> parseWhileExpr reg expr n
  | .letExpr => some <$> parseLetExpr reg expr n
  | .letRxExpr => some <$> parseLetRxExpr reg expr n
  | .castExpr => some <$> parseCastExpr reg expr
  | .instanceOfExpr => some <$> parseInstanceOfExpr reg expr
  | .importExpr => some <$> parseImportExpr reg
  | _ => throw .fatal

/-- What a round of the loop of `ParseScript` appends in front of its opening parenthesis. -/
def parseAtom (expr : ParseExpr) (n : Nat) : Parse (List Expr) := do
  let k ← peekKind reg
  if startsLiteral k then return [← parseLiteralExpr reg expr n]
  else if k = .quote then return [← parseQuotedExpr reg n]
  else return []

/-- A round of the loop of `ParseScript`.  After an atom it goes on to the parenthesised form. -/
def parseRound (expr : ParseExpr) (n : Nat) : Parse (List Expr) := do
  let atom ← parseAtom reg expr n
  let _ ← expectNext reg .lParen
  let e ← parseScriptForm reg expr n
  let _ ← expectNext reg .rParen
  return atom ++ e.toList

/-- The loop of `ParseScript`. -/
def parseRounds (expr : ParseExpr) (n : Nat) : Nat → Parse (List Expr)
  | 0 => throw .timeout
  | k + 1 => do
      if ← peekEq reg .endOfStream then return []
      else
        let es ← parseRound reg expr n
        return es ++ (← parseRounds expr n k)

/-- `PushScope` and `Script::New`. -/
def newScript : Parse ScopeId := do
  let scope ← pushScope
  modify fun p => { p with script := some scope }
  return scope

/-- `ParseScript`, for at most `k` rounds. -/
def parseScript (n k : Nat) : Parse Script := do
  let scope ← newScript
  let body ← parseRounds reg (parseExpression reg n) n k
  popScope
  return { scope, body }

/-! ### Modules -/

/-- `PushScope`, `Module::New` and `SetModule`. -/
def newModule (name : String) : Parse Nat := do
  let scope ← pushScope
  modifyGet fun p => (p.modules.length,
    { p with modules := p.modules ++ [{ name, scope }], module := some scope })

/-- `Module::CreateInitFunc`: a lambda whose scope has no parent. -/
def createInitFunc (id : Nat) (body : List Expr) : Parse Unit := do
  let init ← newLambda
  let scope ← modifyGet fun p =>
    let (s, scopes) := p.scopes.newScope none
    (s, { p with scopes })
  let self ← newLocal scope "this" (some (.ofModule id))
  addLocal scope self
  setLambda init { args := [{ name := "this" }], scope := some scope, body }
  modify fun p => { p with modules := p.modules.modify id fun m => { m with init := some init } }

/-- `ParseModule`, for at most `k` rounds. -/
def parseModule (name : String) (n k : Nat) : Parse Nat := do
  let id ← newModule name
  let body ← parseUntil reg (· == .endOfStream) (parseExpression reg n) k
  if !body.reduceOption.isEmpty then createInitFunc id body.reduceOption
  popScope
  modify fun p => { p with module := none }
  return id

/-- `Parser(stream, scope)`. -/
def ofString (text : String) (scope : ScopeId := 0) (scopes : Scopes := { scopes := [⟨none, []⟩] }) :
    Parser :=
  { lexer := { chars := text.toList }, scope := some scope, scopes }

end Parser

end Gel
