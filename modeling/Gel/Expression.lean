import Gel.LocalScope

/-!
# Expression — the trees the parser hands to the compiler

One constructor for each node of `FOR_EACH_EXPRESSION_NODE` that the flow graph builder visits.
The nodes are those of a body after parsing and macro expansion; a variable is named by the
`LocalVariable` the parser resolved it to (`LocalDef`, `SetLocalExpr`, `Binding`) or, in a
`LiteralExpr`, by its symbol.
-/

namespace Gel

mutual

/-- `expr::Expression`. -/
inductive Expr where
  | literal (value : Value)
  | quoted (value : Value)
  | unary (op : UnaryOp) (value : Expr)
  | binaryOp (op : BinaryOp) (left right : Expr)
  | begin (body : List Expr)
  | while (test : Expr) (body : List Expr)
  | cond (clauses : List Clause) (alternate : Option Expr)
  | when (test : Expr) (actions : List Expr)
  | case (key : Expr) (clauses : List Clause)
  | localDef (l : LocalId) (value : Expr)
  | setLocal (l : LocalId) (value : Expr)
  | setField (field : Value) (instance_ value : Expr)
  | loadField (instance_ : Expr) (field : Value)
  | import
  | callProc (target : Expr) (args : List Expr)
  | binding (l : LocalId) (value : Expr)
  | let (bindings body : List Expr)
  | letRx (source : Expr) (operators : List RxOp)
  | list (values : List Expr)
  | throw (value : Expr)
  | instanceOf (target : ClassId) (value : Expr)
  | cast (target : ClassId) (value : Expr)
  | new (target : ClassId) (args : List Expr)
  | newMap (data : List Entry)
  | loadInstanceMethod (target : ClassId) (name : Symbol)

/-- `expr::ClauseExpr`, of a `cond` or a `case`. -/
inductive Clause where
  | mk (key : Expr) (actions : List Expr)

/-- `expr::RxOpExpr`: the operator's symbol and its arguments. -/
inductive RxOp where
  | mk (symbol : Symbol) (args : List Expr)

/-- A key and a value of `expr::NewMapExpr`. -/
inductive Entry where
  | mk (key : Symbol) (value : Expr)

end

def Clause.key : Clause → Expr
  | mk k _ => k

def Clause.actions : Clause → List Expr
  | mk _ as => as

namespace Expr

mutual

/-- `Expression::IsConstantExpr`.  `SequenceExpr::IsConstantExpr` answers whether some child is
*not* constant; `ListExpr` overrides it, `LetExpr` and `LetRxExpr` are never constant.  The answer
of a `NewExpr` also depends on the runtime's current scope, whose lookup is `bound`. -/
def isConstantExpr (bound : Symbol → Bool) : Expr → Bool
  | literal _ => true
  | binaryOp _ l r => l.isConstantExpr bound && r.isConstantExpr bound
  | begin body => !allConstant bound body
  | .while _ body => !allConstant bound body
  | list values => allConstant bound values
  | instanceOf _ v => v.isConstantExpr bound
  | new _ args => allConstantArgs bound args
  | _ => false

def allConstant (bound : Symbol → Bool) : List Expr → Bool
  | [] => true
  | e :: es => e.isConstantExpr bound && allConstant bound es

/-- The arguments of a `NewExpr`: a symbol must be bound to a value. -/
def allConstantArgs (bound : Symbol → Bool) : List Expr → Bool
  | [] => true
  | .literal (.symbol s) :: es => bound s && allConstantArgs bound es
  | e :: es => e.isConstantExpr bound && allConstantArgs bound es

end

end Expr

end Gel
