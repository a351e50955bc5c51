import Gel.Expression
import Gel.Instruction

/-!
# FlowGraphBuilder — from expressions to a flow graph

`EffectVisitor` and `ValueVisitor` of `flow_graph_builder.cc`.  A visitor owns a fragment, the
chain from its entry to its exit; the two visitors run the same code and differ in what
`ReturnDefinition` does with the definition that stands for an expression's value.

Where the C++ reads through a null pointer, aborts or does not return, the builder has no result.
-/

namespace Gel

/-- What the builder finds in its surroundings: the pedantic flag, the scope of the reactive
operators, the runtime's current scope and `Class::NewInstance`. -/
structure Config where
  pedantic : Bool := true
  rxScope : ScopeId := 0
  runtimeScope : ScopeId := 0
  newInstance : ClassId → List Value → Option Value := fun _ _ => none

/-- The state of a `FlowGraphBuilder` and of the stores it works on. -/
structure Builder where
  scope : ScopeId
  numBlocks : Nat := 0
  graph : Graph := {}
  scopes : Scopes := {}
  nextObject : Nat := 0

abbrev Build := StateT Builder Option

/-- Which of the two visitors runs. -/
inductive Mode where
  | effect
  | value
  deriving DecidableEq, Repr

/-- The fields of `EffectVisitor`, and `value_` of `ValueVisitor`. -/
structure Visitor where
  entry : Option InstrId := none
  exit : Option InstrId := none
  value : Option InstrId := none
  deriving DecidableEq, Repr

namespace Visitor

def isEmpty (v : Visitor) : Bool := v.entry.isNone

def isOpen (v : Visitor) : Bool := v.isEmpty || v.exit.isSome

end Visitor

namespace Expr

mutual

/-- `Expression::EvalToConstant`; `some none` is a null result.  A null element of a list is a
null `car`, which `gel::Car` reads as the empty pair. -/
def evalToConstant (cfg : Config) (m : Scopes) (s : ScopeId) : Expr → Option (Option Value)
  | literal v => some (some v)
  | binaryOp op l r => do
      let left ← l.evalToConstant cfg m s
      let right ← r.evalToConstant cfg m s
      match op with
      | .add | .subtract | .multiply | .divide | .modulus => do
          let left ← left
          match right with
          | none => some (some .null)
          | some right => match op.apply left right with
              | .ok v => some (some v)
              | .error _ => none
      | _ => none
  | list values => some <$> evalList cfg m s values
  | instanceOf c e => do
      let v ← e.evalToConstant cfg m s
      let v ← v
      return some (.bool (v.type.isInstanceOf c))
  | new c args => do
      match ← evalArgs cfg m s args with
      | none => return none
      | some values => return some (← cfg.newInstance c values)
  | _ => some none

/-- `ListExpr::EvalToConstant`, from the last child to the first. -/
def evalList (cfg : Config) (m : Scopes) (s : ScopeId) : List Expr → Option Value
  | [] => some .null
  | e :: es => do
      let rest ← evalList cfg m s es
      let v ← e.evalToConstant cfg m s
      return .pair (v.getD .null) rest

/-- The arguments of `NewExpr::EvalToConstant`: a symbol stands for the value of its variable. -/
def evalArgs (cfg : Config) (m : Scopes) (s : ScopeId) : List Expr → Option (Option (List Value))
  | [] => some (some [])
  | .literal (.symbol x) :: es =>
      match (m.lookup s x.fullyQualifiedName).bind m.valueOf with
      | none => some none
      | some v => (fun vs => vs.map (v :: ·)) <$> evalArgs cfg m s es
  | e :: es =>
      if e.isConstantExpr fun x =>
          ((m.lookup cfg.runtimeScope x.fullyQualifiedName).bind m.valueOf).isSome then do
        let v ← e.evalToConstant cfg m s
        (fun vs => vs.map (v.getD .null :: ·)) <$> evalArgs cfg m s es
      else some none

end

end Expr

namespace FlowGraphBuilder

/-- `GetNextBlockId`. -/
def getNextBlockId : Build BlockId :=
  modifyGet fun b => (b.numBlocks, { b with numBlocks := b.numBlocks + 1 })

/-- Allocate an instruction. -/
def newInstr (i : Instr) : Build InstrId :=
  modifyGet fun b => let (id, g) := b.graph.alloc i; (id, { b with graph := g })

/-- `TargetEntryInstr::New(GetOwner()->GetNextBlockId())`. -/
def newTarget : Build InstrId := do newInstr (.targetEntry (← getNextBlockId))

/-- `JoinEntryInstr::New(GetOwner()->GetNextBlockId())`. -/
def newJoin : Build InstrId := do newInstr (.joinEntry (← getNextBlockId))

/-- `FlowGraphBuilder::PushScope`. -/
def pushScope : Build Unit :=
  modify fun b =>
    let (s, m) := b.scopes.newScope (some b.scope)
    { b with scope := s, scopes := m }

/-- `FlowGraphBuilder::PopScope`. -/
def popScope : Build Unit := do
  let b ← get
  match b.scopes.parentOf b.scope with
  | some p => set { b with scope := p }
  | none => failure

/-- `EffectVisitor::Add`; `Do` and `Bind` have the same body.  Linking at a null exit reads
through it. -/
def add (v : Visitor) (i : InstrId) : Build Visitor := do
  if v.isEmpty then
    return { v with entry := some i, exit := some i }
  else match v.exit with
    | none => failure
    | some x =>
        modify fun b => { b with graph := b.graph.link x i }
        return { v with exit := some i }

/-- Allocate an instruction and `Add` it. -/
def addNew (v : Visitor) (i : Instr) : Build Visitor := do add v (← newInstr i)

/-- `EffectVisitor::Append`: the other visitor's fragment behind this one's exit. -/
def append (v rhs : Visitor) : Build Visitor := do
  match rhs.entry with
  | none => return v
  | some e =>
      if v.isEmpty then
        return { v with entry := some e, exit := rhs.exit }
      else match v.exit with
        | none => failure
        | some x =>
            modify fun b => { b with graph := b.graph.link x e }
            return { v with exit := rhs.exit }

/-- `entry->Append(instr)`. -/
def appendInstr (entry i : InstrId) : Build Unit := do
  let b ← get
  match b.graph.append entry i with
  | some g => set { b with graph := g }
  | none => failure

/-- `AppendFragment`: a visitor's fragment at the end of a block's chain. -/
def appendFragment (entry : InstrId) (v : Visitor) : Build Unit :=
  match v.entry with
  | none => return
  | some e => appendInstr entry e

/-- `ReturnDefinition`: an effect visitor drops a constant. -/
def returnDefinition (m : Mode) (v : Visitor) (defn : InstrId) : Build Visitor := do
  match m with
  | .effect => if (← get).graph.isConstant defn then return v else add v defn
  | .value => return { ← add v defn with value := some defn }

/-- `ReturnDefinition` of a new instruction. -/
def returnNew (m : Mode) (v : Visitor) (i : Instr) : Build Visitor := do
  returnDefinition m v (← newInstr i)

/-- `AddInstanceOf`, under `IsPedantic`. -/
def addInstanceOf (cfg : Config) (v : Visitor) (c : ClassId) : Build Visitor :=
  if cfg.pedantic then addNew v (.instanceOf c) else return v

/-- `ReturnCallTo`, with `CreateCallFor` inlined: a constant native, a constant lambda, or a
symbol to look up when the call runs. -/
def returnCallTo (cfg : Config) (m : Mode) (v : Visitor) (defn : InstrId) (numArgs : UInt64) :
    Build Visitor := do
  match (← get).graph.constantValue defn with
  | some (.native _) => returnNew m v (.invokeNative defn numArgs)
  | some (.lambda _) => returnNew m v (.invoke defn numArgs)
  | _ =>
      let v ← add v defn
      let v ← addInstanceOf cfg v .symbol
      let v ← addNew v .lookup
      let invoke ← newInstr (.invokeDynamic numArgs)
      let v ← addInstanceOf cfg v .procedure
      returnDefinition m v invoke

/-- The symbol of `proc::list`. -/
def listSymbol : Symbol := { name := "list" }

/-- `AddImplicitReturn`. -/
def addImplicitReturn (v : Visitor) : Build Visitor := do
  match v.exit with
  | none => return v
  | some x => if (← get).graph.isReturn x then return v else addNew v .ret

/-- `StoreLocalInstr::New(local, _)`. -/
def storeLocal (l : LocalId) : Build Instr := do
  match (← get).scopes.locals[l]? with
  | some x => return .storeLocal l x.index
  | none => failure

/-- `LoadLocalInstr::New(local)`. -/
def loadLocal (l : LocalId) : Build Instr := do
  match (← get).scopes.locals[l]? with
  | some x => return .loadLocal l x.index
  | none => failure

/-- `VisitLiteralExpr`: a symbol that resolves to a variable with a value is that value. -/
def visitLiteral (m : Mode) (v : Visitor) (value : Value) : Build Visitor := do
  match value with
  | .symbol x =>
      let b ← get
      match b.scopes.lookup b.scope x.fullyQualifiedName with
      | none => returnNew m v (.constant value)
      | some l => match b.scopes.valueOf l with
          | some y => returnNew m v (.constant y)
          | none => returnNew m v (← loadLocal l)
  | _ => returnNew m v (.constant value)

/-- `IsConstantExpr`, with the runtime's current scope. -/
def isConstantExpr (cfg : Config) (e : Expr) : Build Bool := do
  let m := (← get).scopes
  return e.isConstantExpr fun x =>
    ((m.lookup cfg.runtimeScope x.fullyQualifiedName).bind m.valueOf).isSome

/-- `EvalToConstant(GetOwner()->GetScope())`. -/
def evalToConstant (cfg : Config) (e : Expr) : Build (Option Value) := do
  let b ← get
  match e.evalToConstant cfg b.scopes b.scope with
  | some v => return v
  | none => failure

/-- `expr->GetValue()` is a call of the native with symbol `s`, by its target literal. -/
def isCallSymbol (s : Symbol) : Expr → Bool
  | .callProc (.literal (.symbol x)) _ => x.equals s
  | _ => false

def publishSubjectSymbol : Symbol := { ns := "rx", name := "publish-subject" }

def replaySubjectSymbol : Symbol := { ns := "rx", name := "replay-subject" }

def subscribeSymbol : Symbol := { ns := "rx", name := "subscribe" }

def completeSymbol : Symbol := { ns := "rx", name := "complete" }

/-- A new subject of the given class. -/
def newSubject (c : ClassId) : Build Value :=
  modifyGet fun b => (.object c b.nextObject, { b with nextObject := b.nextObject + 1 })

/-- `IsObservableSource || IsSubjectSource`. -/
def isRxSource (m : Scopes) (s : ScopeId) : Expr → Bool
  | .literal (.symbol x) => (m.lookup s x.fullyQualifiedName).isSome
  | .literal v => v.type.isInstanceOf .observable || v.type.isInstanceOf .subject
  | .cast c _ => c == .observable || c.isInstanceOf .subject
  | _ => false

/-- The last steps of `RxEffectVisitor::VisitRxOpExpr`: the operator is found by name and must be
a procedure known now.  The dynamic path steps past the instruction it allocates. -/
def addRxCall (v : Visitor) (symbol : Symbol) (numArgs : UInt64) : Build Visitor := do
  let b ← get
  match b.scopes.lookup b.scope symbol.fullyQualifiedName with
  | none => failure
  | some l => match b.scopes.valueOf l with
      | none => failure
      | some y =>
          let target ← newInstr (.constant y)
          match y with
          | .native _ => addNew v (.invokeNative target numArgs)
          | .lambda _ => addNew v (.invoke target numArgs)
          | _ => failure

mutual

/-- `Expression::Accept`, on an effect or a value visitor. -/
def visit (cfg : Config) (m : Mode) : Expr → Visitor → Build Visitor
  | .literal value, v => visitLiteral m v value
  | .quoted value, v => returnNew m v (.constant value)
  | .unary op e, v => do
      let v ← append v (← visit cfg .value e {})
      let v ← if op = .car ∨ op = .cdr then addInstanceOf cfg v .pair else pure v
      returnNew m v (.unaryOp op)
  | .binaryOp op l r, v => do
      let v ← append v (← visit cfg .value l {})
      let v ← append v (← visit cfg .value r {})
      returnNew m v (.binaryOp op)
  | .begin body, v => visitSequence cfg body v
  | .while test body, v => do
      let target ← newTarget
      let v ← add v target
      let bodyTarget ← newTarget
      let join ← newJoin
      appendFragment target (← visit cfg .value test {})
      appendInstr target (← newInstr (.branch .true bodyTarget none join))
      appendFragment bodyTarget (← visitBody cfg body {})
      appendInstr bodyTarget (← newInstr (.goto target))
      return { v with exit := some join }
  | .cond clauses alternate, v => do
      let altTarget ← newTarget
      let join ← newJoin
      let v ← visitCondClauses cfg altTarget join clauses v
      visitAlternate cfg altTarget join alternate
      return { v with exit := some join }
  | .when test actions, v => do
      let join ← newJoin
      let conseqTarget ← newTarget
      visitConseq cfg conseqTarget actions
      appendInstr conseqTarget (← newInstr (.goto join))
      let v ← append v (← visit cfg .value test {})
      let v ← addNew v (.branch .true conseqTarget none join)
      return { v with exit := some join }
  | .case key clauses, v => do
      let join ← newJoin
      let v ← visitCaseClauses cfg (visit cfg .value key) join clauses v
      return { v with exit := some join }
  | .localDef l e, v => do
      let v ← append v (← visit cfg .value e {})
      addNew v (← storeLocal l)
  | .setLocal l e, v => do
      let v ← append v (← visit cfg .value e {})
      addNew v (← storeLocal l)
  | .setField field inst e, v => do
      let v ← append v (← visit cfg .value e {})
      let v ← append v (← visit cfg .value inst {})
      addNew v (.storeField field)
  | .loadField inst field, v => do
      let v ← append v (← visit cfg .value inst {})
      returnNew m v (.loadField field)
  | .import, v => return v
  | .callProc target args, v => do
      let v ← visitArgs cfg args v
      let forTarget ← visit cfg .value target {}
      match forTarget.value with
      | none => failure
      | some defn => returnCallTo cfg m v defn (.ofNat args.length)
  | .binding l e, v => do
      let b ← get
      let (ok, scopes) := b.scopes.addLocal b.scope l
      if !ok then failure
      set { b with scopes }
      if isCallSymbol publishSubjectSymbol e then
        let v ← addNew v (.constant (← newSubject .publishSubject))
        addNew v (← storeLocal l)
      else if isCallSymbol replaySubjectSymbol e then
        let v ← addNew v (.constant (← newSubject .replaySubject))
        addNew v (← storeLocal l)
      else
        let v ← append v (← visit cfg .value e {})
        addNew v (← storeLocal l)
  | .let bindings body, v => do
      let target ← newTarget
      let v ← addNew v (.goto target)
      let join ← newJoin
      pushScope
      let returnValue ← visitChildren cfg target bindings none
      let returnValue ← visitChildren cfg target body returnValue
      let returnValue ← match returnValue with
        | some d => pure d
        | none => do
            let d ← newInstr (.constant .null)
            appendInstr target d
            pure d
      let v ← returnDefinition m v returnValue
      appendInstr target (← newInstr (.goto join))
      popScope
      return { v with exit := some join }
  | .letRx source operators, v => do
      let b ← get
      let (s, scopes) := b.scopes.newScope (some b.scope)
      let scopes := { scopes with
        scopes := scopes.scopes.modify s fun x => { x with locals := scopes.localsOf cfg.rxScope } }
      let (l, scopes) := scopes.newLocal s "."
      let (ok, scopes) := scopes.addLocal s l
      if !ok then failure
      set { b with scope := s, scopes }
      let v ← append v (← visit cfg .value source {})
      let b ← get
      let v ← if isRxSource b.scopes s source then addNew v (← storeLocal l)
        else do addNew (← addNew v (.cast .observable)) (← storeLocal l)
      let v ← visitOperators cfg m l operators v
      popScope
      return v
  | .list values, v => do
      if ← isConstantExpr cfg (.list values) then
        match ← evalToConstant cfg (.list values) with
        | some y => returnNew m v (.constant y)
        | none => failure
      else
        let v ← visitArgs cfg values v
        returnCallTo cfg m v (← newInstr (.constant (.native listSymbol))) (.ofNat values.length)
  | .throw e, v => do
      let v ← append v (← visit cfg .value e {})
      let v ← addInstanceOf cfg v .error
      addNew v .throw
  | .instanceOf c e, v => do
      if ← isConstantExpr cfg (.instanceOf c e) then
        match ← evalToConstant cfg (.instanceOf c e) with
        | some y => returnNew m v (.constant y)
        | none => failure
      else
        let v ← append v (← visit cfg .value e {})
        let v ← addNew v (.constant (.cls c))
        returnNew m v (.binaryOp .instanceOf)
  | .cast c e, v => do
      let v ← append v (← visit cfg .value e {})
      returnNew m v (.cast c)
  | .new c args, v => do
      if ← isConstantExpr cfg (.new c args) then
        match ← evalToConstant cfg (.new c args) with
        | some y => returnNew m v (.constant y)
        | none => returnNew m v (.new c (.ofNat args.length))
      else
        let v ← visitArgs cfg args v
        returnNew m v (.new c (.ofNat args.length))
  | .newMap data, v => do
      let v ← visitEntries cfg data v
      let defn ← newInstr (.new .map (.ofNat (data.length * 2)))
      -- `Bind`, and `ReturnDefinition` of the same instruction: it is linked to itself
      let v ← add v defn
      returnDefinition m v defn
  | .loadInstanceMethod .., _ => failure

/-- The argument loops: a value visitor for each, appended. -/
def visitArgs (cfg : Config) : List Expr → Visitor → Build Visitor
  | [], v => return v
  | e :: es, v => do
      if v.isOpen then visitArgs cfg es (← append v (← visit cfg .value e {})) else return v

/-- The loop of `VisitBeginExpr`: an effect visitor for each expression. -/
def visitSequence (cfg : Config) : List Expr → Visitor → Build Visitor
  | [], v => return v
  | e :: es, v => do
      if v.isOpen then visitSequence cfg es (← append v (← visit cfg .effect e {})) else return v

/-- The body of a `while`: one effect visitor for all expressions. -/
def visitBody (cfg : Config) : List Expr → Visitor → Build Visitor
  | [], v => return v
  | e :: es, v => do visitBody cfg es (← visit cfg .effect e v)

/-- The actions of a `when`. -/
def visitConseq (cfg : Config) (target : InstrId) : List Expr → Build Unit
  | [] => return
  | e :: es => do
      appendFragment target (← visit cfg .effect e {})
      visitConseq cfg target es

/-- The actions of a `cond` clause. -/
def visitActions (cfg : Config) (target : InstrId) : List Expr → Build Unit
  | [] => return
  | e :: es => do
      appendFragment target (← visit cfg .value e {})
      visitActions cfg target es

/-- The clauses of a `cond`: the tests are chained behind one another, and an equality is compared
by the branch itself. -/
def visitCondClauses (cfg : Config) (altTarget join : InstrId) :
    List Clause → Visitor → Build Visitor
  | [], v => return v
  | .mk key actions :: cs, v => do
      let target ← newTarget
      visitActions cfg target actions
      appendInstr target (← newInstr (.goto join))
      let v ← match key with
        | .binaryOp .equals l r => do
            let v ← append v (← visit cfg .value l {})
            let v ← append v (← visit cfg .value r {})
            addNew v (.branch .equal target (some altTarget) join)
        | key => do
            let v ← append v (← visit cfg .value key {})
            addNew v (.branch .true target (some altTarget) join)
      visitCondClauses cfg altTarget join cs v

/-- The alternate of a `cond`. -/
def visitAlternate (cfg : Config) (altTarget join : InstrId) : Option Expr → Build Unit
  | none => return
  | some e => do
      appendFragment altTarget (← visit cfg .value e {})
      appendInstr altTarget (← newInstr (.goto join))

/-- The clauses of a `case`; `visitKey` visits its key, once for each clause. -/
def visitCaseClauses (cfg : Config) (visitKey : Visitor → Build Visitor) (join : InstrId) :
    List Clause → Visitor → Build Visitor
  | [], v => return v
  | .mk clauseKey actions :: cs, v => do
      -- `VisitClauseExpr`
      let target ← newTarget
      let forClause ← add {} target
      let forClause ← visitClauseActions cfg target actions forClause
      let _ ← addNew forClause (.goto join)
      let forTest ← visitKey {}
      let forTest ← visit cfg .value clauseKey forTest
      let forTest ← addNew forTest (.binaryOp .equals)
      let forTest ← addNew forTest (.branch .true target none join)
      let v ← append v forTest
      visitCaseClauses cfg visitKey join cs v

/-- The actions of `VisitClauseExpr`: the last one gets an implicit return, and every one its exit
made the clause's exit. -/
def visitClauseActions (cfg : Config) (target : InstrId) :
    List Expr → Visitor → Build Visitor
  | [], v => return v
  | e :: es, v => do
      let forAction ← visit cfg .effect e {}
      let forAction ← if es.isEmpty then addImplicitReturn forAction else pure forAction
      appendFragment target forAction
      visitClauseActions cfg target es { v with exit := forAction.exit }

/-- The bindings and the body of a `let`: the value of the last child visited. -/
def visitChildren (cfg : Config) (target : InstrId) :
    List Expr → Option InstrId → Build (Option InstrId)
  | [], r => return r
  | e :: es, _ => do
      let forValue ← visit cfg .value e {}
      appendFragment target forValue
      visitChildren cfg target es forValue.value

/-- The entries of a map literal. -/
def visitEntries (cfg : Config) : List Entry → Visitor → Build Visitor
  | [], v => return v
  | .mk key e :: es, v => do
      let v ← addNew v (.constant (.symbol key))
      visitEntries cfg es (← append v (← visit cfg .value e {}))

/-- The operators of a `let:rx`, each with an `RxEffectVisitor` of its own. -/
def visitOperators (cfg : Config) (m : Mode) (l : LocalId) :
    List RxOp → Visitor → Build Visitor
  | [], v => return v
  | .mk symbol args :: ops, v => do
      if v.isOpen then
        let forEffect ← addNew {} (← loadLocal l)
        let forEffect ← visitArgs cfg args forEffect
        let forEffect ← addRxCall forEffect symbol (.ofNat args.length)
        let v ← append v forEffect
        if ops.isEmpty then
          if symbol.equals subscribeSymbol || symbol.equals completeSymbol then
            returnNew m v (.constant .null)
          else returnNew m v (← loadLocal l)
        else visitOperators cfg m l ops v
      else return v

end

/-! ### Leaves, and the ends of the loops -/

section

variable (cfg : Config) (m : Mode) (v : Visitor)

theorem visit_literal (value : Value) :
    visit cfg m (.literal value) v = visitLiteral m v value := by rw [visit]

theorem visit_quoted (value : Value) :
    visit cfg m (.quoted value) v = returnNew m v (.constant value) := by rw [visit]

theorem visitArgs_nil : visitArgs cfg [] v = pure v := by rw [visitArgs]

theorem visitSequence_nil : visitSequence cfg [] v = pure v := by rw [visitSequence]

theorem visitBody_nil : visitBody cfg [] v = pure v := by rw [visitBody]

theorem visitConseq_nil (target : InstrId) : visitConseq cfg target [] = pure () := by
  rw [visitConseq]

theorem visitActions_nil (target : InstrId) : visitActions cfg target [] = pure () := by
  rw [visitActions]

theorem visitCondClauses_nil (altTarget join : InstrId) :
    visitCondClauses cfg altTarget join [] v = pure v := by rw [visitCondClauses]

theorem visitAlternate_none (altTarget join : InstrId) :
    visitAlternate cfg altTarget join none = pure () := by rw [visitAlternate]

theorem visitCaseClauses_nil (visitKey : Visitor → Build Visitor) (join : InstrId) :
    visitCaseClauses cfg visitKey join [] v = pure v := by rw [visitCaseClauses]

theorem visitClauseActions_nil (target : InstrId) :
    visitClauseActions cfg target [] v = pure v := by rw [visitClauseActions]

theorem visitChildren_nil (target : InstrId) (r : Option InstrId) :
    visitChildren cfg target [] r = pure r := by rw [visitChildren]

theorem visitEntries_nil : visitEntries cfg [] v = pure v := by rw [visitEntries]

theorem visitOperators_nil (l : LocalId) : visitOperators cfg m l [] v = pure v := by
  rw [visitOperators]

end

/-- The body loop of `VisitScript`: the value of the last expression visited. -/
def visitScriptBody (cfg : Config) :
    List Expr → Visitor → Option InstrId → Build (Visitor × Option InstrId)
  | [], v, r => return (v, r)
  | e :: es, v, r => do
      if v.isOpen then
        let forValue ← visit cfg .value e {}
        visitScriptBody cfg es (← append v forValue) forValue.value
      else return (v, r)

/-- `VisitScript`. -/
def visitScript (cfg : Config) (body : List Expr) (v : Visitor) : Build Visitor := do
  let (v, returnValue) ← visitScriptBody cfg body v none
  let v ← if returnValue.isNone then addNew v (.constant .null) else pure v
  addNew v .ret

/-- The body loop of `VisitLambda`: the last expression is followed by a return, and by a null
constant first when it has no value and does not end in a join. -/
def visitLambdaBody (cfg : Config) : List Expr → Visitor → Build Visitor
  | [], v => return v
  | e :: es, v => do
      if v.isOpen then
        let forValue ← visit cfg .value e {}
        let v ← append v forValue
        let v ← if es.isEmpty then do
            let v ← if forValue.value.isNone then match forValue.exit with
                | none => failure
                | some x => do
                    if (← get).graph.isJoinEntry x then pure v else addNew v (.constant .null)
              else pure v
            addNew v .ret
          else pure v
        visitLambdaBody cfg es v
      else return v

/-- `VisitLambda`. -/
def visitLambda (cfg : Config) (scope : Option ScopeId) (body : List Expr) (v : Visitor) :
    Build Visitor := do
  pushScope
  match scope with
  | none => pure ()
  | some s =>
      let b ← get
      let (ok, scopes) := b.scopes.addScope b.scope s
      if !ok then failure
      set { b with scopes }
  let v ← visitLambdaBody cfg body v
  popScope
  return v

/-- `FlowGraphBuilder::Build`, around either visitor: the graph's entry, whose chain is the first
block. -/
def build (visitor : Visitor → Build Visitor) : Build InstrId := do
  let graphEntry ← newInstr (.graphEntry (← getNextBlockId))
  let target ← newTarget
  appendFragment target (← visitor {})
  appendInstr graphEntry target
  return graphEntry

end FlowGraphBuilder

end Gel
