import Gel.Bytecode
import Gel.Expression

/-!
# Interpreter — the state of the runtime and one step of the machine

The state `Runtime` keeps: its memory, the current scope, the stack of frames with an operation
stack each, and the address the interpreter executes next.  `step` is one turn of the loop of
`Interpreter::Run`.  What it does at a call is a parameter, because `Runtime::CallWithNArgs` runs
the interpreter again.
-/

namespace Gel

/-- `Argument` of a procedure's `ArgumentSet`, which is ordered by index. -/
structure Argument where
  name : String
  optional : Bool := false
  vararg : Bool := false
  deriving DecidableEq, Repr

/-- `Lambda`; `code` is the code region once it is compiled. -/
structure Lambda where
  symbol : Option Symbol := none
  args : List Argument := []
  scope : Option ScopeId := none
  body : List Expr := []
  code : Option Nat := none

/-- `Script`. -/
structure Script where
  scope : ScopeId
  body : List Expr := []
  code : Option Nat := none

/-- The objects the runtime works on.  `objects` is the table of the addresses that stand in code,
`regions` are the code regions. -/
structure Memory where
  scopes : Scopes := {}
  lambdas : List Lambda := []
  scripts : List Script := []
  objects : List Value := []
  regions : List (List UInt8) := []
  nextObject : Nat := 0

/-- A code address: a region and a position in it. -/
structure Address where
  region : Nat
  pos : Nat
  deriving DecidableEq, Repr

/-- `StackFrame`; the top of the operation stack comes first. -/
structure Frame where
  locals : ScopeId
  returnAddress : Option Address
  stack : List Value := []
  deriving DecidableEq, Repr

/-- `Runtime`, with the interpreter's `current_`; no address is `UNALLOCATED`. -/
structure Runtime where
  memory : Memory := {}
  scope : Option ScopeId := none
  frames : List Frame := []
  current : Option Address := none
  result : Option Value := none

/-- What the interpreter calls outside the modelled code: `Class::NewInstance`, `Observable::New`,
the fields of objects, the text of an object and the event loop. -/
structure Host where
  newInstance : ClassId → List Value → Memory → Except Fault (Value × Memory)
  newObservable : Value → Memory → Except Fault (Value × Memory)
  getField : Value → Value → Memory → Except Fault Value
  setField : Value → Value → Value → Memory → Except Fault Memory
  toString : Value → String
  runEvents : Runtime → Except Fault Runtime
  nativeArgs : Symbol → List Argument
  applyNative : Symbol → List Value → Runtime → Except Fault Runtime

/-- One turn of the loop leaves the machine running, or returns from `Run`. -/
inductive Outcome where
  | running (rt : Runtime)
  | returned (rt : Runtime)

namespace Runtime

/-- The operation stack of the top frame. -/
def stack? (rt : Runtime) : Option (List Value) := rt.frames.head?.map Frame.stack

/-- Replace the operation stack of the top frame. -/
def setStack (rt : Runtime) (s : List Value) : Runtime :=
  { rt with frames := match rt.frames with
      | [] => []
      | f :: fs => { f with stack := s } :: fs }

/-- `PUSH`; without a frame there is no stack to push on. -/
def push (v : Value) (rt : Runtime) : Except Fault Runtime :=
  match rt.stack? with
  | some s => .ok (rt.setStack (v :: s))
  | none => .error .undefined

/-- `(*POP)`; reading the result of a pop from an empty stack is undefined. -/
def pop (rt : Runtime) : Except Fault (Value × Runtime) :=
  match rt.stack? with
  | some (v :: s) => .ok (v, rt.setStack s)
  | _ => .error .undefined

/-- `OperationStack::PopN` in reverse: missing values are null. -/
def popN (rt : Runtime) (n : Nat) : List Value × Runtime :=
  match rt.stack? with
  | some s => ((s.take n ++ List.replicate (n - s.length) Value.null).reverse, rt.setStack (s.drop n))
  | none => ([], rt)

/-- Set the address the interpreter executes next, in the region it executes. -/
def jumpTo (rt : Runtime) (region : Nat) (target : Int) : Except Fault Runtime :=
  if 0 ≤ target then .ok { rt with current := some ⟨region, target.toNat⟩ }
  else .error .undefined

end Runtime

namespace Interpreter

/-- The procedure that runs `Runtime::CallWithNArgs`. -/
abbrev CallWithNArgs := Value → Nat → Runtime → Except Fault Runtime

/-- `Interpreter::LoadLocal`; a variable without a value is pushed as null. -/
def loadLocal (idx : UInt64) (rt : Runtime) : Except Fault Runtime :=
  match rt.scope.bind fun s => rt.memory.scopes.getLocalAt s idx.toNat with
  | none => .error .undefined
  | some l => rt.push ((rt.memory.scopes.valueOf l).getD .null)

/-- `Interpreter::StoreLocal`. -/
def storeLocal (idx : UInt64) (rt : Runtime) : Except Fault Runtime :=
  match rt.scope.bind fun s => rt.memory.scopes.getLocalAt s idx.toNat with
  | none => .error .undefined
  | some l => do
      let (v, rt) ← rt.pop
      return { rt with memory :=
        { rt.memory with scopes := rt.memory.scopes.setValue l (some v) } }

/-- `Interpreter::PopLookup` and `Lookup`: a name that is not found, or has no value, is null. -/
def popLookup (rt : Runtime) : Except Fault Runtime := do
  let (v, rt) ← rt.pop
  match v, rt.scope with
  | .symbol x, some s =>
      let scopes := rt.memory.scopes
      rt.push (((scopes.lookup s x.fullyQualifiedName).bind scopes.valueOf).getD .null)
  | .symbol _, none => .error .undefined
  | _, _ => .error .fatal

/-- `Interpreter::Throw`. -/
def throw (rt : Runtime) : Except Fault Runtime := do
  let (v, _) ← rt.pop
  match v with
  | .error _ message => .error (.thrown message)
  | _ => .error .undefined

/-- `Interpreter::Invoke`, on the procedure it has found. -/
def invoke (host : Host) (call : CallWithNArgs) (func : Value) (numArgs : UInt64)
    (rt : Runtime) : Except Fault Runtime :=
  if func.isProcedure then call func numArgs.toNat rt
  else do throw (← rt.push (.error 0 ("cannot invoke " ++ host.toString func)))

/-- `Interpreter::CheckInstance`: the value stays on the stack. -/
def checkInstance (c : Value) (rt : Runtime) : Except Fault Runtime :=
  match rt.stack?, c with
  | some (v :: _), .cls c => if v.type.isInstanceOf c then .ok rt else .error .fatal
  | some [], _ => .error .fatal
  | _, _ => .error .undefined

/-- `Interpreter::Cast`: a cast to anything but `Observable` pops its operand and pushes nothing. -/
def cast (host : Host) (c : Value) (rt : Runtime) : Except Fault Runtime := do
  let (v, rt) ← rt.pop
  if c = .cls .observable then
    let (o, memory) ← host.newObservable v rt.memory
    { rt with memory }.push o
  else return rt

/-- `Interpreter::Jump` to `target`: `Jnz` jumps when the value is *not* true, `Jne` when the two
values are not equal. -/
def jump (region : Nat) (op : Op) (target : Int) (rt : Runtime) : Except Fault Runtime :=
  match op with
  | .jump => rt.jumpTo region target
  | .jnz => do
      let (v, rt) ← rt.pop
      if v.truth then return rt else rt.jumpTo region target
  | .jne => do
      let (rhs, rt) ← rt.pop
      let (lhs, rt) ← rt.pop
      if ← lhs.equals rhs then return rt else rt.jumpTo region target
  | _ => .error .fatal

/-- The body of the loop for an operation that does not end it; `start` is the position of the
operation. -/
def exec (host : Host) (call : CallWithNArgs) (region start : Nat) (code : Bytecode)
    (rt : Runtime) : Except Fault Runtime :=
  match code with
  | .nop => .ok rt
  | .pop => (·.2) <$> rt.pop
  | .dup => .error .fatal
  | .lookup => popLookup rt
  | .ret => .ok rt
  | .throw => throw rt
  | .push v => rt.push v
  | .storeLocal idx => storeLocal idx rt
  | .loadLocal idx => loadLocal idx rt
  | .invoke f n => invoke host call f n rt
  | .invokeNative f n => invoke host call f n rt
  | .invokeDynamic n => do
      let (f, rt) ← rt.pop
      invoke host call f n rt
  | .checkInstance c => checkInstance c rt
  | .jump op offset => jump region op (start + offset) rt
  | .cast c => cast host c rt
  | .new c n => match c with
      | .cls c => do
          let (args, rt) := rt.popN n.toNat
          let (v, memory) ← host.newInstance c args rt.memory
          { rt with memory }.push v
      | _ => .error .undefined
  | .loadField f => do
      let (inst, rt) ← rt.pop
      rt.push (← host.getField inst f rt.memory)
  | .storeField f => do
      let (inst, rt) ← rt.pop
      let (v, rt) ← rt.pop
      return { rt with memory := ← host.setField inst f v rt.memory }
  | .unary op => do
      let (v, rt) ← rt.pop
      rt.push (← op.apply v)
  | .binary op => do
      let (rhs, rt) ← rt.pop
      let (lhs, rt) ← rt.pop
      rt.push (← op.apply lhs rhs)

/-- The operation the interpreter executes next, with its position and the position behind it. -/
def fetch (region : Nat) (rt : Runtime) : Option (Nat × Bytecode × Nat) := do
  let a ← rt.current
  if a.region = region then
    let b ← rt.memory.regions[region]?
    let (code, next) ← Bytecode.decode rt.memory.objects b a.pos
    return (a.pos, code, next)
  else none

/-- One turn of the loop of `Interpreter::Run`, on the region it was started with.  Where nothing
can be fetched the loop meets an invalid operation or reads outside the region. -/
def step (host : Host) (call : CallWithNArgs) (region : Nat) (rt : Runtime) :
    Except Fault Outcome :=
  match fetch region rt with
  | none => .error .fatal
  | some (start, code, next) =>
      let rt := { rt with current := some ⟨region, next⟩ }
      if code = .ret then Outcome.returned <$> host.runEvents rt
      else Outcome.running <$> exec host call region start code rt

end Interpreter

end Gel
