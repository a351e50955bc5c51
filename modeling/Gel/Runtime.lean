import Gel.FlowGraphBuilder
import Gel.FlowGraphCompiler
import Gel.Interpreter

/-!
# Runtime — calls

`Runtime::CallWithNArgs`, `Runtime::Call` and `Runtime::Eval`, with the lazy compilation of a
lambda at its first call.  A bound on the number of steps makes the interpreter's loop and the
recursion through calls total; running out of it is the fault `timeout`, which the program does not
have.
-/

namespace Gel

namespace FlowGraphCompiler

/-- The compiler's surroundings, as a lambda or a script is compiled in a scope. -/
def builderFor (m : Memory) (scope : ScopeId) (execScope : Option ScopeId) : Builder :=
  let (s, scopes) := m.scopes.newScope (some scope)
  let scopes := match execScope with
    | some e => (scopes.addScope s e).2
    | none => scopes
  { scope := s, scopes, nextObject := m.nextObject }

/-- `CompileTarget`: build the flow graph, assemble it and keep the code as a new region. -/
def compileTarget (fuel : Nat) (visitor : Visitor → Build Visitor) (scope : ScopeId)
    (execScope : Option ScopeId) (m : Memory) : Option (Nat × Memory) := do
  let (entry, b) ← (FlowGraphBuilder.build visitor).run (builderFor m scope execScope)
  let c ← iterate b.graph fuel (some entry) { assembler := { objects := m.objects } }
  return (m.regions.length,
    { m with scopes := b.scopes, nextObject := b.nextObject, objects := c.assembler.objects
             regions := m.regions ++ [c.assembler.buffer] })

end FlowGraphCompiler

namespace Runtime

/-- `Runtime::PushScope`. -/
def pushScope (rt : Runtime) : ScopeId × Runtime :=
  let (s, scopes) := rt.memory.scopes.newScope rt.scope
  (s, { rt with scope := some s, memory := { rt.memory with scopes } })

/-- `Runtime::PopScope`. -/
def popScope (rt : Runtime) : Runtime :=
  { rt with scope := rt.scope.bind rt.memory.scopes.parentOf }

/-- `PushStackFrame`, with the address to return to. -/
def pushFrame (rt : Runtime) (locals : ScopeId) : Runtime :=
  { rt with frames := { locals, returnAddress := rt.current } :: rt.frames }

/-- What `Call` does after a procedure has run: pop its frame, hand the top of its stack to the
caller and go back to the return address. -/
def popFrame (rt : Runtime) : Except Fault Runtime :=
  match rt.frames with
  | [] => .error .undefined
  | f :: fs =>
      let v := f.stack.headD .null
      let rt := { rt with frames := fs }
      let rt := match fs with
        | [] => { rt with result := some v }
        | g :: gs => { rt with frames := { g with stack := v :: g.stack } :: gs }
      .ok (match f.returnAddress with
        | some a => { rt with current := some a }
        | none => rt)

/-- The loop of `CallWithNArgs` over the procedure's parameters, on the operation stack; the
values are collected in source order. -/
def collectArgs : List Argument → Int → List Value → List Value →
    Except Fault (List Value × Int × List Value)
  | [], remaining, args, s => .ok (args, remaining, s)
  | a :: as, remaining, args, s =>
      if a.vararg then
        let n := remaining.toNat
        if n ≤ s.length then .ok ((s.take n).reverse ++ args, min remaining 0, s.drop n)
        else .error .undefined
      else if 0 < remaining then
        match s with
        | v :: s => collectArgs as (remaining - 1) (v :: args) s
        | [] => .error .undefined
      else if a.optional then collectArgs as (remaining - 1) args s
      else .error .fatal

/-- `CallWithNArgs`: the arguments from the caller's stack, null for each optional one that is
missing. -/
def callWithNArgs (call : Value → List Value → Runtime → Except Fault Runtime)
    (params : List Argument) (f : Value) (numArgs : Nat) (rt : Runtime) : Except Fault Runtime :=
  match rt.stack? with
  | none => .error .undefined
  | some s => do
      let (args, remaining, s) ← collectArgs params numArgs [] s
      call f (args ++ List.replicate (-remaining).toNat .null) (rt.setStack s)

/-- The parameters of a procedure. -/
def paramsOf (host : Host) (m : Memory) : Value → List Argument
  | .native x => host.nativeArgs x
  | .lambda id => (m.lambdas[id]?.map Lambda.args).getD []
  | _ => []

/-- The loop of `Call(Lambda*)` over the reversed parameters. -/
def bindArgs (locals : ScopeId) : List Argument → List Value → Scopes → Except Fault Scopes
  | [], _, m => .ok m
  | _ :: _, [], _ => .error .undefined
  | p :: ps, v :: vs, m =>
      let (l, m) := m.newLocal locals p.name (some v)
      let (ok, m) := m.addLocal locals l
      if ok then bindArgs locals ps vs m else .error .fatal

/-- The scope `Call(Lambda*)` makes current: the lambda itself, then the arguments. -/
def bindLambda (id : Nat) (f : Lambda) (args : List Value) (rt : Runtime) :
    Except Fault (ScopeId × Runtime) := do
  let (locals, rt) := rt.pushScope
  let name := (f.symbol.map Symbol.fullyQualifiedName).getD "$"
  let (l, scopes) := rt.memory.scopes.newLocal locals name (some (.lambda id))
  let (ok, scopes) := scopes.addLocal locals l
  if !ok then throw .fatal
  let scopes ← bindArgs locals f.args.reverse args scopes
  return (locals, { rt with memory := { rt.memory with scopes } })

/-- The code of a lambda, compiled in the scope of this call when it has none. -/
def compileLambda (cfg : Config) (fuel id : Nat) (locals : ScopeId) (rt : Runtime) :
    Except Fault (Nat × Runtime) :=
  match rt.memory.lambdas[id]? with
  | none => .error .undefined
  | some f => match f.code with
      | some r => .ok (r, rt)
      | none =>
          if f.body.isEmpty then .error .fatal
          else
            let cfg := { cfg with runtimeScope := locals }
            match FlowGraphCompiler.compileTarget fuel
                (FlowGraphBuilder.visitLambda cfg f.scope f.body) locals f.scope rt.memory with
            | none => .error .fatal
            | some (r, m) =>
                let m := { m with lambdas := m.lambdas.set id { f with code := some r } }
                .ok (r, { rt with memory := m })

/-- `Interpreter::Run` on a region, for at most the given number of steps. -/
def runWithin (host : Host) (call : Interpreter.CallWithNArgs) (region : Nat) :
    Nat → Runtime → Except Fault Runtime
  | 0, _ => .error .timeout
  | n + 1, rt => do
      match ← Interpreter.step host call region rt with
      | .returned rt => return rt
      | .running rt => runWithin host call region n rt

/-- `Interpreter::Run`. -/
def run (host : Host) (call : Interpreter.CallWithNArgs) (fuel region : Nat) (rt : Runtime) :
    Except Fault Runtime :=
  runWithin host call region fuel { rt with current := some ⟨region, 0⟩ }

/-- `Runtime::Call(Procedure*)`. -/
def call (cfg : Config) (host : Host) : Nat → Value → List Value → Runtime → Except Fault Runtime
  | 0, _, _, _ => .error .timeout
  | n + 1, f, args, rt =>
      let callN : Interpreter.CallWithNArgs := fun f k rt =>
        callWithNArgs (call cfg host n) (paramsOf host rt.memory f) f k rt
      match f with
      | .lambda id => match rt.memory.lambdas[id]? with
          | none => .error .undefined
          | some lambda => do
              let (locals, rt) ← bindLambda id lambda args rt
              let (region, rt) ← compileLambda cfg n id locals rt
              let rt ← run host callN n region (rt.pushFrame locals)
              return (← rt.popFrame).popScope
      | .native x => do
          let (locals, rt) := rt.pushScope
          let scopes := args.zipIdx.foldl (fun m (v, i) =>
            (m.addValue locals s!"arg{i}" (some v)).2) rt.memory.scopes
          let rt := { rt with memory := { rt.memory with scopes } }
          let rt ← host.applyNative x args (rt.pushFrame locals)
          return (← rt.popFrame).popScope
      | _ => .error .fatal

/-- `Runtime::Call(Script*)`. -/
def callScript (cfg : Config) (host : Host) (n : Nat) (id : Nat) (rt : Runtime) :
    Except Fault Runtime :=
  match rt.memory.scripts[id]? with
  | none => .error .undefined
  | some script => match script.code with
      | none => .error .undefined
      | some region => do
          let (locals, rt) := rt.pushScope
          let scopes := (rt.memory.scopes.addScope locals script.scope).2
          let rt := { rt with memory := { rt.memory with scopes } }
          let callN : Interpreter.CallWithNArgs := fun f k rt =>
            callWithNArgs (call cfg host n) (paramsOf host rt.memory f) f k rt
          let rt ← run host callN n region (rt.pushFrame locals)
          return (← rt.popFrame).popScope

/-- `Runtime::CallPop`, after the call. -/
def takeResult (rt : Runtime) : Value × Runtime :=
  match rt.frames with
  | [] => (rt.result.getD .null, { rt with result := none })
  | f :: fs => (f.stack.headD .null, { rt with frames := { f with stack := f.stack.tail } :: fs })

end Runtime

end Gel
