import Gel.Assembler

/-!
# FlowGraphCompiler — from a flow graph to code

`FlowGraphCompiler::AssembleFlowGraph` and the `Compile` methods of `instruction_vm.cc`.  Every
block that a branch names is compiled inside the branch; the label of a block is an attribute of
its id.
-/

namespace Gel

/-- A `FlowGraphCompiler`: its assembler and the labels of the blocks. -/
structure FlowGraphCompiler where
  assembler : Assembler := {}
  labels : BlockId → Label := fun _ => {}

namespace FlowGraphCompiler

/-- Emit with the assembler. -/
def emit (c : FlowGraphCompiler) (f : Assembler → Assembler) : FlowGraphCompiler :=
  { c with assembler := f c.assembler }

/-- `jmp`, `jnz` and `jne` to the label of a block. -/
def jump (c : FlowGraphCompiler) (op : Op) (b : BlockId) : FlowGraphCompiler :=
  let (l, a) := c.assembler.jump op (c.labels b)
  { assembler := a, labels := Function.update c.labels b l }

/-- `Bind` of the label of a block. -/
def bind (c : FlowGraphCompiler) (b : BlockId) : Option FlowGraphCompiler := do
  let (l, a) ← c.assembler.bind (c.labels b)
  return { assembler := a, labels := Function.update c.labels b l }

/-- `Compile` of an instruction that is not a branch. -/
def compileInstr (g : Graph) (i : Instr) (c : FlowGraphCompiler) : Option FlowGraphCompiler :=
  match i with
  | .graphEntry _ | .targetEntry _ | .joinEntry _ => some c
  | .constant v => some (c.emit (·.push v))
  | .loadLocal _ idx => some (c.emit (·.loadLocal idx))
  | .storeLocal _ idx => some (c.emit (·.storeLocal idx))
  | .unaryOp op => some (c.emit (·.emitOp (.unary op)))
  | .binaryOp op => some (c.emit (·.emitOp (.binary op)))
  | .invoke target n => match g.constantValue target with
      | some f => some (c.emit (·.invoke f n))
      | none => none
  | .invokeNative target n => match g.constantValue target with
      | some f => some (c.emit (·.invokeNative f n))
      | none => none
  | .invokeDynamic n => some (c.emit (·.invokeDynamic n))
  | .lookup => some (c.emit (·.emitOp .lookup))
  | .ret => some (c.emit (·.emitOp .ret))
  | .goto target => ((g.instr? target).bind Instr.blockId).map (c.jump .jump ·)
  | .throw => some (c.emit (·.emitOp .throw))
  | .instanceOf type => some (c.emit (·.checkInstance type))
  | .cast target => some (c.emit (·.castTo target))
  | .new target n => some (c.emit (·.new target n))
  | .loadField f => some (c.emit (·.ldfield f))
  | .storeField f => some (c.emit (·.stfield f))
  | .branch .. => none

/-- The block id of an entry instruction. -/
def blockId (g : Graph) (i : InstrId) : Option BlockId := (g.instr? i).bind Instr.blockId

/-- The jump of a branch. -/
def branchOp : Condition → Op
  | .true => .jnz
  | .equal => .jne

/-- An `InstructionIterator` loop: compile every instruction of a chain.  A branch emits its jump,
then binds and compiles its targets and its join.  The number bounds the length and the depth of
the walk. -/
def iterate (g : Graph) : Nat → Option InstrId → FlowGraphCompiler → Option FlowGraphCompiler
  | _, none, c => some c
  | 0, some _, _ => none
  | n + 1, some i, c => do
      let c ← match ← g.instr? i with
        | .branch condition t f j => do
            let tbranch ← blockId g t
            let join ← blockId g j
            match f with
            | none =>
                let c := c.jump (branchOp condition) join
                let c ← iterate g n (some t) (← c.bind tbranch)
                iterate g n (some j) (← c.bind join)
            | some f =>
                let fbranch ← blockId g f
                let c := c.jump (branchOp condition) fbranch
                let c ← iterate g n (some t) (← c.bind tbranch)
                let c ← iterate g n (some f) (← c.bind fbranch)
                iterate g n (some j) (← c.bind join)
        | instr => compileInstr g instr c
      iterate g n (g.next i) c

end FlowGraphCompiler

end Gel
