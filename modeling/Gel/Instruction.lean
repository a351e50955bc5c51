import Gel.LocalScope

/-!
# Instruction — the flow graph and its links

Instructions are allocated one after the other and linked by their `next_` pointers: a block is
the chain that starts at its entry instruction.  A branch and a goto name entries of other blocks,
and nothing else in the graph refers to a block.

`previous_`, the dominator tree and the operands an instruction keeps for printing are left out:
no part of the compiler reads them.
-/

namespace Gel

/-- An `Instruction*`. -/
abbrev InstrId := Nat

/-- `EntryInstr::block_id_`. -/
abbrev BlockId := Nat

/-- The two conditions the builder uses of `BranchInstr::Condition`. -/
inductive Condition where
  | true
  | equal
  deriving DecidableEq, Repr

/-- `ir::Instruction`.  `loadLocal` and `storeLocal` carry the variable and its `index_`, which
never changes. -/
inductive Instr where
  | graphEntry (blockId : BlockId)
  | targetEntry (blockId : BlockId)
  | joinEntry (blockId : BlockId)
  | constant (value : Value)
  | loadLocal (l : LocalId) (index : UInt64)
  | storeLocal (l : LocalId) (index : UInt64)
  | unaryOp (op : UnaryOp)
  | binaryOp (op : BinaryOp)
  | invoke (target : InstrId) (numArgs : UInt64)
  | invokeNative (target : InstrId) (numArgs : UInt64)
  | invokeDynamic (numArgs : UInt64)
  | lookup
  | ret
  | branch (condition : Condition) (trueTarget : InstrId) (falseTarget : Option InstrId)
      (join : InstrId)
  | goto (target : InstrId)
  | throw
  | instanceOf (type : ClassId)
  | cast (target : ClassId)
  | new (target : ClassId) (numArgs : UInt64)
  | loadField (field : Value)
  | storeField (field : Value)
  deriving DecidableEq, Repr

/-- `GetBlockId`, for the entry instructions. -/
def Instr.blockId : Instr → Option BlockId
  | graphEntry b | targetEntry b | joinEntry b => some b
  | _ => none

/-- The instructions allocated so far and their `next_` pointers. -/
structure Graph where
  instrs : List Instr := []
  next : InstrId → Option InstrId := fun _ => none

namespace Graph

def instr? (g : Graph) (i : InstrId) : Option Instr := g.instrs[i]?

/-- Allocate an instruction. -/
def alloc (g : Graph) (i : Instr) : InstrId × Graph :=
  (g.instrs.length, { g with instrs := g.instrs ++ [i] })

/-- `Instruction::Link`: the old successor, if there was one, is forgotten. -/
def link (g : Graph) (lhs rhs : InstrId) : Graph :=
  { g with next := Function.update g.next lhs (some rhs) }

/-- The end of the chain that starts at an instruction, when it is at most `n` long. -/
def lastWithin (g : Graph) : Nat → InstrId → Option InstrId
  | 0, _ => none
  | n + 1, i => match g.next i with
      | none => some i
      | some j => g.lastWithin n j

/-- The end of a chain; a chain that is not finite has none. -/
def last (g : Graph) (i : InstrId) : Option InstrId := g.lastWithin g.instrs.length i

/-- `Instruction::Append`: link at the end of the chain.  On a cyclic chain the recursion never
returns. -/
def append (g : Graph) (i rhs : InstrId) : Option Graph := (g.last i).map fun l => g.link l rhs

/-- `AsConstantInstr()->GetValue()`. -/
def constantValue (g : Graph) (i : InstrId) : Option Value :=
  match g.instr? i with
  | some (.constant v) => some v
  | _ => none

/-- `IsConstantInstr`. -/
def isConstant (g : Graph) (i : InstrId) : Bool := (g.constantValue i).isSome

/-- `IsReturnInstr`. -/
def isReturn (g : Graph) (i : InstrId) : Bool := g.instr? i == some .ret

/-- `IsJoinEntryInstr`. -/
def isJoinEntry (g : Graph) (i : InstrId) : Bool :=
  match g.instr? i with
  | some (.joinEntry _) => true
  | _ => false

end Graph

end Gel
