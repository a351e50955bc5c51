import Gel.Bytecode

/-!
# Disassembler — the decoder of `disassembler_vm.cc`

`BytecodeDecoder` walks a region from its start, and `Disassembler::Disassemble` reads the operands
of every operation for itself, independently of the interpreter.  What it prints is left out, and
with it the scope it looks up the names of variables in.
-/

namespace Gel

namespace Disassembler

/-- A `BytecodeDecoder`: the state is its position in the region. -/
abbrev Decoder := StateT Nat Option

section Decoder

variable (objects : List Value) (region : List UInt8)

/-- `BytecodeDecoder::NextBytecode`. -/
def nextBytecode : Decoder UInt8 := fun pos => (region[pos]?).map fun b => (b, pos + 1)

/-- `BytecodeDecoder::NextUWord`; `NextAddress` and `NextLong` are the same. -/
def nextUWord : Decoder UInt64 := fun pos =>
  (Words.loadWord region pos).map fun w => (w, pos + 8)

/-- `BytecodeDecoder::NextWord`. -/
def nextWord : Decoder Int := do return Words.toInt (← nextUWord region)

/-- `BytecodeDecoder::NextObjectPointer`. -/
def nextObjectPointer : Decoder Value := do
  let address ← nextUWord region
  match objects[address.toNat]? with
  | some v => return v
  | none => failure

/-- `Disassembler::Invoke`. -/
def invoke (op : Op) : Decoder Bytecode := do
  match op with
  | .invoke =>
      let lambda ← nextObjectPointer objects region
      return .invoke lambda (← nextUWord region)
  | .invokeNative =>
      let native ← nextObjectPointer objects region
      return .invokeNative native (← nextUWord region)
  | .invokeDynamic => return .invokeDynamic (← nextUWord region)
  | _ => failure

/-- The switch of `Disassembler::Disassemble`: the operands of an operation.  One that the switch
does not name has none. -/
def operands (op : Op) : Decoder Bytecode := do
  match op with
  | .pushQ => return .push (← nextObjectPointer objects region)
  | .pushI => return .push (.long (← nextUWord region))
  | .storeField => return .storeField (← nextObjectPointer objects region)
  | .loadField => return .loadField (← nextObjectPointer objects region)
  | .loadLocal => return .loadLocal (← nextUWord region)
  | .loadLocalN n => return .loadLocal (.ofNat n)
  | .storeLocal => return .storeLocal (← nextUWord region)
  | .storeLocalN n => return .storeLocal (.ofNat n)
  | .jump | .jz | .jnz | .jeq | .jne => return .jump op (← nextWord region)
  | .checkInstance => return .checkInstance (← nextObjectPointer objects region)
  | .cast => return .cast (← nextObjectPointer objects region)
  | .new =>
      let cls ← nextObjectPointer objects region
      return .new cls (← nextUWord region)
  | .invoke | .invokeNative | .invokeDynamic => invoke objects region op
  | .nop => return .nop
  | .pop => return .pop
  | .dup => return .dup
  | .lookup => return .lookup
  | .ret => return .ret
  | .throw => return .throw
  | .pushN => return .push .null
  | .pushT => return .push (.bool true)
  | .pushF => return .push (.bool false)
  | .unary op => return .unary op
  | .binary op => return .binary op

/-- The body of the loop of `Disassembler::Disassemble`. -/
def instruction : Decoder Bytecode := do
  match Op.ofRaw (← nextBytecode region) with
  | none => failure
  | some op => operands objects region op

end Decoder

end Disassembler

end Gel
