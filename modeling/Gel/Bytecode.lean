import Gel.Object
import Gel.Support.Words

/-!
# Bytecode — the operations of the virtual machine

`Bytecode::Op` in the order `FOR_EACH_BYTECODE` lists the operations, and `decode`, what the fetch
loop of `Interpreter::Run` reads at an address: an operation and the words that follow it.
An operand that is the address of an object is an index into a table of objects.
-/

namespace Gel

/-- `Bytecode::Op` without `kInvalid`. -/
inductive Op where
  | nop | pop | dup | lookup
  | storeLocal | storeLocalN (n : Fin 4)
  | loadLocal | loadLocalN (n : Fin 4)
  | invoke | invokeDynamic | invokeNative | checkInstance | ret
  | pushQ | pushI | pushN | pushT | pushF
  | jump | jz | jnz | jeq | jne
  | cast | new | throw | loadField | storeField
  | unary (op : UnaryOp)
  | binary (op : BinaryOp)
  deriving DecidableEq, Repr

namespace Op

/-- `FOR_EACH_BYTECODE`. -/
def all : List Op :=
  [nop, pop, dup, lookup,
   storeLocal, storeLocalN 0, storeLocalN 1, storeLocalN 2, storeLocalN 3,
   loadLocal, loadLocalN 0, loadLocalN 1, loadLocalN 2, loadLocalN 3,
   invoke, invokeDynamic, invokeNative, checkInstance, ret,
   pushQ, pushI, pushN, pushT, pushF,
   jump, jz, jnz, jeq, jne,
   cast, new, throw, loadField, storeField,
   unary .not, unary .car, unary .cdr, unary .nonnull, unary .null,
   binary .add, binary .subtract, binary .multiply, binary .divide, binary .modulus,
   binary .equals, binary .binaryAnd, binary .binaryOr, binary .greaterThan,
   binary .greaterThanEqual, binary .lessThan, binary .lessThanEqual, binary .cons,
   binary .instanceOf]

/-- The operation as a `RawBytecode`; zero is `kInvalid`. -/
def raw (op : Op) : UInt8 := .ofNat (all.idxOf op + 1)

/-- `Bytecode::op`, on a byte that is an operation. -/
def ofRaw (b : UInt8) : Option Op := if b = 0 then none else all[b.toNat - 1]?

theorem mem_all (op : Op) : op ∈ all := by
  cases op with
  | storeLocalN n | loadLocalN n => revert n; decide
  | unary op | binary op => cases op <;> decide
  | _ => decide

@[simp] theorem ofRaw_raw (op : Op) : ofRaw op.raw = some op := by
  have h : ∀ o ∈ all, ofRaw o.raw = some o := by decide +kernel
  exact h op (mem_all op)

end Op

/-- An operation with the words that follow it in the code; jumps keep their operand as a signed
offset. -/
inductive Bytecode where
  | nop | pop | dup | lookup | ret | throw
  | push (v : Value)
  | storeLocal (idx : UInt64)
  | loadLocal (idx : UInt64)
  | invoke (f : Value) (numArgs : UInt64)
  | invokeDynamic (numArgs : UInt64)
  | invokeNative (f : Value) (numArgs : UInt64)
  | checkInstance (c : Value)
  | jump (op : Op) (offset : Int)
  | cast (c : Value)
  | new (c : Value) (numArgs : UInt64)
  | loadField (f : Value)
  | storeField (f : Value)
  | unary (op : UnaryOp)
  | binary (op : BinaryOp)
  deriving DecidableEq, Repr

namespace Bytecode

/-- The object a word is the address of. -/
def object? (objects : List Value) (b : List UInt8) (pos : Nat) : Option Value :=
  (Words.loadWord b pos).bind fun w => objects[w.toNat]?

/-- The operation at a position of the code, and the position behind it. -/
def decode (objects : List Value) (b : List UInt8) (pos : Nat) : Option (Bytecode × Nat) := do
  let word := Words.loadWord b
  let object := object? objects b
  match ← Op.ofRaw (← b[pos]?) with
  | .nop => return (nop, pos + 1)
  | .pop => return (pop, pos + 1)
  | .dup => return (dup, pos + 1)
  | .lookup => return (lookup, pos + 1)
  | .storeLocal => return (storeLocal (← word (pos + 1)), pos + 9)
  | .storeLocalN n => return (storeLocal (.ofNat n), pos + 1)
  | .loadLocal => return (loadLocal (← word (pos + 1)), pos + 9)
  | .loadLocalN n => return (loadLocal (.ofNat n), pos + 1)
  | .invoke => return (invoke (← object (pos + 1)) (← word (pos + 9)), pos + 17)
  | .invokeDynamic => return (invokeDynamic (← word (pos + 1)), pos + 9)
  | .invokeNative => return (invokeNative (← object (pos + 1)) (← word (pos + 9)), pos + 17)
  | .checkInstance => return (checkInstance (← object (pos + 1)), pos + 9)
  | .ret => return (ret, pos + 1)
  | .pushQ => return (push (← object (pos + 1)), pos + 9)
  | .pushI => return (push (.long (← word (pos + 1))), pos + 9)
  | .pushN => return (push .null, pos + 1)
  | .pushT => return (push (.bool true), pos + 1)
  | .pushF => return (push (.bool false), pos + 1)
  | .jump => return (jump .jump (Words.toInt (← word (pos + 1))), pos + 9)
  | .jz => return (jump .jz (Words.toInt (← word (pos + 1))), pos + 9)
  | .jnz => return (jump .jnz (Words.toInt (← word (pos + 1))), pos + 9)
  | .jeq => return (jump .jeq (Words.toInt (← word (pos + 1))), pos + 9)
  | .jne => return (jump .jne (Words.toInt (← word (pos + 1))), pos + 9)
  | .cast => return (cast (← object (pos + 1)), pos + 9)
  | .new => return (new (← object (pos + 1)) (← word (pos + 9)), pos + 17)
  | .throw => return (throw, pos + 1)
  | .loadField => return (loadField (← object (pos + 1)), pos + 9)
  | .storeField => return (storeField (← object (pos + 1)), pos + 9)
  | .unary op => return (unary op, pos + 1)
  | .binary op => return (binary op, pos + 1)

end Bytecode

end Gel
