import Gel.Bytecode
import Gel.Instruction

/-!
# Assembler — labels, jumps and the code buffer

`assembler_vm.h`, `assembler_vm.cc` and `assembler_base.h`.  A label is one word: negative when it
is bound, positive when jumps to it are pending, and then the pending operands form a chain through
the buffer.  The buffer is taken to be large enough for the code.
-/

namespace Gel

/-- `Label`: the word `pos_`. -/
structure Label where
  pos : Int := 0
  deriving DecidableEq, Repr

namespace Label

def bindTo (pos : Int) : Label := ⟨-pos - 8⟩

def linkTo (pos : Int) : Label := ⟨pos + 8⟩

def isBound (l : Label) : Bool := l.pos < 0

def isLinked (l : Label) : Bool := 0 < l.pos

/-- `GetPos`. -/
def getPos (l : Label) : Int := if l.isBound then -l.pos - 8 else l.pos - 8

/-- `GetLinkPos`. -/
def getLinkPos (l : Label) : Int := l.pos - 8

end Label

/-- An `Assembler`: its buffer, and the objects whose addresses stand in it. -/
structure Assembler where
  buffer : List UInt8 := []
  objects : List Value := []
  deriving DecidableEq, Repr

namespace Assembler

def emitOp (a : Assembler) (op : Op) : Assembler := { a with buffer := a.buffer ++ [op.raw] }

def emit (a : Assembler) (w : UInt64) : Assembler :=
  { a with buffer := a.buffer ++ Words.encode w }

/-- `EmitAddress`. -/
def emitAddress (a : Assembler) (v : Value) : Assembler :=
  { a.emit (.ofNat a.objects.length) with objects := a.objects ++ [v] }

/-- `Push`, by the kind of the object. -/
def push (a : Assembler) (v : Value) : Assembler :=
  match v with
  | .null => a.emitOp .pushN
  | .long n => (a.emitOp .pushI).emit n
  | .bool true => a.emitOp .pushT
  | .bool false => a.emitOp .pushF
  | v => (a.emitOp .pushQ).emitAddress v

/-- `LoadLocal`: a short form for the first four. -/
def loadLocal (a : Assembler) (idx : UInt64) : Assembler :=
  if h : idx.toNat < 4 then a.emitOp (.loadLocalN ⟨idx.toNat, h⟩)
  else (a.emitOp .loadLocal).emit idx

/-- `StoreLocal`. -/
def storeLocal (a : Assembler) (idx : UInt64) : Assembler :=
  if h : idx.toNat < 4 then a.emitOp (.storeLocalN ⟨idx.toNat, h⟩)
  else (a.emitOp .storeLocal).emit idx

def invoke (a : Assembler) (f : Value) (numArgs : UInt64) : Assembler :=
  ((a.emitOp .invoke).emitAddress f).emit numArgs

def invokeDynamic (a : Assembler) (numArgs : UInt64) : Assembler :=
  (a.emitOp .invokeDynamic).emit numArgs

def invokeNative (a : Assembler) (f : Value) (numArgs : UInt64) : Assembler :=
  ((a.emitOp .invokeNative).emitAddress f).emit numArgs

def checkInstance (a : Assembler) (c : ClassId) : Assembler :=
  (a.emitOp .checkInstance).emitAddress (.cls c)

def castTo (a : Assembler) (c : ClassId) : Assembler := (a.emitOp .cast).emitAddress (.cls c)

def new (a : Assembler) (c : ClassId) (numArgs : UInt64) : Assembler :=
  ((a.emitOp .new).emitAddress (.cls c)).emit numArgs

def ldfield (a : Assembler) (f : Value) : Assembler := (a.emitOp .loadField).emitAddress f

def stfield (a : Assembler) (f : Value) : Assembler := (a.emitOp .storeField).emitAddress f

/-- `EmitLabelLink`: the operand of a pending jump holds the label's word, and the label the
position of the operand. -/
def emitLabelLink (a : Assembler) (l : Label) : Label × Assembler :=
  (.linkTo a.buffer.length, a.emit (Words.ofInt l.pos))

/-- `Jump`.  The offset to a bound label is taken before the operation is emitted. -/
def jump (a : Assembler) (op : Op) (l : Label) : Label × Assembler :=
  if l.isBound then
    (l, (a.emitOp op).emit (Words.ofInt (l.getPos - a.buffer.length)))
  else (a.emitOp op).emitLabelLink l

/-- The loop of `Bind`: patch the operands of a chain.  A chain of pending operands is shorter
than the buffer; on anything else the loop reads outside it or does not end. -/
def patch (bound : Int) : Nat → Assembler → Label → Option Assembler
  | 0, a, l => if l.isLinked then none else some a
  | n + 1, a, l =>
      if l.isLinked then do
        let pos := l.getLinkPos.toNat
        let next ← Words.loadWord a.buffer pos
        patch bound n { a with buffer := Words.storeWord a.buffer pos (Words.ofInt (bound - pos)) }
          ⟨Words.toInt next⟩
      else some a

/-- `Bind`: the label is bound one operation past the end of the buffer. -/
def bind (a : Assembler) (l : Label) : Option (Label × Assembler) :=
  let bound : Int := a.buffer.length + 1
  (patch bound a.buffer.length a l).map fun a => (.bindTo bound, a)

end Assembler

end Gel
