import Gel.Support.Binary64
import Mathlib.Data.List.Basic

/-!
# Object — values and their operations

The objects the compiler pushes and the interpreter computes with, and the virtual operations of
`object.cc` that `Interpreter::ExecBinaryOp` and `Interpreter::ExecUnaryOp` dispatch to.
An operation that aborts the process, reads through a null pointer or throws does not return a
value: its result is a `Fault`.

`ASSERT` is compiled out in release builds, so no operation below checks one.
-/

namespace Gel

/-- How an operation fails to return: `LOG(FATAL)`, undefined behaviour of the C++ code, or a C++
exception with its message.  `timeout` is the end of the steps a run was given. -/
inductive Fault where
  | fatal
  | undefined
  | thrown (message : String)
  | timeout
  deriving DecidableEq, Repr

/-- A `Symbol`: namespace and type may be empty. -/
structure Symbol where
  ns : String := ""
  type : String := ""
  name : String
  deriving DecidableEq, Repr

/-- `Symbol::GetFullyQualifiedName`, the name scopes are keyed by. -/
def Symbol.fullyQualifiedName (s : Symbol) : String :=
  if s.ns ≠ "" then
    if s.type ≠ "" then s.ns ++ "/" ++ s.type ++ ":" ++ s.name else s.ns ++ "/" ++ s.name
  else if s.type ≠ "" then s.type ++ ":" ++ s.name
  else s.name

/-- `Symbol::Equals` compares namespace and name, and not the type. -/
def Symbol.equals (a b : Symbol) : Bool := a.ns == b.ns && a.name == b.name

/-- The classes `Object::Init` creates; `other` stands for the remaining direct subclasses of
`Object`. -/
inductive ClassId where
  | object | symbol | string | seq | map | set | array | pair | number | long | double | bool
  | procedure | lambda | nativeProcedure | cls | field | error
  | observable | observer | subject | publishSubject | replaySubject
  | other (name : String)
  deriving DecidableEq, Repr

/-- `Class::GetParent`. -/
def ClassId.parent : ClassId → Option ClassId
  | .object => none
  | .map | .set | .array | .pair | .observable => some .seq
  | .long | .double => some .number
  | .lambda | .nativeProcedure => some .procedure
  | .publishSubject | .replaySubject => some .subject
  | _ => some .object

/-- `Class::IsInstanceOf`: the class itself, or a class up its chain of parents, which is at most
two long. -/
def ClassId.isInstanceOf (c rhs : ClassId) : Bool :=
  c == rhs || (c.parent.any fun p => p == rhs || p.parent == some rhs)

/-- Objects.  `null` is the empty pair `Pair::Empty`; a lambda is named by its identity; `object`
is an instance of a class whose contents the compiler and the interpreter do not look into. -/
inductive Value where
  | null
  | bool (b : Bool)
  | long (n : UInt64)
  | double (bits : UInt64)
  | string (s : String)
  | symbol (s : Symbol)
  | pair (car cdr : Value)
  | native (symbol : Symbol)
  | lambda (id : Nat)
  | cls (c : ClassId)
  | field (owner : ClassId) (name : String)
  | error (id : Nat) (message : String)
  | object (c : ClassId) (id : Nat)
  deriving DecidableEq, Repr

namespace Value

/-- `Object::GetType`. -/
def type : Value → ClassId
  | null | pair .. => .pair
  | bool _ => .bool
  | long _ => .long
  | double _ => .double
  | string _ => .string
  | symbol _ => .symbol
  | native _ => .nativeProcedure
  | lambda _ => .lambda
  | cls _ => .cls
  | field .. => .field
  | error .. => .error
  | object c _ => c

/-- `gel::IsNull`. -/
def isNull : Value → Bool
  | null => true
  | _ => false

def isSymbol : Value → Bool
  | symbol _ => true
  | _ => false

def isNativeProcedure : Value → Bool
  | native _ => true
  | _ => false

def isLambda : Value → Bool
  | lambda _ => true
  | _ => false

/-- `IsProcedure`: a lambda or a native. -/
def isProcedure (v : Value) : Bool := v.isNativeProcedure || v.isLambda

/-- `gel::Truth`. -/
def truth : Value → Bool
  | bool b => b
  | v => !v.isNull

/-- `Object::Equals`, by the class of the left operand.  `Pair::Equals` follows the `car` of both
operands before it looks at whether they are empty, so it reads through a null pointer when the
left pair is empty, and hands its right operand's missing `car` to an `Equals` that rejects null.
Collections and observables have no equality. -/
def equals : Value → Value → Except Fault Bool
  | null, null | null, pair .. => .error .undefined
  | null, _ => .ok false
  | bool a, bool b => .ok (a == b)
  | bool _, _ => .ok false
  | long a, long b => .ok (a == b)
  | long _, _ => .ok false
  | double a, double b => .ok (Float.ofBits a == Float.ofBits b)
  | double _, _ => .ok false
  | string a, string b => .ok (a == b)
  | string a, symbol b => .ok (a == b.fullyQualifiedName)
  | string _, _ => .ok false
  | symbol a, symbol b => .ok (a.equals b)
  | symbol _, _ => .ok false
  | pair a d, pair a' d' => do
      if ← equals a a' then equals d d' else pure false
  | pair a _, null => match a with
      | null | bool _ | pair .. | lambda _ => .error .undefined
      | object .. => .error .fatal
      | _ => .ok false
  | pair .., _ => .ok false
  | native a, native b => .ok (a.equals b)
  | native _, _ => .ok false
  | lambda _, _ => .ok false
  | cls a, cls b => .ok (a == b)
  | cls _, _ => .ok false
  | field .., _ => .ok false
  | error a _, error b _ => .ok (a == b)
  | error .., _ => .ok false
  | object .., _ => .error .fatal

/-- The right operand of `Long` arithmetic as a `uint64_t`; no result for what is not a number.  The
conversion of a `double` that does not fit is undefined. -/
def toUInt64? : Value → Option (Except Fault UInt64)
  | long n => some (.ok n)
  | double d => some <| match Binary64.toUInt64? d with
      | some n => .ok n
      | none => .error .undefined
  | _ => none

/-- The right operand of `Double` arithmetic as a `double`. -/
def toFloat? : Value → Option Float
  | long n => some n.toFloat
  | double d => some (Float.ofBits d)
  | _ => none

/-- The arithmetic `DEFINE_BINARY_OP` writes for `Long` and `Double`: a right operand that is not
a number gives the empty pair, every other left operand falls through to `Object`'s default, which
gives the empty pair too. -/
def arith (onLong : UInt64 → UInt64 → Except Fault UInt64) (onDouble : Float → Float → Float)
    (lhs rhs : Value) : Except Fault Value :=
  match lhs with
  | long a => match rhs.toUInt64? with
      | some b => b >>= fun b => long <$> onLong a b
      | none => .ok null
  | double a => match rhs.toFloat? with
      | some b => .ok (double (onDouble (Float.ofBits a) b).toBits)
      | none => .ok null
  | _ => .ok null

def add : Value → Value → Except Fault Value := arith (fun a b => .ok (a + b)) (· + ·)

def sub : Value → Value → Except Fault Value := arith (fun a b => .ok (a - b)) (· - ·)

def mul : Value → Value → Except Fault Value := arith (fun a b => .ok (a * b)) (· * ·)

/-- A division of words is undefined for a zero divisor. -/
def divLong (a b : UInt64) : Except Fault UInt64 :=
  if b = 0 then .error .undefined else .ok (a / b)

def modLong (a b : UInt64) : Except Fault UInt64 :=
  if b = 0 then .error .undefined else .ok (a % b)

def div : Value → Value → Except Fault Value := arith divLong (· / ·)

/-- `Long::Mod`; `Double` does not override `Object::Mod`. -/
def mod (lhs rhs : Value) : Except Fault Value :=
  match lhs with
  | long a => match rhs.toUInt64? with
      | some b => b >>= fun b => long <$> modLong a b
      | none => .ok null
  | _ => .ok null

/-- `Bool::And`; every other class keeps `Object::And`. -/
def and (lhs rhs : Value) : Except Fault Value :=
  match lhs with
  | bool b => .ok (bool (b && rhs.truth))
  | _ => .ok null

/-- `Bool::Or`. -/
def or (lhs rhs : Value) : Except Fault Value :=
  match lhs with
  | bool b => .ok (bool (b || rhs.truth))
  | _ => .ok null

/-- `Long::Compare`; the default of `Object` is fatal, and a right operand that is not a `Long` is
read through a null pointer. -/
def compare (lhs rhs : Value) : Except Fault Ordering :=
  match lhs, rhs with
  | long a, long b => .ok (if a < b then .lt else if b < a then .gt else .eq)
  | long _, _ => .error .undefined
  | _, _ => .error .fatal

/-- `gel::Car`; on what is not a pair the cast result is null and read through. -/
def car : Value → Except Fault Value
  | pair a _ => .ok a
  | null => .ok null
  | _ => .error .undefined

/-- `gel::Cdr`. -/
def cdr : Value → Except Fault Value
  | pair _ d => .ok d
  | null => .ok null
  | _ => .error .undefined

end Value

/-- `expr::UnaryOp`. -/
inductive UnaryOp where
  | not | car | cdr | nonnull | null
  deriving DecidableEq, Repr

/-- `expr::BinaryOp`. -/
inductive BinaryOp where
  | add | subtract | multiply | divide | modulus | equals | binaryAnd | binaryOr
  | greaterThan | greaterThanEqual | lessThan | lessThanEqual | cons | instanceOf
  deriving DecidableEq, Repr

/-- What `Interpreter::ExecUnaryOp` pushes for the value it pops. -/
def UnaryOp.apply (op : UnaryOp) (v : Value) : Except Fault Value :=
  match op with
  | .not => .ok (.bool !v.truth)
  | .car => v.car
  | .cdr => v.cdr
  | .nonnull => .ok (.bool !v.isNull)
  | .null => .ok (.bool v.isNull)

/-- What `Interpreter::ExecBinaryOp` pushes for the operands it pops. -/
def BinaryOp.apply (op : BinaryOp) (lhs rhs : Value) : Except Fault Value :=
  match op with
  | .add => lhs.add rhs
  | .subtract => lhs.sub rhs
  | .multiply => lhs.mul rhs
  | .divide => lhs.div rhs
  | .modulus => lhs.mod rhs
  | .equals => .bool <$> lhs.equals rhs
  | .binaryAnd => lhs.and rhs
  | .binaryOr => lhs.or rhs
  | .lessThan => (fun o => .bool (o == .lt)) <$> lhs.compare rhs
  | .lessThanEqual => (fun o => .bool (o != .gt)) <$> lhs.compare rhs
  | .greaterThan => (fun o => .bool (o == .gt)) <$> lhs.compare rhs
  | .greaterThanEqual => (fun o => .bool (o != .lt)) <$> lhs.compare rhs
  | .cons => .ok (.pair lhs rhs)
  | .instanceOf => match rhs with
      | .cls c => .ok (.bool (lhs.type.isInstanceOf c))
      | _ => .ok (.bool false)

end Gel
