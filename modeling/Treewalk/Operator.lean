import Treewalk.Arithmetic
import Treewalk.Value

/-! What operators do with values. Integers calculate modulo 2⁶⁴ and compare as they are; strings, booleans and
integers are equal when their contents are, everything else only when it is the same object. -/

namespace Treewalk

def UnaryOp.apply (op : UnaryOp) (operand : Value) : Value :=
  match op, operand with
  | .invert, value => .boolean !value.isTruthy
  | .negate, .integer value => .integer (wrap (-value))
  | op, value => .error (.unknownUnary op value.kind)

namespace BinaryOp

def applyIntegers (op : BinaryOp) (left right : Int) : Value :=
  match op with
  | .add => .integer (wrap (left + right))
  | .subtract => .integer (wrap (left - right))
  | .multiply => .integer (wrap (left * right))
  | .divide => if right = 0 then .error .divisionByZero else .integer (wrap (left.tdiv right))
  | .power =>
    if right < 0 then .error (.negativeExponent right) else .integer (wrappedPower left right.toNat)
  | .less => .boolean (left < right)
  | .greater => .boolean (left > right)
  | .equal => .boolean (left == right)
  | .notEqual => .boolean (left != right)
  | .unknown _ => .error (.unknownBinary .integer op .integer)

/-- Applies an operator to two values, given whether they are one and the same object. -/
def applyGiven (identical : Bool) (op : BinaryOp) (left right : Value) : Value :=
  match left, right with
  | .integer left, .integer right => op.applyIntegers left right
  | left, right =>
    if left.kind ≠ right.kind then .error (.typeMismatch left.kind op right.kind)
    else
      match op, left, right with
      | .add, .string left, .string right => .string (left ++ right)
      | .equal, .string left, .string right => .boolean (left == right)
      | .notEqual, .string left, .string right => .boolean (left != right)
      | .equal, .boolean left, .boolean right => .boolean (left == right)
      | .notEqual, .boolean left, .boolean right => .boolean (left != right)
      | .equal, _, _ => .boolean identical
      | .notEqual, _, _ => .boolean !identical
      | op, _, _ => .error (.unknownBinary left.kind op right.kind)

def apply (op : BinaryOp) (left right : Value) : Value := op.applyGiven (left.identical right) left right

end BinaryOp

/-- The element of an array at a position. Positions outside the array hold null; nothing counts from the end. -/
def Value.elementAt (collection position : Value) : Value :=
  match collection, position with
  | .array _ elements, .integer position =>
    if 0 ≤ position then elements[position.toNat]?.getD .null else .null
  | collection, position => .error (.notIndexable collection.kind position.kind)

end Treewalk
