import Treewalk.Syntax.Levels
import Treewalk.Text.Surrogate

/-! Runtime values. Arrays and functions carry an identity: two of them are the same value only if they came from the
same evaluation. A value that leaves a function early and a failed evaluation are values too, the signals; every step
that combines values hands a signal on unchanged. -/

namespace Treewalk

inductive Value.Kind where
  | integer | string | boolean | null | array | function | builtin | returned | error
  deriving DecidableEq, Repr, Inhabited

/-- The name of a kind, as error messages write it. -/
def Value.Kind.name : Value.Kind → String
  | .integer => "INTEGER"
  | .string => "STRING"
  | .boolean => "BOOLEAN"
  | .null => "NULL"
  | .array => "ARRAY"
  | .function => "FUNCTION"
  | .builtin => "BUILTIN"
  | .returned => "RETURN_VALUE"
  | .error => "ERROR"

inductive Builtin where
  | len | first | last | rest | push | print
  deriving DecidableEq, Repr, Inhabited

namespace Builtin

def name : Builtin → String
  | .len => "len"
  | .first => "first"
  | .last => "last"
  | .rest => "rest"
  | .push => "push"
  | .print => "print"

def ofName? (name : String) : Option Builtin :=
  match name with
  | "len" => some .len
  | "first" => some .first
  | "last" => some .last
  | "rest" => some .rest
  | "push" => some .push
  | "print" => some .print
  | _ => none

/-- How many arguments a builtin takes, unless it takes any number. -/
def arity : Builtin → Option Nat
  | .len | .first | .last | .rest => some 1
  | .push => some 2
  | .print => none

end Builtin

/-- Why an evaluation failed. -/
inductive Fault where
  | unknownName (name : String)
  | unknownUnary (op : UnaryOp) (operand : Value.Kind)
  | unknownBinary (left : Value.Kind) (op : BinaryOp) (right : Value.Kind)
  | typeMismatch (left : Value.Kind) (op : BinaryOp) (right : Value.Kind)
  | divisionByZero
  | negativeExponent (exponent : Int)
  | notIndexable (collection position : Value.Kind)
  | notAFunction (kind : Value.Kind)
  | wrongArguments (want got : Nat)
  | wrongBuiltinArguments (want got : Nat)
  | notAnArray (builtin : Builtin) (argument : Value.Kind)
  | noLength (argument : Value.Kind)
  /-- A text was to be encoded in which there are lone surrogates. Nobody planned for that. -/
  | unencodable (halves : Alphabet.Halves)
  | callsTooDeep
  /-- A failure that is known only by its message. -/
  | reported (message : String)
  deriving DecidableEq, Repr, Inhabited

def Fault.message : Fault → String
  | .unknownName name => "identifier not found: " ++ name
  | .unknownUnary op operand => "unknown operator: " ++ op.symbol ++ operand.name
  | .unknownBinary left op right => "unknown operator: " ++ left.name ++ " " ++ op.symbol ++ " " ++ right.name
  | .typeMismatch left op right => "type mismatch: " ++ left.name ++ " " ++ op.symbol ++ " " ++ right.name
  | .divisionByZero => "division by zero"
  | .negativeExponent exponent => "negative exponent: " ++ toString exponent
  | .notIndexable collection position =>
    "index operator not supported: " ++ collection.name ++ "[" ++ position.name ++ "]"
  | .notAFunction kind => "not a function: " ++ kind.name
  | .wrongArguments want got => "wrong number of arguments: want=" ++ toString want ++ ", got=" ++ toString got
  | .wrongBuiltinArguments want got =>
    "wrong number of arguments. got=" ++ toString got ++ ", want=" ++ toString want
  | .notAnArray builtin argument =>
    "argument to `" ++ builtin.name ++ "` must be " ++ Value.Kind.array.name ++ ", got " ++ argument.name
  | .noLength argument => "argument to `len` not supported, got " ++ argument.name
  | .unencodable halves => halves.message
  | .callsTooDeep => "maximum recursion depth exceeded"
  | .reported message => message

/-- Scopes are numbered in the order in which they are created. -/
abbrev ScopeId := Nat

abbrev Identity := Nat

inductive Value where
  | integer (value : Int)
  | string (text : String)
  | boolean (value : Bool)
  | null
  | array (identity : Identity) (elements : List Value)
  /-- A function remembers the scope it was written in, not the one it is called from. -/
  | function (identity : Identity) (parameters : List String) (body : List Stmt) (scope : ScopeId)
  | builtin (builtin : Builtin)
  /-- A value on its way out of the function that returns it. -/
  | returned (value : Value)
  | error (fault : Fault)

instance : Inhabited Value := ⟨.null⟩

namespace Value

def kind : Value → Kind
  | .integer _ => .integer
  | .string _ => .string
  | .boolean _ => .boolean
  | .null => .null
  | .array _ _ => .array
  | .function _ _ _ _ => .function
  | .builtin _ => .builtin
  | .returned _ => .returned
  | .error _ => .error

def isSignal : Value → Bool
  | .returned _ | .error _ => true
  | _ => false

/-- Only null and false are not truthy. -/
def isTruthy : Value → Bool
  | .null | .boolean false => false
  | _ => true

/-- Takes a returned value out of its wrapping, where the function or the program ends that it returns from. -/
def unwrap : Value → Value
  | .returned value => value
  | value => value

/-- Whether two values are one and the same object. Integers, strings and booleans have no identity of their own and
are never asked; two signals are always different ones. -/
def identical : Value → Value → Bool
  | .null, .null => true
  | .array a _, .array b _ => a == b
  | .function a _ _ _, .function b _ _ _ => a == b
  | .builtin a, .builtin b => a == b
  | _, _ => false

def renderFunction (parameters : List String) (body : List Stmt) : String :=
  "fn(" ++ renderList parameters ++ ") \x7b\n" ++ renderStatements (Stmt.renderAll body) ++ "\n\x7d"

mutual

/-- A value as text, as the shell shows it and `print` prints it. -/
def inspect : Value → String
  | .integer value => toString value
  | .string text => text
  | .boolean value => if value then "true" else "false"
  | .null => "null"
  | .array _ elements => "[" ++ renderList (inspectAll elements) ++ "]"
  | .function _ parameters body _ => renderFunction parameters body
  | .builtin _ => "builtin function"
  | .returned value => value.inspect
  | .error fault => "ERROR: " ++ fault.message

def inspectAll : List Value → List String
  | [] => []
  | value :: values => value.inspect :: inspectAll values

end

mutual

/-- How many levels the text of a value has. -/
def levels : Value → Nat
  | .array _ elements => 2 + mostLevels elements
  | .function _ parameters body _ => 1 + max (nameLevels parameters) (1 + Stmt.listLevels body)
  | .returned value => 1 + value.levels
  | _ => 1

def mostLevels : List Value → Nat
  | [] => 0
  | value :: values => max value.levels (mostLevels values)

end

end Value

end Treewalk
