import Treewalk.Token
import Treewalk.Syntax.Render

/-! What can be wrong with a source text. Diagnostics name causes; the wording of all of them is in one place. -/

namespace Treewalk

inductive Diagnostic where
  | expectedNext (want got : Token.Kind)
  | noOperand (kind : Token.Kind)
  | integerTooLarge (literal : String)
  | invalidTarget (target : Expr)
  | unterminatedString (position : Nat)
  | illegalCharacter (literal : String) (position : Nat)
  | unclosedBlock
  | nestingTooDeep
  deriving Inhabited

def Diagnostic.message : Diagnostic → String
  | .expectedNext want got => "expected next token to be " ++ want.name ++ ", got " ++ got.name ++ " instead"
  | .noOperand kind => "no prefix parse function for token " ++ kind.name
  | .integerTooLarge literal => "could not parse " ++ literal ++ " as integer"
  | .invalidTarget target => "invalid assignment target: " ++ target.render
  | .unterminatedString position => "unterminated string literal at position " ++ toString position
  | .illegalCharacter literal position => "illegal character '" ++ literal ++ "' at position " ++ toString position
  | .unclosedBlock =>
    "expected " ++ Token.Kind.rightBrace.name ++ ", got " ++ Token.Kind.endOfInput.name ++ " instead"
  | .nestingTooDeep => "maximum nesting depth exceeded"

end Treewalk
