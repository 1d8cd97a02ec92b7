import Treewalk.Token.Scan

/-! Entries typed line by line. An entry goes on as long as more brackets are open than closed, whatever their kinds,
or a string has not been closed. Brackets inside strings and comments do not count. -/

namespace Treewalk

namespace Token

def opensBracket (token : Token) : Bool :=
  token.kind = .leftParen || token.kind = .leftBracket || token.kind = .leftBrace

def closesBracket (token : Token) : Bool :=
  token.kind = .rightParen || token.kind = .rightBracket || token.kind = .rightBrace

/-- An unclosed string runs to the end of the source, so nothing can follow it. -/
def isUnclosedString (token : Token) : Bool := token.kind = .illegal && token.opensString

/-- How a token changes the number of open brackets. -/
def bracketStep (token : Token) : Int :=
  if token.opensBracket then 1 else if token.closesBracket then -1 else 0

end Token

/-- How many more brackets are opened than closed. The number is negative when closing ones are in excess. -/
def bracketBalance : List Token → Int
  | [] => 0
  | token :: tokens => token.bracketStep + bracketBalance tokens

/-- Whether a source needs another line before it can be read. -/
def needsContinuation (source : String) : Bool :=
  let tokens := Token.stream source
  tokens.any Token.isUnclosedString || 0 < bracketBalance tokens

end Treewalk
