/-! Styled text. A text is a list of spans, each in one style; where colours are not shown, the styles leave no
trace. -/

namespace Treewalk

inductive Style where
  | plain | bold | boldRed | boldMagenta
  deriving DecidableEq, Repr, Inhabited

structure Span where
  style : Style
  text : String
  deriving DecidableEq, Repr, Inhabited

abbrev StyledText := List Span

/-- A terminal control sequence that selects a rendition. -/
def selectRendition (code : String) : String := "\x1b[" ++ code ++ "m"

/-- What a terminal is sent to enter a style. -/
def Style.opening : Style → String
  | .plain => ""
  | .bold => selectRendition "1"
  | .boldRed => selectRendition "1" ++ selectRendition "31"
  | .boldMagenta => selectRendition "1" ++ selectRendition "35"

/-- What a terminal is sent to leave a style. -/
def Style.closing : Style → String
  | .plain => ""
  | .bold | .boldRed | .boldMagenta => selectRendition "0"

namespace Span

def plain (text : String) : Span := ⟨.plain, text⟩

def bold (text : String) : Span := ⟨.bold, text⟩

/-- A span as it is printed, with or without colours. A styled span is marked also when it is empty. -/
def render (coloured : Bool) (span : Span) : String :=
  if coloured then span.style.opening ++ span.text ++ span.style.closing else span.text

end Span

namespace StyledText

def render (coloured : Bool) (text : StyledText) : String := String.join (text.map (Span.render coloured))

/-- The text without its styles. -/
def plain (text : StyledText) : String := render false text

end StyledText

end Treewalk
