import FrontEnd.Location
import FrontEnd.Text.Display
import FrontEnd.Token.Symbols

/-! The tokens of the language. -/

namespace FrontEnd

inductive Token where
  | identifier (name : String)
  /-- Digits with an optional fraction, kept as written, and the unit that follows them. -/
  | numeric (value : String) (unit : Option String)
  /-- The decoded content of a quoted literal and the unit that follows it. -/
  | textual (value : String) (unit : Option String)
  | keyword (word : Keyword)
  | operator (symbol : Operator)
  | delimiter (symbol : Delimiter)
deriving DecidableEq

/-- The token as a message names it. -/
def Token.describe : Token → String
  | identifier name => "identifier '" ++ name ++ "'"
  | numeric value unit => "number '" ++ value ++ unit.getD "" ++ "'"
  | textual value _ => "text " ++ Text.quoted value
  | keyword word => "'" ++ word.text ++ "'"
  | operator symbol => "'" ++ symbol.text ++ "'"
  | delimiter symbol => "'" ++ symbol.text ++ "'"

end FrontEnd
