import FrontEnd.Token.Lexeme

/-! Names and texts as they are written in source. -/

namespace FrontEnd.Printer

/-- Whether the name can be written without backticks and still be read as a name. -/
def isPlainName (name : String) : Bool :=
  match name.toList with
  | [] => false
  | first :: rest =>
    Lexeme.startsName first && rest.all Lexeme.continuesName &&
      !Keyword.all.any (·.text == name)

def name (name : String) : String :=
  if isPlainName name then name else "`" ++ name ++ "`"

/-- The character as it stands between double quotes. -/
def escaped (c : Char) : String :=
  if c = '"' then "\\\""
  else if c = '\\' then "\\\\"
  else if c = '\n' then "\\n"
  else if c = '\t' then "\\t"
  else if c = '\r' then "\\r"
  else c.toString

def text (value : String) : String :=
  "\"" ++ String.join (value.toList.map escaped) ++ "\""

end FrontEnd.Printer
