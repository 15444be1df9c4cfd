import FrontEnd.Unicode.Visibility

/-! Text as it is shown: indented, or between double quotes with everything a reader could not see
or could misread escaped. -/

namespace FrontEnd.Text

/-- Indentation: four blanks for each level. -/
def margin : (depth : Nat) → String
  | 0 => ""
  | depth + 1 => "    " ++ margin depth

/-- The code point of `c` in lower-case hexadecimal, as an escape. -/
def codePointEscape (c : Char) : String :=
  "\\u\x7b" ++ String.ofList (Nat.toDigits 16 c.toNat) ++ "\x7d"

/-- Whether a reader could miss `c` or take it for part of its neighbour: it attaches to the
character before it, it shows nothing, or it has no visible form. -/
def isObscure (c : Char) : Bool :=
  Unicode.isAttachingMark c || Unicode.isDefaultIgnorable c || Unicode.isUnprintable c

/-- The form of `c` between the quotes: the quote, the backslash and four controls have short
escapes, an obscure character is given by its code point, and every other one stands for itself. -/
def quotedChar (c : Char) : String :=
  if c = '"' then "\\\""
  else if c = '\\' then "\\\\"
  else if c = '\x00' then "\\0"
  else if c = '\t' then "\\t"
  else if c = '\n' then "\\n"
  else if c = '\r' then "\\r"
  else if isObscure c then codePointEscape c
  else c.toString

def quoted (text : String) : String :=
  "\"" ++ String.join (text.toList.map quotedChar) ++ "\""

end FrontEnd.Text
