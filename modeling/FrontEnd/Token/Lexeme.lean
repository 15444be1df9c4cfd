import FrontEnd.Token
import FrontEnd.Unicode.Words

/-! The text of one token: which stretches of source spell a token, and which of them is taken. -/

namespace FrontEnd

/-- Why no token can be read. -/
inductive LexErrorKind where
  | unterminatedText
  | unterminatedIdentifier
  | unexpectedCharacter (c : Char)
deriving DecidableEq

def LexErrorKind.message : LexErrorKind → String
  | unterminatedText => "unterminated text literal"
  | unterminatedIdentifier => "unterminated backtick identifier"
  | unexpectedCharacter c => "unexpected character: " ++ c.toString

/-- A token and the stretch of source that spells it. -/
structure Lexeme where
  token : Token
  text : List Char
deriving DecidableEq

/-- What a class of tokens makes of a text: the token of the class that it starts with, if there is
one. An error says that a token of the class has begun and does not end. -/
abbrev Reading := Except LexErrorKind (Option Lexeme)

namespace Reading

def lexeme? : Reading → Option Lexeme
  | .ok found => found
  | .error _ => none

def error? : Reading → Option LexErrorKind
  | .ok _ => none
  | .error kind => some kind

end Reading

/-- A class of tokens, by how it reads the start of a text. -/
abbrev TokenClass := List Char → Reading

namespace Lexeme

/-- A letter or an underscore. -/
def startsName (c : Char) : Bool :=
  Unicode.isAlphabetic c || c == '_'

/-- A letter, a number or an underscore. -/
def continuesName (c : Char) : Bool :=
  Unicode.isAlphabetic c || Unicode.isNumeric c || c == '_'

theorem continuesName_of_startsName {c : Char} (h : startsName c = true) :
    continuesName c = true := by
  simp only [startsName, continuesName, Bool.or_eq_true] at h ⊢
  obtain h | h := h
  · exact Or.inl (Or.inl h)
  · exact Or.inr h

/-- The plain name at the start of the text, or nothing. -/
def nameRun : List Char → List Char
  | [] => []
  | c :: rest => if startsName c then c :: rest.takeWhile continuesName else []

/-- A name written against the end of a literal is the literal's unit. -/
def unit? : List Char → Option String
  | [] => none
  | run => some (String.ofList run)

/-- Of the symbols whose text the input starts with, the one with the longest. -/
def longestMatch? {α : Type} (symbols : List α) (text : α → String) (input : List Char) :
    Option α :=
  (symbols.filter fun symbol => (text symbol).toList.isPrefixOf input).maxOn?
    fun symbol => (text symbol).toList.length

/-- A class of tokens with fixed texts. -/
def symbol {α : Type} (symbols : List α) (text : α → String) (token : α → Token) : TokenClass :=
  fun input => .ok <| (longestMatch? symbols text input).map fun found =>
    ⟨token found, (text found).toList⟩

/-- A point and the digits after it; a point that no digit follows is not part of a number. -/
def fraction : List Char → List Char
  | '.' :: rest =>
    match rest.takeWhile Char.isDigit with
    | [] => []
    | digits => '.' :: digits
  | _ => []

def number : TokenClass := fun input =>
  match input.takeWhile Char.isDigit with
  | [] => .ok none
  | digits =>
    let value := digits ++ fraction (input.drop digits.length)
    let unit := nameRun (input.drop value.length)
    .ok (some ⟨.numeric (String.ofList value) (unit? unit), value ++ unit⟩)

/-- What a backslash and `c` stand for; outside the known pairs the backslash is kept. -/
def unescape : Char → List Char
  | 'n' => ['\n']
  | 't' => ['\t']
  | 'r' => ['\r']
  | '"' => ['"']
  | '\\' => ['\\']
  | c => ['\\', c]

/-- What follows an opening quote, up to and with the closing one: the decoded value and the text
as written. -/
def quotedBody? : List Char → Option (List Char × List Char)
  | [] => none
  | '"' :: _ => some ([], ['"'])
  | '\\' :: c :: rest =>
    (quotedBody? rest).map fun (value, text) => (unescape c ++ value, '\\' :: c :: text)
  | c :: rest => (quotedBody? rest).map fun (value, text) => (c :: value, c :: text)

def quotedText : TokenClass
  | '"' :: rest =>
    match quotedBody? rest with
    | none => .error .unterminatedText
    | some (value, text) =>
      let unit := nameRun (rest.drop text.length)
      .ok (some ⟨.textual (String.ofList value) (unit? unit), '"' :: (text ++ unit)⟩)
  | _ => .ok none

/-- A name is plain, or anything at all between backticks. -/
def name : TokenClass
  | '\x60' :: rest =>
    let name := rest.takeWhile (· ≠ '\x60')
    if name.length < rest.length then
      .ok (some ⟨.identifier (String.ofList name), '\x60' :: (name ++ ['\x60'])⟩)
    else .error .unterminatedIdentifier
  | input =>
    match nameRun input with
    | [] => .ok none
    | run => .ok (some ⟨.identifier (String.ofList run), run⟩)

/-- Every class of tokens, the preferred one of two equally long readings first. -/
def classes : List TokenClass :=
  [symbol Keyword.all Keyword.text .keyword, symbol Operator.all Operator.text .operator,
    symbol Delimiter.all Delimiter.text .delimiter, number, quotedText, name]

/-- The longest token at the start of the text. If no class has one, the first complaint of a class
is the error, and failing that the first character. -/
def read (input : List Char) : Except LexErrorKind Lexeme :=
  let readings := classes.map (· input)
  match (readings.filterMap Reading.lexeme?).maxOn? (Text.byteSize ·.text) with
  | some lexeme => .ok lexeme
  | none =>
    .error ((readings.findSome? Reading.error?).getD (.unexpectedCharacter (input.headD '\x00')))

end Lexeme

end FrontEnd
