import FrontEnd.Token.Lexeme

/-! The tokens of a source unit, one after the other. -/

namespace FrontEnd

/-- The place where a source unit stops being readable. -/
structure LexError where
  kind : LexErrorKind
  location : Location
deriving DecidableEq

def LexError.message (error : LexError) : String :=
  error.kind.message ++ " at " ++ error.location.describe

/-- The part of a source unit that is still unread. -/
structure TokenStream where
  file : FileId
  /-- Bytes of the unit that come before `rest`. -/
  offset : Nat
  rest : List Char

namespace TokenStream

/-- A byte order mark at the very start is not part of the text. -/
def ofSource (source : String) (file : FileId) : TokenStream :=
  match source.toList with
  | '\uFEFF' :: rest => ⟨file, Text.byteSize ['\uFEFF'], rest⟩
  | text => ⟨file, 0, text⟩

/-- The white space and comments at the start of the text; `comment` says that it starts inside a
comment, which goes on to the end of its line. -/
def triviaRun : (comment : Bool) → List Char → List Char
  | _, [] => []
  | true, c :: rest => c :: triviaRun (c ≠ '\n') rest
  | false, '/' :: '/' :: rest => '/' :: '/' :: triviaRun true rest
  | false, c :: rest => if Unicode.isWhitespace c then c :: triviaRun false rest else []

/-- The stream after `text`, with which its unread part starts. -/
def skip (stream : TokenStream) (text : List Char) : TokenStream :=
  { stream with
    offset := stream.offset + Text.byteSize text
    rest := stream.rest.drop text.length }

def skipTrivia (stream : TokenStream) : TokenStream :=
  stream.skip (triviaRun false stream.rest)

/-- An unexpected character is one character long; a token without an end takes all that is left. -/
def errorLength : LexErrorKind → List Char → Nat
  | .unexpectedCharacter c, _ => c.utf8Size
  | _, rest => Text.byteSize rest

/-- The next token with its location, or the error that ends the stream. -/
def next? (stream : TokenStream) : Option (Except LexError (Located Token) × TokenStream) :=
  let start := stream.skipTrivia
  if start.rest.isEmpty then none
  else
    match Lexeme.read start.rest with
    | .ok lexeme =>
      some (.ok ⟨lexeme.token, ⟨start.file, start.offset, Text.byteSize lexeme.text⟩⟩,
        start.skip lexeme.text)
    | .error kind =>
      some (.error ⟨kind, ⟨start.file, start.offset, errorLength kind start.rest⟩⟩,
        start.skip start.rest)

/-- What the next `count` calls give; at the end of the stream every call gives nothing. -/
def calls : (count : Nat) → TokenStream → List (Option (Except LexError (Located Token)))
  | 0, _ => []
  | count + 1, stream =>
    match stream.next? with
    | none => none :: calls count stream
    | some (item, rest) => some item :: calls count rest

/-- The first items of the stream, `bound` at most. -/
def take : (bound : Nat) → TokenStream → List (Except LexError (Located Token))
  | 0, _ => []
  | bound + 1, stream =>
    match stream.next? with
    | none => []
    | some (item, rest) => item :: take bound rest

/-- All items of the stream. Each takes a character at least, so their number is bounded. -/
def items (stream : TokenStream) : List (Except LexError (Located Token)) :=
  stream.take stream.rest.length

end TokenStream

/-- The tokens of a source unit, or its first error. -/
def tokenize (source : String) (file : FileId) : Except LexError (List (Located Token)) :=
  (TokenStream.ofSource source file).items.mapM id

end FrontEnd
