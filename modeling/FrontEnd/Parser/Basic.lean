import FrontEnd.Parser.Cursor

/-! Parsers that move a cursor: sequence, fallback and single tokens.

A parser that succeeds leaves the cursor after what it read. One that fails leaves it where it was;
`atomic` sees to that for a parser made of several steps. -/

namespace FrontEnd

/-- Reads tokens at a cursor and gives a value, or an error. -/
abbrev Parser := EStateM ParseError Cursor

namespace Parser

variable {α β : Type}

/-- Runs `p`, and puts the cursor back if it fails. -/
def atomic (p : Parser α) : Parser α := fun start =>
  match p start with
  | .ok value cursor => .ok value cursor
  | .error error _ => .error error start

/-- Passes the value through a step that may refuse it. -/
def andThen (p : Parser α) (step : α → Except ParseError β) : Parser β :=
  atomic do
    match step (← p) with
    | .ok value => return value
    | .error error => throw error

/-- Runs `p` and then `q`, both or neither. -/
def pair (p : Parser α) (q : Parser β) : Parser (α × β) :=
  atomic do return (← p, ← q)

/-- Runs `p` and then `q`, for the value of `p`. -/
def thenSkip (p : Parser α) (q : Parser β) : Parser α :=
  atomic do
    let value ← p
    let _ ← q
    return value

/-- Runs `p` and then `q`, for the value of `q`. -/
def skipThen (p : Parser α) (q : Parser β) : Parser β :=
  atomic do
    let _ ← p
    q

/-- Runs `q` where `p` fails. -/
def orElse (p q : Parser α) : Parser α := fun start =>
  match p start with
  | .ok value cursor => .ok value cursor
  | .error _ _ => q start

/-- Runs `p` if it matches; never fails. -/
def optional (p : Parser α) : Parser (Option α) :=
  orElse (some <$> p) (pure none)

/-- Names `name` as what was expected where `p` fails on a token. -/
def label (p : Parser α) (name : String) : Parser α := fun start =>
  match p start with
  | .ok value cursor => .ok value cursor
  | .error error cursor => .error (error.expecting name) cursor

/-- All parsers one after the other, or none. -/
def sequence (parsers : List (Parser α)) : Parser (List α) :=
  atomic (parsers.mapM id)

/-- Reads one token if `select` takes it. -/
def token (expected : String) (select : Token → Option α) : Parser (Located α) := fun start =>
  match start.next? with
  | some (found, cursor) =>
    match select found.value with
    | some value => .ok ⟨value, found.location⟩ cursor
    | none => .error (start.expecting expected) start
  | none => .error (start.expecting expected) start

/-- Reads the one token given, for its location. -/
def exactly (expected : Token) : Parser Location :=
  Located.location <$> token expected.describe fun found =>
    if found = expected then some () else none

def keyword (word : Keyword) : Parser Location :=
  exactly (.keyword word)

def operator (symbol : Operator) : Parser Location :=
  exactly (.operator symbol)

def delimiter (symbol : Delimiter) : Parser Location :=
  exactly (.delimiter symbol)

def identifier : Parser (Located String) :=
  token "identifier" fun
    | .identifier name => some name
    | _ => none

/-- Succeeds where no token is left. -/
def endOfInput : Parser Unit := fun cursor =>
  match cursor.peek? with
  | none => .ok () cursor
  | some found => .error (.trailing found) cursor

end Parser

end FrontEnd
