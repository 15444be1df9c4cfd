import FrontEnd.Parser.Error

/-! A place in a sequence of tokens. -/

namespace FrontEnd

/-- The tokens and the number of those already read. -/
structure Cursor where
  tokens : Array (Located Token)
  index : Nat

namespace Cursor

def ofTokens (tokens : List (Located Token)) : Cursor :=
  ⟨tokens.toArray, 0⟩

def peek? (cursor : Cursor) : Option (Located Token) :=
  cursor.tokens[cursor.index]?

/-- The next token and the cursor after it. -/
def next? (cursor : Cursor) : Option (Located Token × Cursor) :=
  cursor.peek?.map fun token => (token, { cursor with index := cursor.index + 1 })

def hasNext (cursor : Cursor) : Bool :=
  cursor.index < cursor.tokens.size

/-- How many tokens are still to be read. -/
def remaining (cursor : Cursor) : Nat :=
  cursor.tokens.size - cursor.index

/-- The cursor at a place noted before. -/
def moveTo (cursor : Cursor) (index : Nat) : Cursor :=
  { cursor with index }

/-- How many tokens were read since `index`; none if the cursor has gone back past it. -/
def readSince (cursor : Cursor) (index : Nat) : Nat :=
  cursor.index - index

/-- Where a failure at the cursor is reported: at the next token, or just past the last one when
there is no next. -/
def location (cursor : Cursor) : Location :=
  match cursor.peek?, cursor.tokens.back? with
  | some token, _ => token.location
  | none, some last => last.location.after
  | none, none => .origin

/-- The failure of something that wanted `expected` at the cursor. -/
def expecting (cursor : Cursor) (expected : String) : ParseError :=
  match cursor.peek? with
  | some token => .unexpected expected token
  | none => .endOfStream expected cursor.location

end Cursor

end FrontEnd
