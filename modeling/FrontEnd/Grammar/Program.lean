import FrontEnd.Grammar.Statement

/-! Whole programs, and the error to show when one does not parse. -/

namespace FrontEnd.Grammar

open FrontEnd.Parser

/-- The error of `p` at the cursor, if it fails there. -/
def failure? {α : Type} (p : Parser α) (cursor : Cursor) : Option ParseError :=
  match p cursor with
  | .ok _ _ => none
  | .error error _ => some error

/-- How the constructs that may start an item fail here, one after the other. -/
def failures (cursor : Cursor) : List ParseError :=
  [failure? variableDefinition cursor, failure? functionDefinition cursor,
    failure? expressionStatement cursor, failure? block cursor, failure? ifStatement cursor,
    failure? whileStatement cursor, failure? returnStatement cursor].filterMap id

/-- Ranks errors by offset, and at the same offset an illegal construct above the others. -/
def prominence (error : ParseError) : Nat :=
  2 * error.location.offset + if error.isIllegal then 1 else 0

/-- Why no item parses here: the failure that got furthest, the first of them on a tie. -/
def diagnosis (cursor : Cursor) : Option ParseError :=
  (failures cursor).maxOn? prominence

/-- Fails with the diagnosis at `stop` if a token is left. -/
def finish (stop : Cursor) : Parser Unit := fun cursor =>
  match endOfInput cursor with
  | .ok _ _ => .ok () cursor
  | .error trailing _ => .error ((diagnosis stop).getD trailing) cursor

/-- Items, and after them perhaps an expression without its semicolon. -/
def program : Parser (List Node) :=
  atomic do
    let items ← many item
    let stop ← get
    let last ← optional expression
    finish stop
    return items ++ (last.map Node.expression).toList

/-- Runs a parser at the start of `tokens`. -/
def run {α : Type} (p : Parser α) (tokens : List (Located Token)) : Except ParseError α :=
  match p (.ofTokens tokens) with
  | .ok value _ => .ok value
  | .error error _ => .error error

def parseProgram (tokens : List (Located Token)) : Except ParseError (List Node) :=
  run program tokens

/-- Reads tokens that are one expression and nothing else. -/
def parseExpression (tokens : List (Located Token)) : Except ParseError Expression :=
  run (expression.thenSkip endOfInput) tokens

end FrontEnd.Grammar
