import FrontEnd.Grammar.Program
import FrontEnd.Token.Stream

/-! From source text to syntax tree. -/

namespace FrontEnd

/-- Why a source unit does not parse: its text has no tokens, or its tokens no tree. -/
inductive SourceError where
  | lex (error : LexError)
  | parse (error : ParseError)
deriving DecidableEq

namespace SourceError

def location : SourceError → Location
  | lex error => error.location
  | parse error => error.location

def message : SourceError → String
  | lex error => error.message
  | parse error => error.message

end SourceError

namespace Source

/-- Reads the tokens of a source unit with one of the parsers of token lists. -/
def read {α : Type} (parse : List (Located Token) → Except ParseError α) (source : String)
    (file : FileId) : Except SourceError α := do
  let tokens ← (tokenize source file).mapError .lex
  (parse tokens).mapError .parse

def parseProgram (source : String) : Except SourceError (List Node) :=
  read Grammar.parseProgram source ⟨0⟩

def parseExpression (source : String) : Except SourceError Expression :=
  read Grammar.parseExpression source ⟨0⟩

end Source

end FrontEnd
