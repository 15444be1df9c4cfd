import FrontEnd.Token

/-! Why a run of tokens does not parse. -/

namespace FrontEnd

inductive ParseErrorKind where
  /-- A token of the wrong kind. -/
  | unexpectedToken (expected found : String)
  /-- The tokens ended where one was still needed. -/
  | endOfStream (expected : String)
  /-- The operands parsed, but the operator does not allow their shape. -/
  | illegalConstruct (construct : String)
  /-- All that was asked for parsed, and tokens remain. -/
  | trailingInput (found : String)
deriving DecidableEq

def ParseErrorKind.message : ParseErrorKind → String
  | unexpectedToken expected found => "expected " ++ expected ++ ", got " ++ found
  | endOfStream expected => "expected " ++ expected ++ ", reached end of input"
  | illegalConstruct construct => "not a legal operator here: " ++ construct
  | trailingInput found => "unexpected " ++ found ++ " after end of program"

structure ParseError where
  kind : ParseErrorKind
  location : Location
deriving DecidableEq

namespace ParseError

def message (error : ParseError) : String :=
  error.kind.message ++ " at " ++ error.location.describe

def unexpected (expected : String) (found : Located Token) : ParseError :=
  ⟨.unexpectedToken expected found.value.describe, found.location⟩

def endOfStream (expected : String) (location : Location) : ParseError :=
  ⟨.endOfStream expected, location⟩

def illegal (construct : String) (location : Location) : ParseError :=
  ⟨.illegalConstruct construct, location⟩

def trailing (found : Located Token) : ParseError :=
  ⟨.trailingInput found.value.describe, found.location⟩

/-- Whether the failure is about the shape of operands and not about the kind of a token. -/
def isIllegal (error : ParseError) : Bool :=
  match error.kind with
  | .illegalConstruct _ => true
  | _ => false

/-- The failure with `name` as the thing expected, if it expected anything. -/
def expecting (name : String) (error : ParseError) : ParseError :=
  match error.kind with
  | .unexpectedToken _ found => { error with kind := .unexpectedToken name found }
  | .endOfStream _ => { error with kind := .endOfStream name }
  | _ => error

end ParseError

end FrontEnd
