import FrontEnd.Grammar.Chain
import FrontEnd.Parser.Repetition

/-! The rules of expressions. -/

namespace FrontEnd.Grammar

open FrontEnd.Parser

def boolean : Parser Expression :=
  (fun found => .boolean found.value) <$> token "boolean" fun
    | .keyword .trueWord => some true
    | .keyword .falseWord => some false
    | _ => none

def numeric : Parser Expression :=
  Located.value <$> token "number" fun
    | .numeric value unit => some (.numeric value unit)
    | _ => none

def textual : Parser Expression :=
  Located.value <$> token "text" fun
    | .textual value unit => some (.textual value unit)
    | _ => none

def variableRead : Parser Expression :=
  (fun name => .var name.value) <$> identifier

/-- What may stand in front of an operand. -/
inductive PrefixOp where
  | unary (op : UnaryOp)
  | step (op : StepOp)
deriving DecidableEq

def prefixOperator : Parser (Located PrefixOp) :=
  token "prefix operator" fun
    | .operator .plus => some (.unary .plus)
    | .operator .minus => some (.unary .minus)
    | .operator .bang => some (.unary .not)
    | .operator .plusPlus => some (.step .preIncrement)
    | .operator .minusMinus => some (.step .preDecrement)
    | _ => none

def postfixOperator : Parser (Located StepOp) :=
  token "postfix operator" fun
    | .operator .plusPlus => some .postIncrement
    | .operator .minusMinus => some .postDecrement
    | _ => none

def infixOperator : Parser (Located Infix) :=
  token "infix operator" fun
    | .operator symbol => Infix.ofOperator? symbol
    | _ => none

/-- A step applies to a variable and to nothing else. -/
def applyStep (op : Located StepOp) : Expression → Except ParseError Expression
  | .var target => .ok (.step op.value target)
  | _ => .error (.illegal ("'" ++ op.value.symbol ++ "' requires a variable operand") op.location)

def applyPrefix (op : Located PrefixOp) (operand : Expression) : Except ParseError Expression :=
  match op.value with
  | .unary unary => .ok (.unary unary operand)
  | .step step => applyStep ⟨step, op.location⟩ operand

/-- A leaf with the operators around it: the one behind it applies first, then those in front from
the nearest outwards. -/
def applyAround (prefixes : List (Located PrefixOp)) (leaf : Expression)
    (behind : Option (Located StepOp)) : Except ParseError Expression := do
  let operand ← match behind with
    | none => pure leaf
    | some op => applyStep op leaf
  prefixes.foldrM applyPrefix operand

/-! Each rule in terms of the rule for the expressions inside it. -/

namespace Layer

variable (inner : Parser Expression)

/-- An expression in parentheses; the parentheses leave no trace. -/
def parenthesized : Parser Expression :=
  ((delimiter .openParen).skipThen inner).thenSkip (delimiter .closeParen)

/-- An argument; `name = value` is a named one, although it also reads as an assignment. -/
def argument : Parser Argument :=
  let named := (fun (name, value) => .named name.value value) <$>
    (identifier.thenSkip (operator .assign)).pair inner
  named.orElse (.positional <$> inner)

def arguments : Parser (List Argument) :=
  ((delimiter .openParen).skipThen (separated (argument inner) (delimiter .comma))).thenSkip
    (delimiter .closeParen)

def call : Parser Expression :=
  (fun (function, arguments) => .call function.value arguments) <$>
    identifier.pair (arguments inner)

/-- The longest reading wins, so `f(x)` is a call and not the variable `f`. -/
def leaf : Parser Expression :=
  (anyOf [boolean, numeric, textual, call inner, variableRead, parenthesized inner]).label
    "expression"

/-- A leaf, any number of operators in front of it, and at most one behind it. -/
def operand : Parser Expression :=
  andThen (do return (← many prefixOperator, ← leaf inner, ← optional postfixOperator))
    fun (prefixes, leaf, behind) => applyAround prefixes leaf behind

/-- Operands with infix operators between them. -/
def chain : Parser (Expression × List Link) := do
  let first ← operand inner
  let links ← committed infixOperator fun op =>
    (fun operand => ⟨op.value, op.location, operand⟩) <$> operand inner
  return (first, links)

def expression : Parser Expression :=
  (chain inner).andThen fun (first, links) => resolve first links

end Layer

def expression : Parser Expression := fix Layer.expression

def parenthesized : Parser Expression := Layer.parenthesized expression

def argument : Parser Argument := Layer.argument expression

def arguments : Parser (List Argument) := Layer.arguments expression

def call : Parser Expression := Layer.call expression

def leaf : Parser Expression := Layer.leaf expression

def operand : Parser Expression := Layer.operand expression

end FrontEnd.Grammar
