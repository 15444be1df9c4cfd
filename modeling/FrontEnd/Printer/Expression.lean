import FrontEnd.Printer.Literal
import FrontEnd.Syntax.Tree

/-! Expressions as source, with the parentheses that reading them back needs. -/

namespace FrontEnd.Printer

/-- The text, in parentheses if they are needed. -/
def parenthesized (needed : Bool) (text : String) : String :=
  if needed then "(" ++ text ++ ")" else text

/-- Whether an operand of `parent` needs parentheses: it binds looser, or equally tight while
`parent` associates `towards` the other operand. -/
def operandNeeds (parent : Infix) (operand : Expression) (towards : Associativity) : Bool :=
  match operand.root? with
  | none => false
  | some inner =>
    inner.precedence > parent.precedence ||
      (inner.precedence = parent.precedence && parent.associativity = towards)

/-- Whether the operand of a unary operator needs parentheses: two signs in a row would read as one
step operator. -/
def unaryNeeds : Expression → Bool
  | .unary _ _ | .binary _ _ _ | .assign _ _ _ => true
  | .step op _ => op.isPre
  | _ => false

/-- Whether a positional argument needs parentheses: an assignment would read as a named one. -/
def argumentNeeds : Expression → Bool
  | .assign _ _ _ => true
  | _ => false

def around (op : Infix) (left right : String) : String :=
  left ++ " " ++ op.symbol ++ " " ++ right

mutual

def expression : Expression → String
  | .boolean value => if value then "true" else "false"
  | .numeric value unit => value ++ unit.getD ""
  | .textual value unit => text value ++ unit.getD ""
  | .var target => name target
  | .call function arguments =>
    name function ++ "(" ++ ", ".intercalate (argumentTexts arguments) ++ ")"
  | .unary op operand => op.symbol ++ parenthesized (unaryNeeds operand) (expression operand)
  | .step op target => if op.isPre then op.symbol ++ name target else name target ++ op.symbol
  | .binary op left right =>
    around (.binary op) (parenthesized (operandNeeds (.binary op) left .right) (expression left))
      (parenthesized (operandNeeds (.binary op) right .left) (expression right))
  | .assign op target value =>
    around (.assign op) (name target)
      (parenthesized (operandNeeds (.assign op) value .left) (expression value))

def argument : Argument → String
  | .positional value => parenthesized (argumentNeeds value) (expression value)
  | .named parameter value => name parameter ++ " = " ++ expression value

def argumentTexts : List Argument → List String
  | [] => []
  | first :: rest => argument first :: argumentTexts rest

end

end FrontEnd.Printer
