import FrontEnd.Token.Symbols

/-! Operators by what they mean in an expression, and how tightly they bind. -/

namespace FrontEnd

inductive UnaryOp where
  | plus | minus | not
deriving DecidableEq

namespace UnaryOp

def all : List UnaryOp := [plus, minus, not]

def operator : UnaryOp → Operator
  | plus => .plus
  | minus => .minus
  | not => .bang

def symbol (op : UnaryOp) : String := op.operator.text

end UnaryOp

/-- Increments and decrements, written before or after their variable. -/
inductive StepOp where
  | preIncrement | preDecrement | postIncrement | postDecrement
deriving DecidableEq

namespace StepOp

def all : List StepOp := [preIncrement, preDecrement, postIncrement, postDecrement]

def operator : StepOp → Operator
  | preIncrement | postIncrement => .plusPlus
  | preDecrement | postDecrement => .minusMinus

def symbol (op : StepOp) : String := op.operator.text

/-- Whether the operator is written before its variable. -/
def isPre : StepOp → Bool
  | preIncrement | preDecrement => true
  | postIncrement | postDecrement => false

end StepOp

inductive BinaryOp where
  | multiply | divide | remainder | add | subtract
  /-- The three-way comparison. -/
  | compare
  | less | lessEqual | greater | greaterEqual | equal | notEqual
  | and | or | xor
deriving DecidableEq

namespace BinaryOp

def all : List BinaryOp :=
  [multiply, divide, remainder, add, subtract, compare, less, lessEqual, greater, greaterEqual,
    equal, notEqual, and, or, xor]

def operator : BinaryOp → Operator
  | multiply => .star
  | divide => .slash
  | remainder => .percent
  | add => .plus
  | subtract => .minus
  | compare => .spaceship
  | less => .less
  | lessEqual => .lessEqual
  | greater => .greater
  | greaterEqual => .greaterEqual
  | equal => .equal
  | notEqual => .notEqual
  | and => .andAnd
  | or => .orOr
  | xor => .caret

end BinaryOp

inductive AssignOp where
  | assign | add | subtract | multiply | divide | remainder
deriving DecidableEq

namespace AssignOp

def all : List AssignOp := [assign, add, subtract, multiply, divide, remainder]

def operator : AssignOp → Operator
  | assign => .assign
  | add => .plusAssign
  | subtract => .minusAssign
  | multiply => .starAssign
  | divide => .slashAssign
  | remainder => .percentAssign

end AssignOp

inductive Associativity where
  | left | right
deriving DecidableEq

/-- An operator that stands between two operands. -/
inductive Infix where
  | binary (op : BinaryOp)
  | assign (op : AssignOp)
deriving DecidableEq

namespace Infix

def all : List Infix := BinaryOp.all.map binary ++ AssignOp.all.map assign

def operator : Infix → Operator
  | binary op => op.operator
  | assign op => op.operator

def symbol (op : Infix) : String := op.operator.text

/-- The infix reading of an operator, which the steps and the negation do not have. -/
def ofOperator? : Operator → Option Infix
  | .star => some (binary .multiply)
  | .slash => some (binary .divide)
  | .percent => some (binary .remainder)
  | .plus => some (binary .add)
  | .minus => some (binary .subtract)
  | .spaceship => some (binary .compare)
  | .less => some (binary .less)
  | .lessEqual => some (binary .lessEqual)
  | .greater => some (binary .greater)
  | .greaterEqual => some (binary .greaterEqual)
  | .equal => some (binary .equal)
  | .notEqual => some (binary .notEqual)
  | .andAnd => some (binary .and)
  | .orOr => some (binary .or)
  | .caret => some (binary .xor)
  | .assign => some (assign .assign)
  | .plusAssign => some (assign .add)
  | .minusAssign => some (assign .subtract)
  | .starAssign => some (assign .multiply)
  | .slashAssign => some (assign .divide)
  | .percentAssign => some (assign .remainder)
  | .plusPlus | .minusMinus | .bang => none

/-- How loosely the operator binds: of two, the one with the lower number takes its operands
first. -/
def precedence : Infix → Nat
  | binary .multiply | binary .divide | binary .remainder => 0
  | binary .add | binary .subtract => 1
  | binary .compare => 2
  | binary .less | binary .lessEqual | binary .greater | binary .greaterEqual | binary .equal
  | binary .notEqual => 3
  | binary .and => 4
  | binary .or => 5
  | binary .xor => 6
  | assign _ => 7

/-- The greatest precedence. -/
def loosest : Nat := 7

def associativity : Infix → Associativity
  | binary _ => .left
  | assign _ => .right

@[simp] theorem ofOperator?_operator (op : Infix) : ofOperator? op.operator = some op := by
  rcases op with op | op <;> cases op <;> rfl

theorem precedence_le_loosest (op : Infix) : op.precedence ≤ loosest := by
  rcases op with op | op <;> cases op <;> decide

end Infix

end FrontEnd
