import FrontEnd.Syntax.Operators

/-! The syntax tree of a program. Steps and assignments name their target, so that only a variable
can be one. -/

namespace FrontEnd

mutual

inductive Expression where
  | boolean (value : Bool)
  | numeric (value : String) (unit : Option String)
  | textual (value : String) (unit : Option String)
  | var (name : String)
  | call (function : String) (arguments : List Argument)
  | unary (op : UnaryOp) (operand : Expression)
  | step (op : StepOp) (target : String)
  | binary (op : BinaryOp) (left right : Expression)
  | assign (op : AssignOp) (target : String) (value : Expression)

/-- An argument of a call, with or without the name of its parameter. -/
inductive Argument where
  | positional (value : Expression)
  | named (name : String) (value : Expression)

end

/-- The infix operator at the root of the expression. -/
def Expression.root? : Expression → Option Infix
  | .binary op _ _ => some (.binary op)
  | .assign op _ _ => some (.assign op)
  | _ => none

/-- What may be said of a function ahead of its definition. -/
structure Modifiers where
  exported : Bool
  inlined : Bool
deriving DecidableEq

mutual

/-- One item of a program or a block. -/
inductive Node where
  | expression (value : Expression)
  | statement (value : Statement)
  | definition (value : Definition)

inductive Statement where
  | expression (value : Expression)
  | block (items : List Node)
  | ifElse (condition : Expression) (items : List Node) (otherwise : Option Statement)
  | whileLoop (condition : Expression) (body : List Node)
  | ret (value : Option Expression)

inductive Definition where
  | var (name : String) (initializer : Option Expression)
  | function (name : String) (modifiers : Modifiers) (parameters : List String)
      (body : Option (List Node))

end

namespace Definition

def name : Definition → String
  | .var name _ => name
  | .function name _ _ _ => name

/-- Whether this declares a name without saying what it stands for. -/
def isForward : Definition → Bool
  | .var _ initializer => initializer.isNone
  | .function _ _ _ body => body.isNone

end Definition

end FrontEnd
