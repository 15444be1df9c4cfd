import FrontEnd.Outline
import FrontEnd.Syntax.Tree

/-! Outlines of syntax trees. -/

namespace FrontEnd

def UnaryOp.label : UnaryOp → String
  | plus => "Plus"
  | minus => "Minus"
  | not => "Not"

def StepOp.label : StepOp → String
  | preIncrement => "PreIncrement"
  | preDecrement => "PreDecrement"
  | postIncrement => "PostIncrement"
  | postDecrement => "PostDecrement"

def BinaryOp.label : BinaryOp → String
  | multiply => "Multiply"
  | divide => "Divide"
  | remainder => "Remainder"
  | add => "Add"
  | subtract => "Subtract"
  | compare => "Compare"
  | less => "Less"
  | lessEqual => "LessEqual"
  | greater => "Greater"
  | greaterEqual => "GreaterEqual"
  | equal => "Equal"
  | notEqual => "NotEqual"
  | and => "And"
  | or => "Or"
  | xor => "Xor"

def AssignOp.label : AssignOp → String
  | assign => "Assign"
  | add => "Add"
  | subtract => "Subtract"
  | multiply => "Multiply"
  | divide => "Divide"
  | remainder => "Remainder"

namespace Outline

def literal (name value : String) (unit : Option String) : Outline :=
  record name [("value", text value), ("unit", option (unit.map text))]

mutual

def ofExpression : Expression → Outline
  | .boolean value => wrap "Boolean" (flag value)
  | .numeric value unit => literal "Numeric" value unit
  | .textual value unit => literal "Textual" value unit
  | .var name => wrap "Variable" (text name)
  | .call function arguments =>
    record "Call" [("function", text function), ("arguments", list (ofArguments arguments))]
  | .unary op operand =>
    record "Unary" [("op", atom op.label), ("operand", ofExpression operand)]
  | .step op target => record "Step" [("op", atom op.label), ("target", text target)]
  | .binary op left right =>
    record "Binary" [("op", atom op.label), ("left", ofExpression left),
      ("right", ofExpression right)]
  | .assign op target value =>
    record "Assign" [("op", atom op.label), ("target", text target),
      ("value", ofExpression value)]

def ofArgument : Argument → Outline
  | .positional value => wrap "Positional" (ofExpression value)
  | .named name value => record "Named" [("name", text name), ("value", ofExpression value)]

def ofArguments : List Argument → List Outline
  | [] => []
  | first :: rest => ofArgument first :: ofArguments rest

end

def ofModifiers (modifiers : Modifiers) : Outline :=
  record "Modifiers" [("export", flag modifiers.exported), ("inline", flag modifiers.inlined)]

mutual

def ofNode : Node → Outline
  | .expression value => wrap "Expression" (ofExpression value)
  | .statement value => wrap "Statement" (ofStatement value)
  | .definition value => wrap "Definition" (ofDefinition value)

def ofNodes : List Node → List Outline
  | [] => []
  | first :: rest => ofNode first :: ofNodes rest

def ofStatement : Statement → Outline
  | .expression value => wrap "Expression" (ofExpression value)
  | .block items => wrap "Block" (list (ofNodes items))
  | .ifElse condition items none =>
    record "If" [("condition", ofExpression condition), ("then_branch", list (ofNodes items)),
      ("else_branch", option none)]
  | .ifElse condition items (some otherwise) =>
    record "If" [("condition", ofExpression condition), ("then_branch", list (ofNodes items)),
      ("else_branch", option (some (ofStatement otherwise)))]
  | .whileLoop condition body =>
    record "While" [("condition", ofExpression condition), ("body", list (ofNodes body))]
  | .ret value => wrap "Return" (option (value.map ofExpression))

def ofDefinition : Definition → Outline
  | .var name initializer =>
    record "Variable" [("name", text name), ("initializer", option (initializer.map ofExpression))]
  | .function name modifiers parameters none =>
    record "Function" [("name", text name), ("modifiers", ofModifiers modifiers),
      ("parameters", list (parameters.map text)), ("body", option none)]
  | .function name modifiers parameters (some body) =>
    record "Function" [("name", text name), ("modifiers", ofModifiers modifiers),
      ("parameters", list (parameters.map text)), ("body", option (some (list (ofNodes body))))]

end

def ofProgram (items : List Node) : Outline :=
  list (ofNodes items)

end Outline

end FrontEnd
