import FrontEnd.Grammar.Statement
import FrontEnd.Printer.Program

/-! The tokens that the printed form of a tree is made of. -/
namespace FrontEnd

/-- The tokens, in parentheses if they are needed. -/
def Printer.grouped (needed : Bool) (ts : List Token) : List Token :=
  if needed then .delimiter .openParen :: (ts ++ [.delimiter .closeParen]) else ts

/-- The parts of a list, with a comma between each two. -/
def Printer.listed : List (List Token) → List Token
  | [] => []
  | [ts] => ts
  | ts :: us :: rest => ts ++ .delimiter .comma :: Printer.listed (us :: rest)

def Printer.bracedTokens (ts : List Token) : List Token :=
  .delimiter .openBrace :: (ts ++ [.delimiter .closeBrace])

mutual

def Expression.tokens : Expression → List Token
  | .boolean value => [.keyword (if value then .trueWord else .falseWord)]
  | .numeric value unit => [.numeric value unit]
  | .textual value unit => [.textual value unit]
  | .var name => [.identifier name]
  | .call function arguments =>
    .identifier function :: .delimiter .openParen ::
      (Printer.listed (Argument.listTokens arguments) ++ [.delimiter .closeParen])
  | .unary op operand =>
    .operator op.operator :: Printer.grouped (Printer.unaryNeeds operand) operand.tokens
  | .step op target =>
    if op.isPre then [.operator op.operator, .identifier target]
    else [.identifier target, .operator op.operator]
  | .binary op left right =>
    Printer.grouped (Printer.operandNeeds (.binary op) left .right) left.tokens ++
      .operator op.operator ::
        Printer.grouped (Printer.operandNeeds (.binary op) right .left) right.tokens
  | .assign op target value =>
    .identifier target :: .operator op.operator ::
      Printer.grouped (Printer.operandNeeds (.assign op) value .left) value.tokens

def Argument.tokens : Argument → List Token
  | .positional value => Printer.grouped (Printer.argumentNeeds value) value.tokens
  | .named name value => .identifier name :: .operator .assign :: value.tokens

def Argument.listTokens : List Argument → List (List Token)
  | [] => []
  | first :: rest => first.tokens :: Argument.listTokens rest

end

def Modifiers.tokens (modifiers : Modifiers) : List Token :=
  (if modifiers.exported then [.keyword .exportWord] else []) ++
    if modifiers.inlined then [.keyword .inlineWord] else []

def Printer.parameterTokens (names : List String) : List Token :=
  Printer.listed (names.map fun name => [.identifier name])

/-- What an `if` or a `while` tests. -/
def Printer.conditionTokens (condition : Expression) : List Token :=
  .delimiter .openParen :: (condition.tokens ++ [.delimiter .closeParen])

mutual

def Node.tokens : Node → List Token
  | .expression value => value.tokens
  | .statement value => value.tokens
  | .definition value => value.tokens

def Node.listTokens : List Node → List Token
  | [] => []
  | node :: rest => node.tokens ++ Node.listTokens rest

def Statement.tokens : Statement → List Token
  | .expression value => value.tokens ++ [.delimiter .semicolon]
  | .block items => Printer.bracedTokens (Node.listTokens items)
  | .ifElse condition items none =>
    .keyword .ifWord :: (Printer.conditionTokens condition ++
      Printer.bracedTokens (Node.listTokens items))
  | .ifElse condition items (some otherwise) =>
    .keyword .ifWord :: (Printer.conditionTokens condition ++
      (Printer.bracedTokens (Node.listTokens items) ++ .keyword .elseWord :: otherwise.tokens))
  | .whileLoop condition body =>
    .keyword .whileWord :: (Printer.conditionTokens condition ++
      Printer.bracedTokens (Node.listTokens body))
  | .ret none => [.keyword .returnWord, .delimiter .semicolon]
  | .ret (some value) => .keyword .returnWord :: (value.tokens ++ [.delimiter .semicolon])

def Definition.tokens : Definition → List Token
  | .var name none => [.keyword .varWord, .identifier name, .delimiter .semicolon]
  | .var name (some value) =>
    .keyword .varWord :: .identifier name :: .operator .assign ::
      (value.tokens ++ [.delimiter .semicolon])
  | .function name modifiers parameters none =>
    modifiers.tokens ++ .keyword .fnWord :: .identifier name :: .delimiter .openParen ::
      (Printer.parameterTokens parameters ++ .delimiter .closeParen :: [.delimiter .semicolon])
  | .function name modifiers parameters (some body) =>
    modifiers.tokens ++ .keyword .fnWord :: .identifier name :: .delimiter .openParen ::
      (Printer.parameterTokens parameters ++ .delimiter .closeParen ::
        Printer.bracedTokens (Node.listTokens body))

end

theorem Node.listTokens_append (ns ms : List Node) :
    Node.listTokens (ns ++ ms) = Node.listTokens ns ++ Node.listTokens ms := by
  induction ns with
  | nil => rfl
  | cons n ns ih => simp [Node.listTokens, ih]

end FrontEnd
