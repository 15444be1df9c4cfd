import FrontEnd.Grammar.Expression

/-! The rules of statements and definitions. -/

namespace FrontEnd

namespace Modifiers

/-- No modifier at all. -/
def plain : Modifiers := ⟨false, false⟩

/-- The modifiers of both. -/
def union (a b : Modifiers) : Modifiers :=
  ⟨a.exported || b.exported, a.inlined || b.inlined⟩

end Modifiers

namespace Grammar

open FrontEnd.Parser

/-- What an `if` or a `while` tests. -/
def condition : Parser Expression := parenthesized

def expressionStatement : Parser Statement :=
  .expression <$> expression.thenSkip (delimiter .semicolon)

def returnStatement : Parser Statement :=
  .ret <$> ((keyword .returnWord).skipThen (optional expression)).thenSkip (delimiter .semicolon)

def variableDefinition : Parser Definition :=
  (fun (name, initializer) => .var name.value initializer) <$>
    (((keyword .varWord).skipThen (identifier.label "variable name")).pair
      (optional ((operator .assign).skipThen expression))).thenSkip (delimiter .semicolon)

/-- The modifier that `word` stands for, if `word` is there. -/
def modifier (word : Keyword) (meaning : Modifiers) : Parser Modifiers :=
  (fun found => if found.isSome then meaning else .plain) <$> optional (keyword word)

/-- Each modifier at most once, in any order. -/
def modifiers : Parser Modifiers :=
  (·.foldl Modifiers.union .plain) <$>
    allOf [modifier .exportWord ⟨true, false⟩, modifier .inlineWord ⟨false, true⟩]

def parameters : Parser (List String) :=
  ((delimiter .openParen).skipThen
    (separated (Located.value <$> identifier) (delimiter .comma))).thenSkip (delimiter .closeParen)

/-! Each rule in terms of the rule for the blocks inside it. -/

namespace Layer

variable (block : Parser (List Node))

/-- The rule for `if`, where `nested` is the rule for the `if` that may follow an `else`. -/
def ifStatement (nested : Parser Statement) : Parser Statement :=
  atomic do
    let _ ← keyword .ifWord
    let condition ← condition
    let items ← block
    let otherwise ← optional ((keyword .elseWord).skipThen (anyOf [nested, .block <$> block]))
    return .ifElse condition items otherwise

def whileStatement : Parser Statement :=
  (fun (condition, body) => .whileLoop condition body) <$>
    ((keyword .whileWord).skipThen condition).pair block

def statement : Parser Statement :=
  anyOf [.block <$> block, fix (ifStatement block), whileStatement block, returnStatement,
    expressionStatement]

/-- A function has a block for a body, or only a semicolon when it is declared ahead. -/
def functionDefinition : Parser Definition :=
  atomic do
    let modifiers ← modifiers
    let _ ← keyword .fnWord
    let name ← identifier.label "function name"
    let parameters ← parameters
    let body ← anyOf [some <$> block, (fun _ => none) <$> delimiter .semicolon]
    return .function name.value modifiers parameters body

def definition : Parser Definition :=
  anyOf [variableDefinition, functionDefinition block]

def item : Parser Node :=
  anyOf [.definition <$> definition block, .statement <$> statement block]

def braced : Parser (List Node) :=
  atomic do
    let _ ← delimiter .openBrace
    let items ← many (item block)
    let _ ← delimiter .closeBrace
    return items

end Layer

def block : Parser (List Node) := fix Layer.braced

def ifStatement : Parser Statement := fix (Layer.ifStatement block)

def whileStatement : Parser Statement := Layer.whileStatement block

def statement : Parser Statement := Layer.statement block

def functionDefinition : Parser Definition := Layer.functionDefinition block

def definition : Parser Definition := Layer.definition block

def item : Parser Node := Layer.item block

end Grammar

end FrontEnd
