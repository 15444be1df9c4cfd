import FrontEnd.Proofs.Grammar.Climbing

/-! The rules with an allowance, and the proof that one more than the tokens that remain is always
enough. Each rule reads a token before it comes to itself again, so what it hands on to the rule
inside it is one less; a loop takes one for each of its rounds. -/
namespace FrontEnd.Grammar

open FrontEnd.Parser

namespace Within

/-! Each rule in terms of the rules inside it. -/

namespace Layer

section Expressions

variable (inner : Metered Expression) (allowance : Nat)

def parenthesized : Metered Expression :=
  ((Metered.free (delimiter .openParen)).skipThen inner).thenSkip (.free (delimiter .closeParen))

def argument : Metered Argument :=
  let named : Metered Argument := (fun (name, value) => .named name.value value) <$>
    (Metered.free (identifier.thenSkip (operator .assign))).pair inner
  named.orElse (Argument.positional <$> inner)

def arguments : Metered (List Argument) :=
  ((Metered.free (delimiter .openParen)).skipThen
    ((argument inner).separated (.free (delimiter .comma)) allowance)).thenSkip
      (.free (delimiter .closeParen))

def call : Metered Expression :=
  (fun (function, arguments) => .call function.value arguments) <$>
    (Metered.free identifier).pair (arguments inner allowance)

def leaf : Metered Expression :=
  (Metered.anyOf [.free boolean, .free numeric, .free textual, call inner allowance,
    .free variableRead, parenthesized inner]).through (·.label "expression")

def operand : Metered Expression :=
  Metered.through (·.andThen fun (prefixes, leaf, behind) => applyAround prefixes leaf behind) do
    return (← (Metered.free prefixOperator).many allowance, ← leaf inner allowance,
      ← Metered.free (optional postfixOperator))

end Expressions

end Layer

def expression : (allowance : Nat) → Metered Expression
  | 0 => .spent
  | n + 1 =>
    -- an operand reads a parenthesis before it comes to an expression again
    let operand := Layer.operand (expression n) (n + 1)
    .atomic do climb operand (n + 1) (← operand) Infix.loosest

def argument (n : Nat) : Metered Argument := Layer.argument (expression n)

def arguments (n : Nat) : Metered (List Argument) := Layer.arguments (expression n) n

def call (n : Nat) : Metered Expression := Layer.call (expression n) n

def leaf (n : Nat) : Metered Expression := Layer.leaf (expression n) n

def operand (n : Nat) : Metered Expression := Layer.operand (expression n) n

def condition (n : Nat) : Metered Expression := Layer.parenthesized (expression n)

def expressionStatement (n : Nat) : Metered Statement :=
  Statement.expression <$> (expression n).thenSkip (.free (delimiter .semicolon))

def returnStatement (n : Nat) : Metered Statement :=
  Statement.ret <$> ((Metered.free (keyword .returnWord)).skipThen (expression n).optional).thenSkip
    (.free (delimiter .semicolon))

def variableDefinition (n : Nat) : Metered Definition :=
  (fun (name, initializer) => .var name.value initializer) <$>
    ((Metered.free ((keyword .varWord).skipThen (identifier.label "variable name"))).pair
      ((Metered.free (operator .assign)).skipThen (expression n)).optional).thenSkip
        (.free (delimiter .semicolon))

/-- The list of parameters without its parentheses. -/
def parameterNames (n : Nat) : Metered (List String) :=
  (Metered.free (Located.value <$> identifier)).separated (.free (delimiter .comma)) n

def parameters (n : Nat) : Metered (List String) :=
  ((Metered.free (delimiter .openParen)).skipThen (parameterNames n)).thenSkip
    (.free (delimiter .closeParen))

namespace Layer

variable (block : Metered (List Node)) (n : Nat)

def ifStatement (nested : Metered Statement) : Metered Statement :=
  .atomic do
    let _ ← Metered.free (keyword .ifWord)
    let condition ← condition n
    let items ← block
    let otherwise ← ((Metered.free (keyword .elseWord)).skipThen
      (.anyOf [nested, Statement.block <$> block])).optional
    return .ifElse condition items otherwise

def whileStatement : Metered Statement :=
  (fun (condition, body) => .whileLoop condition body) <$>
    ((Metered.free (keyword .whileWord)).skipThen (condition n)).pair block

def statement (ifStatement : Metered Statement) : Metered Statement :=
  .anyOf [Statement.block <$> block, ifStatement, whileStatement block n, returnStatement n,
    expressionStatement n]

def functionDefinition : Metered Definition :=
  .atomic do
    let modifiers ← Metered.free modifiers
    let _ ← Metered.free (keyword .fnWord)
    let name ← Metered.free (identifier.label "function name")
    let parameters ← parameters n
    let body ← Metered.anyOf [some <$> block, .free ((fun _ => none) <$> delimiter .semicolon)]
    return .function name.value modifiers parameters body

def definition : Metered Definition :=
  .anyOf [variableDefinition n, functionDefinition block n]

def item (ifStatement : Metered Statement) : Metered Node :=
  .anyOf [Node.definition <$> definition block n, Node.statement <$> statement block n ifStatement]

def braced (item : Metered Node) : Metered (List Node) :=
  .atomic do
    let _ ← Metered.free (delimiter .openBrace)
    let items ← item.many n
    let _ ← Metered.free (delimiter .closeBrace)
    return items

end Layer

mutual

def block : (allowance : Nat) → Metered (List Node)
  | 0 => .spent
  -- behind the brace one token less remains, for the loop and for all the items in it
  | n + 1 => Layer.braced n (Layer.item (block n) n (ifStatement n))

def ifStatement : (allowance : Nat) → Metered Statement
  | 0 => .spent
  | n + 1 => Layer.ifStatement (block n) n (ifStatement n)

end

def whileStatement (n : Nat) : Metered Statement := Layer.whileStatement (block n) n

def statement (n : Nat) : Metered Statement := Layer.statement (block n) n (ifStatement n)

def functionDefinition (n : Nat) : Metered Definition := Layer.functionDefinition (block n) n

def definition (n : Nat) : Metered Definition := Layer.definition (block n) n

def item (n : Nat) : Metered Node := Layer.item (block n) n (ifStatement n)

def failure? {α : Type} (m : Metered α) (cursor : Cursor) : Option (Option ParseError) :=
  (m cursor).map fun trial => Grammar.failure? (fun _ => trial) cursor

/-- Every construct that may start an item has to come to an outcome. -/
def failures (n : Nat) (cursor : Cursor) : Option (List ParseError) :=
  ([failure? (variableDefinition n) cursor, failure? (functionDefinition n) cursor,
    failure? (expressionStatement n) cursor, failure? (block n) cursor,
    failure? (ifStatement n) cursor, failure? (whileStatement n) cursor,
    failure? (returnStatement n) cursor].mapM id).map (·.filterMap id)

def finish (n : Nat) (stop : Cursor) : Metered Unit := fun cursor =>
  match endOfInput cursor with
  | .ok _ _ => some (.ok () cursor)
  | .error trailing _ =>
    (failures n stop).map fun errors => .error ((errors.maxOn? prominence).getD trailing) cursor

def program (n : Nat) : Metered (List Node) :=
  .atomic do
    let items ← (item n).many n
    let stop ← Metered.free get
    let last ← (expression n).optional
    finish n stop
    return items ++ (last.map Node.expression).toList

def run {α : Type} (m : Metered α) (tokens : List (Located Token)) : Option (Except ParseError α) :=
  (m (.ofTokens tokens)).map fun trial => Grammar.run (fun _ => trial) tokens

def parseProgram (n : Nat) (tokens : List (Located Token)) :
    Option (Except ParseError (List Node)) :=
  run (program n) tokens

def parseExpression (n : Nat) (tokens : List (Located Token)) :
    Option (Except ParseError Expression) :=
  run ((expression n).thenSkip (.free endOfInput)) tokens

end Within

variable {n allowance : Nat} {inner : Metered Expression} {blk : Metered (List Node)}
  {nest : Metered Statement}

/-! Expressions. -/

theorem follows_parenthesized (h : Follows n inner expression) :
    Follows (n + 1) (Within.Layer.parenthesized inner) parenthesized :=
  (Follows.skipThen (.free _ _) (advances_delimiter _) h).thenSkip
    ((advances_delimiter _).moves.skipThen moves_expression) (.free _ _) (advances_delimiter _).moves

theorem follows_argument (h : Follows n inner expression) :
    Follows n (Within.Layer.argument inner) argument :=
  (((Follows.free n _).pair (advances_identifier.moves.thenSkip (advances_operator _).moves)
    h moves_expression).map _).orElse (h.map _)

theorem moves_argument : Moves argument := Layer.moves_argument moves_expression

theorem follows_arguments (h : Follows n inner expression) (ha : n ≤ allowance) :
    Follows (n + 1) (Within.Layer.arguments inner allowance) arguments :=
  (Follows.skipThen (.free _ _) (advances_delimiter _)
    ((follows_argument h).separated moves_argument (.free n _) (advances_delimiter _) ha)).thenSkip
      ((advances_delimiter _).moves.skipThen
        (moves_argument.separated (advances_delimiter _).moves)) (.free _ _)
          (advances_delimiter _).moves

theorem follows_call (h : Follows n inner expression) (ha : n ≤ allowance) :
    Follows (n + 1) (Within.Layer.call inner allowance) call :=
  ((Follows.free _ _).pair advances_identifier.moves (follows_arguments h ha)
    (Layer.moves_arguments moves_expression)).map _

theorem follows_leaf (h : Follows n inner expression) (ha : n ≤ allowance) :
    Follows (n + 1) (Within.Layer.leaf inner allowance) leaf := by
  refine Follows.label (Follows.anyOf ?_) _
  exact .cons (.free _ _) (.cons (.free _ _) (.cons (.free _ _) (.cons (follows_call h ha)
    (.cons (.free _ _) (.cons (follows_parenthesized h) .nil)))))

theorem follows_operand (h : Follows n inner expression) (ha : n < allowance) :
    Follows (n + 1) (Within.Layer.operand inner allowance) operand := by
  have hp : Moves prefixOperator := (advances_token _ _).moves
  refine Follows.andThen ?_ _
  refine (Follows.many (.free _ _) hp ha).bind hp.many fun _ => ?_
  refine (follows_leaf h (Nat.le_of_lt ha)).bind (Layer.moves_leaf moves_expression) fun _ => ?_
  exact (Follows.free _ _).bind (advances_token _ _).moves.optional fun _ => .pure _ _

theorem follows_expression : ∀ n, Follows n (Within.expression n) expression
  | 0 => .zero _ _
  | n + 1 => Within.follows_climb (follows_operand (follows_expression n) (Nat.lt_succ_self n))

/-! Statements and definitions. -/

theorem follows_condition (n : Nat) : Follows (n + 1) (Within.condition n) condition :=
  follows_parenthesized (follows_expression n)

theorem follows_expressionStatement (n : Nat) :
    Follows n (Within.expressionStatement n) expressionStatement :=
  ((follows_expression n).thenSkip moves_expression (.free _ _) (advances_delimiter _).moves).map _

theorem follows_returnStatement (n : Nat) :
    Follows n (Within.returnStatement n) returnStatement := by
  have hk := Follows.skipThen (.free _ _) (advances_keyword .returnWord)
    (follows_expression n).optional
  exact ((hk.mono (Nat.le_succ n)).thenSkip
    ((advances_keyword _).moves.skipThen moves_expression.optional) (.free _ _)
      (advances_delimiter _).moves).map _

theorem follows_variableDefinition (n : Nat) :
    Follows n (Within.variableDefinition n) variableDefinition := by
  have hname : Moves ((keyword .varWord).skipThen (identifier.label "variable name")) :=
    (advances_keyword _).moves.skipThen (advances_identifier.moves.label _)
  have hvalue : Moves (optional ((operator .assign).skipThen expression)) :=
    ((advances_operator _).moves.skipThen moves_expression).optional
  have hv := Follows.skipThen (.free _ _) (advances_operator .assign) (follows_expression n)
  exact (((Follows.free n _).pair hname (hv.mono (Nat.le_succ n)).optional hvalue).thenSkip
    (hname.pair hvalue) (.free _ _) (advances_delimiter _).moves).map _

theorem follows_parameterNames (n : Nat) : Follows n (Within.parameterNames n)
    (separated (Located.value <$> identifier) (delimiter .comma)) :=
  Follows.separated (.free _ _) (advances_identifier.moves.map _) (.free _ _)
    (advances_delimiter _) (Nat.le_refl n)

theorem follows_parameters (n : Nat) : Follows (n + 1) (Within.parameters n) parameters :=
  (Follows.skipThen (.free _ _) (advances_delimiter _) (follows_parameterNames n)).thenSkip
    ((advances_delimiter _).moves.skipThen ((advances_identifier.moves.map _).separated
      (advances_delimiter _).moves)) (.free _ _) (advances_delimiter _).moves

theorem follows_ifStatement_layer (hb : Follows n blk block) (hn : Follows n nest ifStatement) :
    Follows (n + 1) (Within.Layer.ifStatement blk n nest)
      (Layer.ifStatement block ifStatement) := by
  have hmoves : Moves ifStatement := (Layer.guarded_ifStatement moves_block).moves_fix
  have hchoice : Follows n (.anyOf [nest, Statement.block <$> blk])
      (anyOf [ifStatement, .block <$> block]) := .anyOf (.cons hn (.cons (hb.map _) .nil))
  have helse := Follows.skipThen (.free _ _) (advances_keyword .elseWord) hchoice
  refine Follows.atomic (Follows.bind_of_advances (.free _ _) (advances_keyword _) fun _ => ?_)
  refine ((follows_condition n).mono (Nat.le_succ n)).bind moves_condition fun _ => ?_
  refine hb.bind moves_block fun _ => ?_
  exact (helse.mono (Nat.le_succ n)).optional.bind ((advances_keyword _).moves.skipThen
    (Layer.moves_otherwise moves_block hmoves)).optional fun _ => .pure _ _

theorem follows_whileStatement (hb : Follows n blk block) :
    Follows n (Within.Layer.whileStatement blk n) whileStatement := by
  have hw := Follows.skipThen (.free _ _) (advances_keyword .whileWord)
    ((follows_condition n).mono (Nat.le_succ n))
  exact ((hw.mono (Nat.le_succ n)).pair ((advances_keyword _).moves.skipThen moves_condition)
    hb moves_block).map _

theorem follows_statement (hb : Follows n blk block) (hn : Follows n nest ifStatement) :
    Follows n (Within.Layer.statement blk n nest) statement :=
  .anyOf (.cons (hb.map _) (.cons hn (.cons (follows_whileStatement hb)
    (.cons (follows_returnStatement n) (.cons (follows_expressionStatement n) .nil)))))

theorem follows_functionDefinition (hb : Follows n blk block) :
    Follows n (Within.Layer.functionDefinition blk n) functionDefinition := by
  have hbody : Follows n (.anyOf [some <$> blk, .free ((fun _ => none) <$> delimiter .semicolon)])
      (anyOf [some <$> block, (fun _ => none) <$> delimiter .semicolon]) :=
    .anyOf (.cons (hb.map _) (.cons (.free _ _) .nil))
  refine Follows.atomic ((Follows.free n _).bind moves_modifiers fun _ => ?_)
  refine (Follows.free n _).bind (advances_keyword _).moves fun _ => ?_
  refine (Follows.free n _).bind (advances_identifier.moves.label _) fun _ => ?_
  refine ((follows_parameters n).mono (Nat.le_succ n)).bind moves_parameters fun _ => ?_
  exact hbody.bind (Layer.moves_body moves_block) fun _ => .pure _ _

theorem follows_definition (hb : Follows n blk block) :
    Follows n (Within.Layer.definition blk n) definition :=
  .anyOf (.cons (follows_variableDefinition n) (.cons (follows_functionDefinition hb) .nil))

theorem follows_item (hb : Follows n blk block) (hn : Follows n nest ifStatement) :
    Follows n (Within.Layer.item blk n nest) item :=
  .anyOf (.cons ((follows_definition hb).map _) (.cons ((follows_statement hb hn).map _) .nil))

theorem follows_block_ifStatement (n : Nat) :
    Follows n (Within.block n) block ∧ Follows n (Within.ifStatement n) ifStatement := by
  induction n with
  | zero => exact ⟨.zero _ _, .zero _ _⟩
  | succ n ih =>
    obtain ⟨hb, hn⟩ := ih
    constructor
    · rw [block_eq]
      refine Follows.atomic (Follows.bind_of_advances (.free _ _) (advances_delimiter _) fun _ => ?_)
      refine ((follows_item hb hn).many advances_item.moves (Nat.le_refl n)).bind
        advances_item.moves.many fun _ => ?_
      exact (Follows.free n _).bind (advances_delimiter _).moves fun _ => .pure _ _
    · rw [ifStatement_eq]
      exact follows_ifStatement_layer hb hn

theorem follows_block (n : Nat) : Follows n (Within.block n) block :=
  (follows_block_ifStatement n).1

theorem follows_ifStatement (n : Nat) : Follows n (Within.ifStatement n) ifStatement :=
  (follows_block_ifStatement n).2

/-! Whole programs. -/

theorem failure?_of_follows {α : Type} {m : Metered α} {p : Parser α} {cursor : Cursor}
    (h : Follows n m p) (hc : cursor.remaining < n) :
    Within.failure? m cursor = some (failure? p cursor) := by
  rw [Within.failure?, h cursor hc, Option.map_some]
  rfl

theorem failures_of_remaining {cursor : Cursor} (hc : cursor.remaining < n) :
    Within.failures n cursor = some (failures cursor) := by
  have hfunction : Follows n (Within.functionDefinition n) functionDefinition :=
    follows_functionDefinition (follows_block n)
  have hwhile : Follows n (Within.whileStatement n) whileStatement :=
    follows_whileStatement (follows_block n)
  rw [Within.failures, failure?_of_follows (follows_variableDefinition n) hc,
    failure?_of_follows hfunction hc, failure?_of_follows (follows_expressionStatement n) hc,
    failure?_of_follows (follows_block n) hc, failure?_of_follows (follows_ifStatement n) hc,
    failure?_of_follows hwhile hc, failure?_of_follows (follows_returnStatement n) hc]
  rfl

theorem finish_of_remaining {stop : Cursor} (hs : stop.remaining < n) (cursor : Cursor) :
    Within.finish n stop cursor = some (finish stop cursor) := by
  rw [Within.finish, finish, failures_of_remaining hs]
  cases endOfInput cursor <;> rfl

theorem follows_items (n : Nat) : Follows n ((Within.item n).many n) (many item) :=
  (follows_item (follows_block n) (follows_ifStatement n)).many advances_item.moves (Nat.le_refl n)

theorem follows_program (n : Nat) : Follows n (Within.program n) program := by
  refine Follows.atomic fun start hs => ?_
  refine Follows.bind_at (follows_items n start hs) fun items stop hitems => ?_
  have hle := advances_item.moves.many.remaining_le hitems
  refine Follows.bind_at rfl fun stop' _ hget => ?_
  obtain ⟨rfl, rfl⟩ := get_ok_iff.mp hget
  refine Follows.bind_at ((follows_expression n).optional _ (by omega)) fun last cursor _ => ?_
  exact Follows.bind_at (finish_of_remaining (by omega) cursor) fun _ _ _ => rfl

theorem run_of_follows {α : Type} {m : Metered α} {p : Parser α} {tokens : List (Located Token)}
    (h : Follows n m p) (hn : tokens.length < n) : Within.run m tokens = some (run p tokens) := by
  have hr : (Cursor.ofTokens tokens).remaining = tokens.length := by
    simp [Cursor.remaining, Cursor.ofTokens]
  rw [Within.run, h _ (hr ▸ hn), Option.map_some]
  rfl

theorem parseProgram_of_length {tokens : List (Located Token)} (hn : tokens.length < n) :
    Within.parseProgram n tokens = some (parseProgram tokens) :=
  run_of_follows (follows_program n) hn

theorem parseExpression_of_length {tokens : List (Located Token)} (hn : tokens.length < n) :
    Within.parseExpression n tokens = some (parseExpression tokens) :=
  run_of_follows ((follows_expression n).thenSkip moves_expression (.free _ _) moves_endOfInput) hn

end FrontEnd.Grammar
