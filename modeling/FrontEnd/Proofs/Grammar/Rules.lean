import FrontEnd.Grammar.Program
import FrontEnd.Proofs.Parser.Rewinding
import Mathlib.Data.List.Basic

/-! The rules of the grammar are built by the combinators, so that none of them takes only part of
what it reads. -/
namespace FrontEnd.Grammar

open FrontEnd.Parser

variable {inner : Parser Expression} {blk : Parser (List Node)} {nest : Parser Statement}

theorem built_boolean : Built boolean := .map _ (.token _ _)

theorem built_numeric : Built numeric := .map _ (.token _ _)

theorem built_textual : Built textual := .map _ (.token _ _)

theorem built_variableRead : Built variableRead := .map _ .identifier

theorem built_prefixOperator : Built prefixOperator := .token _ _

theorem built_postfixOperator : Built postfixOperator := .token _ _

theorem built_infixOperator : Built infixOperator := .token _ _

namespace Layer

theorem built_parenthesized (h : Built inner) : Built (parenthesized inner) :=
  .thenSkip (.skipThen (.delimiter _) h) (.delimiter _)

theorem built_argument (h : Built inner) : Built (argument inner) :=
  .orElse (.map _ (.pair (.thenSkip .identifier (.operator _)) h)) (.map _ h)

theorem built_arguments (h : Built inner) : Built (arguments inner) :=
  .thenSkip (.skipThen (.delimiter _) (.separated (built_argument h) (.delimiter _)))
    (.delimiter _)

theorem built_call (h : Built inner) : Built (call inner) :=
  .map _ (.pair .identifier (built_arguments h))

theorem built_leaf (h : Built inner) : Built (leaf inner) := by
  refine .label (.anyOf (List.forall_iff_forall_mem.mp ?_)) _
  exact ⟨built_boolean, built_numeric, built_textual, built_call h, built_variableRead,
    built_parenthesized h⟩

theorem built_operand (h : Built inner) : Built (operand inner) :=
  .andThen_closure ((Built.many built_prefixOperator).onlyAdvances.bind fun _ =>
    (built_leaf h).onlyAdvances.bind fun _ =>
      (Built.optional built_postfixOperator).onlyAdvances.bind fun _ => .pure _) _

theorem built_expression (h : Built inner) : Built (expression inner) :=
  .andThen_closure ((built_operand h).onlyAdvances.bind fun _ =>
    (OnlyAdvances.committed built_infixOperator.moves_restores.1 fun _ =>
      (Built.map _ (built_operand h)).onlyAdvances).bind fun _ => .pure _) _

end Layer

theorem built_expression : Built expression := .of_layer fun _ => Layer.built_expression

theorem built_condition : Built condition := Layer.built_parenthesized built_expression

theorem built_expressionStatement : Built expressionStatement :=
  .map _ (.thenSkip built_expression (.delimiter _))

theorem built_returnStatement : Built returnStatement :=
  .map _ (.thenSkip (.skipThen (.keyword _) (.optional built_expression)) (.delimiter _))

theorem built_variableDefinition : Built variableDefinition :=
  .map _ (.thenSkip (.pair (.skipThen (.keyword _) (.label .identifier _))
    (.optional (.skipThen (.operator _) built_expression))) (.delimiter _))

theorem built_modifier (word : Keyword) (meaning : Modifiers) : Built (modifier word meaning) :=
  .map _ (.optional (.keyword _))

theorem built_modifiers : Built modifiers := by
  refine .map _ (.allOf (List.forall_iff_forall_mem.mp ?_))
  exact ⟨built_modifier _ _, built_modifier _ _⟩

theorem built_parameters : Built parameters :=
  .thenSkip (.skipThen (.delimiter _) (.separated (.map _ .identifier) (.delimiter _)))
    (.delimiter _)

namespace Layer

theorem built_ifStatement (hb : Built blk) (hn : Built nest) : Built (ifStatement blk nest) := by
  have ho : Built (anyOf [nest, .block <$> blk]) := by
    refine .anyOf (List.forall_iff_forall_mem.mp ?_)
    exact ⟨hn, .map _ hb⟩
  exact .atomic ((Built.keyword _).onlyAdvances.bind fun _ =>
    built_condition.onlyAdvances.bind fun _ => hb.onlyAdvances.bind fun _ =>
      (Built.optional (.skipThen (.keyword _) ho)).onlyAdvances.bind fun _ => .pure _)

theorem built_fix_ifStatement (hb : Built blk) : Built (fix (ifStatement blk)) :=
  .of_layer fun _ => built_ifStatement hb

theorem built_whileStatement (hb : Built blk) : Built (whileStatement blk) :=
  .map _ (.pair (.skipThen (.keyword _) built_condition) hb)

theorem built_statement (hb : Built blk) : Built (statement blk) := by
  refine .anyOf (List.forall_iff_forall_mem.mp ?_)
  exact ⟨.map _ hb, built_fix_ifStatement hb, built_whileStatement hb, built_returnStatement,
    built_expressionStatement⟩

theorem built_functionDefinition (hb : Built blk) : Built (functionDefinition blk) := by
  have ho : Built (anyOf [some <$> blk, (fun _ => none) <$> delimiter .semicolon]) := by
    refine .anyOf (List.forall_iff_forall_mem.mp ?_)
    exact ⟨.map _ hb, .map _ (.delimiter _)⟩
  exact .atomic (built_modifiers.onlyAdvances.bind fun _ =>
    (Built.keyword _).onlyAdvances.bind fun _ =>
      (Built.label .identifier _).onlyAdvances.bind fun _ =>
        built_parameters.onlyAdvances.bind fun _ => ho.onlyAdvances.bind fun _ => .pure _)

theorem built_definition (hb : Built blk) : Built (definition blk) := by
  refine .anyOf (List.forall_iff_forall_mem.mp ?_)
  exact ⟨built_variableDefinition, built_functionDefinition hb⟩

theorem built_item (hb : Built blk) : Built (item blk) := by
  refine .anyOf (List.forall_iff_forall_mem.mp ?_)
  exact ⟨.map _ (built_definition hb), .map _ (built_statement hb)⟩

theorem built_braced (hb : Built blk) : Built (braced blk) :=
  .atomic ((Built.delimiter _).onlyAdvances.bind fun _ =>
    (Built.many (built_item hb)).onlyAdvances.bind fun _ =>
      (Built.delimiter _).onlyAdvances.bind fun _ => .pure _)

end Layer

theorem built_block : Built block := .of_layer fun _ => Layer.built_braced

theorem onlyAdvances_finish (stop : Cursor) : OnlyAdvances (finish stop) := by
  intro cursor
  simp only [finish]
  split <;> exact .refl cursor

theorem built_program : Built program :=
  .atomic ((Built.many (Layer.built_item built_block)).onlyAdvances.bind fun _ =>
    OnlyAdvances.get.bind fun _ => (Built.optional built_expression).onlyAdvances.bind fun _ =>
      (onlyAdvances_finish _).bind fun _ => .pure _)

/-- The rules of the grammar, each with the type of what it gives. -/
def rules : List ((α : Type) × Parser α) :=
  [⟨_, boolean⟩, ⟨_, numeric⟩, ⟨_, textual⟩, ⟨_, variableRead⟩, ⟨_, parenthesized⟩, ⟨_, argument⟩,
    ⟨_, arguments⟩, ⟨_, call⟩, ⟨_, leaf⟩, ⟨_, prefixOperator⟩, ⟨_, postfixOperator⟩,
    ⟨_, infixOperator⟩, ⟨_, operand⟩, ⟨_, expression⟩, ⟨_, condition⟩, ⟨_, expressionStatement⟩,
    ⟨_, returnStatement⟩, ⟨_, ifStatement⟩, ⟨_, whileStatement⟩, ⟨_, block⟩, ⟨_, statement⟩,
    ⟨_, variableDefinition⟩, ⟨_, modifiers⟩, ⟨_, parameters⟩, ⟨_, functionDefinition⟩,
    ⟨_, definition⟩, ⟨_, item⟩, ⟨_, program⟩, ⟨_, expression.thenSkip endOfInput⟩]

theorem built_rules : ∀ rule ∈ rules, Built rule.2 := by
  have he := built_expression
  have hb := built_block
  refine List.forall_iff_forall_mem.mp ?_
  exact ⟨built_boolean, built_numeric, built_textual, built_variableRead,
    Layer.built_parenthesized he, Layer.built_argument he, Layer.built_arguments he,
    Layer.built_call he, Layer.built_leaf he, built_prefixOperator, built_postfixOperator,
    built_infixOperator, Layer.built_operand he, he, built_condition, built_expressionStatement,
    built_returnStatement, Layer.built_fix_ifStatement hb, Layer.built_whileStatement hb, hb,
    Layer.built_statement hb, built_variableDefinition, built_modifiers, built_parameters,
    Layer.built_functionDefinition hb, Layer.built_definition hb, Layer.built_item hb,
    built_program, .thenSkip he .endOfInput⟩

/-- No parser that the combinators build takes only part of what it reads, and the rules of the
grammar are among them. -/
theorem no_partial_consumption :
    (∀ {α : Type} {p : Parser α}, Built p → Contract p) ∧
      ∀ rule ∈ rules, Built rule.2 ∧ Contract rule.2 :=
  ⟨Built.contract, fun rule hr => ⟨built_rules rule hr, (built_rules rule hr).contract⟩⟩

/-- Two signs where a sign and a name are wanted: the first is taken and given back. -/
theorem no_partial_consumption_of_two_signs :
    let start := Cursor.ofTokens [⟨.operator .plus, .origin⟩, ⟨.operator .plus, .origin⟩]
    operator .plus start = .ok .origin (start.moveTo 1) ∧
      ∃ error stop, (operator .plus).pair identifier start = .error error stop ∧ stop = start :=
  ⟨rfl, _, _, rfl,
    (no_partial_consumption.1 (.pair (.operator .plus) .identifier) _ (Nat.zero_le _)).1 _ _ rfl⟩

end FrontEnd.Grammar
