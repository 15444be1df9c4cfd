import FrontEnd.Proofs.Grammar.StatementCompleteness
import FrontEnd.Proofs.Grammar.Targets

/-! Which tokens are an expression, whatever tree they are read as. The language says nothing about
how tightly operators bind: it only asks for a variable where a step or an assignment needs one. -/
namespace FrontEnd.Grammar

variable {ts us : List Token} {e x : Expression}

/-- A name, in any number of parentheses. -/
inductive IsVariable : List Token → Prop
  | name (name : String) : IsVariable [.identifier name]
  | group {ts : List Token} (h : IsVariable ts) :
      IsVariable (.delimiter .openParen :: (ts ++ [.delimiter .closeParen]))

mutual

/-- Operands with infix operators between them. -/
inductive IsExpression : List Token → Prop
  | chain {ts us : List Token} (ho : IsOperand ts) (ht : IsTail ts us) : IsExpression (ts ++ us)

/-- What may stand behind the operand `previous`. An assignment wants a variable there. -/
inductive IsTail : (previous : List Token) → List Token → Prop
  | nil {previous : List Token} : IsTail previous []
  | cons {previous ts us : List Token} (op : Infix)
      (hp : ∀ a, op = .assign a → IsVariable previous) (ho : IsOperand ts)
      (ht : IsTail ts us) : IsTail previous (.operator op.operator :: (ts ++ us))

inductive IsOperand : List Token → Prop
  | unary {ts : List Token} (op : UnaryOp) (ho : IsOperand ts) :
      IsOperand (.operator op.operator :: ts)
  | before {ts : List Token} (op : StepOp) (hv : IsVariable ts) :
      IsOperand (.operator op.operator :: ts)
  | behind {ts : List Token} (op : StepOp) (hv : IsVariable ts) :
      IsOperand (ts ++ [.operator op.operator])
  | leaf {ts : List Token} (hl : IsLeaf ts) : IsOperand ts

inductive IsLeaf : List Token → Prop
  | trueWord : IsLeaf [.keyword .trueWord]
  | falseWord : IsLeaf [.keyword .falseWord]
  | numeric (value : String) (unit : Option String) : IsLeaf [.numeric value unit]
  | textual (value : String) (unit : Option String) : IsLeaf [.textual value unit]
  | var {ts : List Token} (hv : IsVariable ts) : IsLeaf ts
  | call {ts : List Token} (function : String) (ha : IsArguments ts) :
      IsLeaf (.identifier function :: .delimiter .openParen :: (ts ++ [.delimiter .closeParen]))
  | group {ts : List Token} (he : IsExpression ts) :
      IsLeaf (.delimiter .openParen :: (ts ++ [.delimiter .closeParen]))

/-- Arguments with commas between them; the last may have one behind it. -/
inductive IsArguments : List Token → Prop
  | nil : IsArguments []
  | single {ts : List Token} (ha : IsArgument ts) : IsArguments ts
  | cons {ts us : List Token} (ha : IsArgument ts) (has : IsArguments us) :
      IsArguments (ts ++ .delimiter .comma :: us)

inductive IsArgument : List Token → Prop
  | named {ts : List Token} (name : String) (he : IsExpression ts) :
      IsArgument (.identifier name :: .operator .assign :: ts)
  | positional {ts : List Token} (he : IsExpression ts) : IsArgument ts

end

/-! What has a tree is in the language. -/

mutual

/-- Only a name in parentheses is read as a variable. -/
theorem ExpressionOf.isVariable {ts : List Token} {e : Expression} :
    ExpressionOf ts e → ∀ name, e = .var name → IsVariable ts
  | .chain hf hl he, name, h => by
    obtain ⟨hx, rfl⟩ := eq_of_resolve_var (he.trans (congrArg Except.ok h))
    cases hl
    rw [List.append_nil]
    exact hf.isVariable name hx

theorem OperandOf.isVariable {ts : List Token} {e : Expression} :
    OperandOf ts e → ∀ name, e = .var name → IsVariable ts
  | .leaf hx, name, h => hx.isVariable name h

theorem LeafOf.isVariable {ts : List Token} {e : Expression} :
    LeafOf ts e → ∀ name, e = .var name → IsVariable ts
  | .var name, _, _ => .name name
  | .group he, name, h => .group (he.isVariable name h)

end

mutual

theorem ExpressionOf.isExpression {ts : List Token} {e : Expression} :
    ExpressionOf ts e → IsExpression ts
  | .chain hf hl he => by
    have ht := exists_resolve_iff.mp ⟨_, he⟩
    exact .chain hf.isOperand (hl.isTail ht fun name h => hf.isVariable name h)

theorem LinksOf.isTail {us previous : List Token} {links : List Link} {x : Expression} :
    LinksOf us links → Targeted x links → (∀ name, x = .var name → IsVariable previous) →
      IsTail previous us
  | .nil, _, _ => .nil
  | .cons op location hx hl, ht, hp => by
    refine .cons op (fun a h => ?_) hx.isOperand
      (hl.isTail ht.2 fun name h => hx.isVariable name h)
    obtain ⟨target, hv⟩ := ht.1 a h
    exact hp target hv

theorem OperandOf.isOperand {ts : List Token} {e : Expression} : OperandOf ts e → IsOperand ts
  | .leaf hx => .leaf hx.isLeaf
  | .behind op _ hx => .behind op (hx.isVariable _ rfl)
  | .unary op hx => .unary op hx.isOperand
  | .before op _ hx => .before op (hx.isVariable _ rfl)

theorem LeafOf.isLeaf {ts : List Token} {e : Expression} : LeafOf ts e → IsLeaf ts
  | .boolean true => .trueWord
  | .boolean false => .falseWord
  | .numeric value unit => .numeric value unit
  | .textual value unit => .textual value unit
  | .var name => .var (.name name)
  | .call function ha => .call function ha.isArguments
  | .group he => .group he.isExpression

theorem ArgumentsOf.isArguments {ts : List Token} {as : List Argument} :
    ArgumentsOf ts as → IsArguments ts
  | .nil => .nil
  | .single ha => .single ha.isArgument
  | .cons ha has => .cons ha.isArgument has.isArguments

theorem ArgumentOf.isArgument {ts : List Token} {a : Argument} : ArgumentOf ts a → IsArgument ts
  | .named name he => .named name he.isExpression
  | .positional he _ => .positional he.isExpression

end

/-! What is in the language has a tree. -/

theorem IsVariable.exists_leafOf (h : IsVariable ts) : ∃ name, LeafOf ts (.var name) := by
  induction h with
  | name name => exact ⟨name, .var name⟩
  | group _ ih =>
    obtain ⟨name, hl⟩ := ih
    have he := ExpressionOf.chain (.leaf hl) .nil rfl
    rw [List.append_nil] at he
    exact ⟨name, .group he⟩

/-- An operand that is a variable can be read as one. -/
theorem exists_operandOf (h : ∃ x, OperandOf ts x) :
    ∃ x, OperandOf ts x ∧ (IsVariable ts → ∃ name, x = .var name) := by
  by_cases hv : IsVariable ts
  · obtain ⟨name, hl⟩ := hv.exists_leafOf
    exact ⟨.var name, .leaf hl, fun _ => ⟨name, rfl⟩⟩
  · obtain ⟨x, hx⟩ := h
    exact ⟨x, hx, fun h => (hv h).elim⟩

/-- Behind `name =` stands an expression of its own. -/
theorem ExpressionOf.exists_value {name : String}
    (h : ExpressionOf (.identifier name :: .operator .assign :: us) e) :
    ∃ v, ExpressionOf us v := by
  generalize hts : Token.identifier name :: .operator .assign :: us = ts at h
  obtain ⟨hf, hl, he⟩ := h
  obtain rfl := hf.eq_name hts.symm
  cases hl with
  | nil => cases hts
  | cons op location hx hl =>
    simp only [List.cons_append, List.nil_append, List.cons.injEq] at hts
    obtain ⟨-, -, rfl⟩ := hts
    obtain ⟨v, hv⟩ := exists_resolve_iff.mpr (exists_resolve_iff.mp ⟨_, he⟩).2
    exact ⟨v, .chain hx hl hv⟩

theorem exists_argumentOf (h : ExpressionOf ts e) : ∃ a, ArgumentOf ts a := by
  by_cases hn : ∃ name us, ts = .identifier name :: .operator .assign :: us
  · obtain ⟨name, us, rfl⟩ := hn
    obtain ⟨v, hv⟩ := h.exists_value
    exact ⟨_, .named name hv⟩
  · exact ⟨_, .positional h fun name us heq => hn ⟨name, us, heq⟩⟩

mutual

theorem IsExpression.exists_tree {ts : List Token} :
    IsExpression ts → ∃ e, ExpressionOf ts e
  | .chain ho ht => by
    obtain ⟨x, hx, hv⟩ := exists_operandOf ho.exists_tree
    obtain ⟨links, hl, htl⟩ := ht.exists_links
    obtain ⟨e, he⟩ := exists_resolve_iff.mpr (htl x hv)
    exact ⟨e, .chain hx hl he⟩

theorem IsTail.exists_links {previous us : List Token} :
    IsTail previous us → ∃ links, LinksOf us links ∧
      ∀ x : Expression, (IsVariable previous → ∃ name, x = .var name) → Targeted x links
  | .nil => ⟨[], .nil, fun _ _ => trivial⟩
  | .cons op hp ho ht => by
    obtain ⟨y, hy, hv⟩ := exists_operandOf ho.exists_tree
    obtain ⟨links, hl, htl⟩ := ht.exists_links
    exact ⟨_, .cons op .origin hy hl, fun x hx => ⟨fun a h => hx (hp a h), htl y hv⟩⟩

theorem IsOperand.exists_tree {ts : List Token} : IsOperand ts → ∃ x, OperandOf ts x
  | .unary op ho => by
    obtain ⟨x, hx⟩ := ho.exists_tree
    exact ⟨_, .unary op hx⟩
  | .before op hv => by
    obtain ⟨name, hl⟩ := hv.exists_leafOf
    cases op with
    | preIncrement | postIncrement => exact ⟨_, .before .preIncrement rfl (.leaf hl)⟩
    | preDecrement | postDecrement => exact ⟨_, .before .preDecrement rfl (.leaf hl)⟩
  | .behind op hv => by
    obtain ⟨name, hl⟩ := hv.exists_leafOf
    cases op with
    | preIncrement | postIncrement => exact ⟨_, .behind .postIncrement rfl hl⟩
    | preDecrement | postDecrement => exact ⟨_, .behind .postDecrement rfl hl⟩
  | .leaf hl => by
    obtain ⟨x, hx⟩ := hl.exists_tree
    exact ⟨x, .leaf hx⟩

theorem IsLeaf.exists_tree {ts : List Token} : IsLeaf ts → ∃ x, LeafOf ts x
  | .trueWord => ⟨_, .boolean true⟩
  | .falseWord => ⟨_, .boolean false⟩
  | .numeric value unit => ⟨_, .numeric value unit⟩
  | .textual value unit => ⟨_, .textual value unit⟩
  | .var hv => by
    obtain ⟨name, hl⟩ := hv.exists_leafOf
    exact ⟨_, hl⟩
  | .call function ha => by
    obtain ⟨as, has⟩ := ha.exists_trees
    exact ⟨_, .call function has⟩
  | .group he => by
    obtain ⟨e, hd⟩ := he.exists_tree
    exact ⟨e, .group hd⟩

theorem IsArguments.exists_trees {ts : List Token} :
    IsArguments ts → ∃ as, ArgumentsOf ts as
  | .nil => ⟨[], .nil⟩
  | .single ha => by
    obtain ⟨a, hd⟩ := ha.exists_tree
    exact ⟨_, .single hd⟩
  | .cons ha has => by
    obtain ⟨a, hd⟩ := ha.exists_tree
    obtain ⟨as, hds⟩ := has.exists_trees
    exact ⟨_, .cons hd hds⟩

theorem IsArgument.exists_tree {ts : List Token} : IsArgument ts → ∃ a, ArgumentOf ts a
  | .named name he => by
    obtain ⟨e, hd⟩ := he.exists_tree
    exact ⟨_, .named name hd⟩
  | .positional he => by
    obtain ⟨e, hd⟩ := he.exists_tree
    exact exists_argumentOf hd

end

/-- Tokens are read as an expression, all of them, exactly if they are in the language. -/
theorem exists_parseExpression_iff {tokens : List (Located Token)} :
    (∃ e, parseExpression tokens = .ok e) ↔ IsExpression (tokens.map Located.value) := by
  simp only [parseExpression_ok_iff]
  constructor
  · rintro ⟨e, h⟩
    exact h.isExpression
  · exact IsExpression.exists_tree

end FrontEnd.Grammar
