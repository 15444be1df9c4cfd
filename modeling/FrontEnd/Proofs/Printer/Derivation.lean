import FrontEnd.Proofs.Grammar.Chain
import FrontEnd.Proofs.Grammar.Derivation
import FrontEnd.Proofs.Printer.Tokens
import FrontEnd.Proofs.Syntax.WellFormed

/-! The grammar derives each tree from its tokens: the parentheses of the printer are those that
reading back needs. -/
namespace FrontEnd

open Grammar Printer

variable {ts us ws : List Token} {e left right x : Expression} {bound : Nat} {links : List Link}

/-- One more than the precedence of the operator at the root, and nothing where there is none. -/
def Expression.level (e : Expression) : Nat :=
  match e.root? with
  | none => 0
  | some op => op.precedence + 1

theorem level_le_of_left {op : BinaryOp} (h : operandNeeds (.binary op) left .right = false) :
    left.level ≤ (Infix.binary op).precedence + 1 := by
  unfold operandNeeds at h
  unfold Expression.level
  split at h <;> simp_all

theorem level_le_of_right {op : BinaryOp} (h : operandNeeds (.binary op) right .left = false) :
    right.level ≤ (Infix.binary op).precedence := by
  unfold operandNeeds at h
  unfold Expression.level
  split at h <;> simp_all [Infix.associativity]
  omega

theorem Expression.level_le_loosest (e : Expression) : e.level ≤ Infix.loosest + 1 := by
  unfold Expression.level
  split
  · exact Nat.zero_le _
  · exact Nat.succ_le_succ (Infix.precedence_le_loosest _)

theorem level_of_unary (h : unaryNeeds x = false) : x.level = 0 := by
  cases x <;> first | rfl | cases h

theorem level_le_of_argument (h : argumentNeeds x = false) : x.level ≤ Infix.loosest := by
  cases x with
  | assign => cases h
  | binary op => exact Infix.precedence_lt_loosest rfl
  | _ => exact Nat.zero_le _

namespace Grammar

theorem LinksOf.append {us ws : List Token} {links links' : List Link} :
    LinksOf us links → LinksOf ws links' → LinksOf (us ++ ws) (links ++ links')
  | .nil, h => h
  | .cons op location hx hl, h => by
    simpa using LinksOf.cons op location hx (hl.append h)

/-- The tokens are a chain that folds to the expression, and all of its operators bind tighter than
`bound`. -/
inductive Spine (bound : Nat) : List Token → Expression → Prop
  | mk {ts us : List Token} {first e : Expression} {links : List Link} (hf : OperandOf ts first)
      (hl : LinksOf us links) (hb : ∀ link ∈ links, link.op.precedence < bound)
      (he : fold first Infix.loosest links = .ok (e, [])) : Spine bound (ts ++ us) e

namespace Spine

theorem expressionOf (h : Spine bound ts e) : ExpressionOf ts e := by
  obtain ⟨hf, hl, hb, he⟩ := h
  exact .chain hf hl (by rw [resolve_eq, he]; rfl)

theorem mono {bound' : Nat} (h : Spine bound ts e) (hle : bound ≤ bound') : Spine bound' ts e := by
  obtain ⟨hf, hl, hb, he⟩ := h
  exact .mk hf hl (fun link hm => Nat.lt_of_lt_of_le (hb link hm) hle) he

theorem of_operand (h : OperandOf ts e) : Spine bound ts e := by
  have hs : Spine bound (ts ++ []) e := .mk h .nil (by simp) fold_nil
  rwa [List.append_nil] at hs

theorem operandOf (h : Spine 0 ts e) : OperandOf ts e := by
  obtain ⟨hf, hl, hb, he⟩ := h
  cases hl with
  | nil =>
    cases he
    simpa using hf
  | cons op location hx hl => cases hb _ List.mem_cons_self

/-- Parentheses make an operand of anything. -/
theorem grouped {needed : Bool} (h : Spine bound ts e) {bound' : Nat}
    (hn : needed = false → bound ≤ bound') : Spine bound' (grouped needed ts) e := by
  cases needed with
  | false => exact h.mono (hn rfl)
  | true => exact of_operand (.leaf (.group h.expressionOf))

theorem binary {op : BinaryOp} (hl : Spine ((Infix.binary op).precedence + 1) ts left)
    (hr : Spine (Infix.binary op).precedence us right) :
    Spine ((Infix.binary op).precedence + 1) (ts ++ .operator op.operator :: us)
      (.binary op left right) := by
  obtain @⟨ts, ts', first, _, links, hf, hls, hb, he⟩ := hl
  obtain @⟨us, us', first', _, links', hf', hls', hb', he'⟩ := hr
  let link : Link := ⟨.binary op, .origin, first'⟩
  have hlinks : LinksOf (ts' ++ .operator op.operator :: (us ++ us')) (links ++ link :: links') :=
    hls.append (.cons (.binary op) .origin hf' hls')
  rw [List.append_assoc]
  refine .mk hf hlinks ?_ ?_
  · intro l hl
    rcases List.mem_append.mp hl with hl | hl
    · exact hb l hl
    · rcases List.mem_cons.mp hl with rfl | hl
      · exact Nat.lt_succ_self _
      · exact Nat.lt_succ_of_lt (hb' l hl)
  · have hw : ∀ l ∈ links, waitsFor link.op l.op = true := fun l hl =>
      waitsFor_iff.mpr ⟨rfl, Nat.le_of_lt_succ (hb l hl)⟩
    have hn : ∀ l ∈ links', waitsFor l.op link.op = false := by
      intro l hl
      have := hb' l hl
      simp only [waitsFor, Bool.and_eq_false_imp, decide_eq_false_iff_not]
      intro _
      exact Nat.not_le.mpr this
    rw [fold_append hw he, if_pos rfl, fold_cons_of_le (Infix.precedence_le_loosest _),
      side_eq_fold hn, he']
    rfl

theorem assign (op : AssignOp) (target : String) (h : Spine bound ts e) :
    Spine (Infix.loosest + 1) (.identifier target :: .operator op.operator :: ts)
      (.assign op target e) := by
  obtain @⟨ts, us, first, _, links, hf, hl, hb, he⟩ := h
  let link : Link := ⟨.assign op, .origin, first⟩
  have hlinks : LinksOf (.operator op.operator :: (ts ++ us)) (link :: links) :=
    .cons (.assign op) .origin hf hl
  refine .mk (.leaf (.var target)) hlinks ?_ ?_
  · intro l _
    exact Nat.lt_succ_of_le l.op.precedence_le_loosest
  · rw [fold_cons_of_le (Infix.precedence_le_loosest _), side_assign, he]
    rfl

/-- Only an assignment starts like a named argument. -/
theorem ne_named (h : Spine bound ts e) (hb : bound ≤ Infix.loosest) (name : String)
    (us : List Token) : ts ≠ .identifier name :: .operator .assign :: us := by
  intro hts
  obtain ⟨hf, hl, hb', he⟩ := h
  obtain rfl := hf.eq_name hts
  cases hl with
  | nil => simp at hts
  | cons op location hx hl =>
    simp only [List.singleton_append, List.cons.injEq, Token.operator.injEq] at hts
    obtain rfl := Infix.eq_assign hts.2.1
    have hlt : Infix.loosest < bound := hb' _ List.mem_cons_self
    omega

end Spine

end Grammar

mutual

theorem Expression.spine : (e : Expression) → Spine e.level e.tokens e
  | .boolean value => .of_operand (.leaf (.boolean value))
  | .numeric value unit => .of_operand (.leaf (.numeric value unit))
  | .textual value unit => .of_operand (.leaf (.textual value unit))
  | .var name => .of_operand (.leaf (.var name))
  | .call function arguments =>
    .of_operand (.leaf (.call function (Argument.argumentsOf_tokens arguments)))
  | .unary op operand => by
    have hx : Spine 0 (grouped (unaryNeeds operand) operand.tokens) operand :=
      operand.spine.grouped fun h => Nat.le_of_eq (level_of_unary h)
    exact .of_operand (.unary op hx.operandOf)
  | .step op target => by
    rw [Expression.tokens]
    cases hop : op.isPre with
    | true => exact .of_operand (.before op hop (.leaf (.var target)))
    | false => exact .of_operand (.behind op hop (.var target))
  | .binary op left right =>
    (left.spine.grouped level_le_of_left).binary (right.spine.grouped level_le_of_right)
  | .assign op target value => .assign op target (value.spine.grouped fun _ => Nat.le_refl _)

theorem Argument.argumentOf_tokens : (a : Argument) → ArgumentOf a.tokens a
  | .positional value => by
    have hv : Spine Infix.loosest (grouped (argumentNeeds value) value.tokens) value :=
      value.spine.grouped level_le_of_argument
    exact .positional hv.expressionOf (hv.ne_named (Nat.le_refl _))
  | .named name value => .named name value.spine.expressionOf

theorem Argument.argumentsOf_tokens : (as : List Argument) →
    ArgumentsOf (listed (Argument.listTokens as)) as
  | [] => .nil
  | [a] => .single (Argument.argumentOf_tokens a)
  | a :: b :: rest =>
    .cons (Argument.argumentOf_tokens a) (Argument.argumentsOf_tokens (b :: rest))

end

theorem Expression.expressionOf_tokens (e : Expression) : ExpressionOf e.tokens e :=
  e.spine.expressionOf

/-! Statements and definitions. -/

theorem Modifiers.modifiersOf_tokens (m : Modifiers) : ModifiersOf m.tokens m := by
  obtain ⟨exported, inlined⟩ := m
  cases exported <;> cases inlined
  · exact .plain
  · exact .inlined
  · exact .exported
  · exact .both

theorem listed_parameterTokens : (names : List String) →
    Listed ParameterOf (parameterTokens names) names
  | [] => .nil
  | [_] => .single rfl
  | name :: next :: rest => by
    have hn : ParameterOf [.identifier name] name := rfl
    exact .cons hn (listed_parameterTokens (next :: rest))

theorem conditionOf_tokens (e : Expression) : ConditionOf (conditionTokens e) e :=
  .parenthesized e.expressionOf_tokens

mutual

theorem Node.itemOf_tokens : (n : Node) → n.WellFormed → ItemOf n.tokens n
  | .statement s, h => .statement (s.statementOf_tokens h)
  | .definition d, h => .definition (d.definitionOf_tokens h)

theorem Node.itemsOf_tokens : (ns : List Node) → Node.AllWellFormed ns →
    ItemsOf (Node.listTokens ns) ns
  | [], _ => .nil
  | n :: ns, h => .cons (n.itemOf_tokens h.1) (Node.itemsOf_tokens ns h.2)

theorem Statement.statementOf_tokens : (s : Statement) → s.WellFormed → StatementOf s.tokens s
  | .expression e, _ => .expression e.expressionOf_tokens
  | .block items, h => .block (.braced (Node.itemsOf_tokens items h))
  | .ifElse c items none, h => .ifElse (.plain (conditionOf_tokens c)
      (.braced (Node.itemsOf_tokens items h.2)))
  | .ifElse c items (some o), h => .ifElse (.withElse (conditionOf_tokens c)
      (.braced (Node.itemsOf_tokens items h.2.1)) (o.elseOf_tokens h.2.2.1 h.2.2.2))
  | .whileLoop c items, h => .whileLoop (conditionOf_tokens c)
      (.braced (Node.itemsOf_tokens items h.2))
  | .ret none, _ => .ret
  | .ret (some e), _ => .retValue e.expressionOf_tokens

theorem Statement.elseOf_tokens : (s : Statement) → s.IsBranch → s.WellFormed → ElseOf s.tokens s
  | .block items, _, h => .block (.braced (Node.itemsOf_tokens items h))
  | .ifElse c items none, _, h => .nested (.plain (conditionOf_tokens c)
      (.braced (Node.itemsOf_tokens items h.2)))
  | .ifElse c items (some o), _, h => .nested (.withElse (conditionOf_tokens c)
      (.braced (Node.itemsOf_tokens items h.2.1)) (o.elseOf_tokens h.2.2.1 h.2.2.2))

theorem Definition.definitionOf_tokens : (d : Definition) → d.WellFormed → DefinitionOf d.tokens d
  | .var name none, _ => .var name
  | .var name (some e), _ => .varValue name e.expressionOf_tokens
  | .function name m names none, _ =>
    .function name m.modifiersOf_tokens (listed_parameterTokens names) .forward
  | .function name m names (some body), h =>
    .function name m.modifiersOf_tokens (listed_parameterTokens names)
      (.block (.braced (Node.itemsOf_tokens body h.2.2)))

end

theorem Grammar.ProgramOf.cons {n : Node} {ns : List Node} (hn : ItemOf ts n)
    (h : ProgramOf us ns) : ProgramOf (ts ++ us) (n :: ns) := by
  cases h with
  | items hi => exact .items (.cons hn hi)
  | tail hi he =>
    rw [← List.append_assoc]
    exact .tail (.cons hn hi) he

theorem programOf_tokens : (nodes : List Node) → WellFormedProgram nodes →
    ProgramOf (Node.listTokens nodes) nodes
  | [], _ => .items .nil
  | [.expression e], _ => by
    simpa [Node.listTokens, Node.tokens] using ProgramOf.tail .nil e.expressionOf_tokens
  | .statement s :: rest, h =>
    .cons (.statement (s.statementOf_tokens h.1)) (programOf_tokens rest h.2)
  | .definition d :: rest, h =>
    .cons (.definition (d.definitionOf_tokens h.1)) (programOf_tokens rest h.2)

end FrontEnd
