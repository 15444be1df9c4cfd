import FrontEnd.Proofs.Grammar.Chain
import FrontEnd.Proofs.Grammar.Derivation
import FrontEnd.Proofs.Printer.Tokens

/-! What a tree keeps of the tokens that it is read from: all of them, in their order, but for
parentheses, commas and which of two modifiers comes first. -/
namespace FrontEnd

open Printer

/-- Whether the token only says which of the others belong together. -/
def Token.isGrouping : Token → Bool
  | .delimiter .openParen | .delimiter .closeParen | .delimiter .comma => true
  | _ => false

/-- The tokens without parentheses and commas. -/
def ungrouped (ts : List Token) : List Token := ts.filter fun t => !t.isGrouping

/-- The tokens with each `inline export` turned round. -/
def exportFirst : List Token → List Token
  | [] => []
  | .keyword .inlineWord :: .keyword .exportWord :: ts =>
    .keyword .exportWord :: .keyword .inlineWord :: exportFirst ts
  | t :: ts => t :: exportFirst ts

/-- What neither grouping nor the order of modifiers makes a difference to. -/
def skeleton (ts : List Token) : List Token := exportFirst (ungrouped ts)

variable {ts us rest : List Token} {t : Token}

@[simp] theorem ungrouped_nil : ungrouped [] = [] := rfl

@[simp] theorem ungrouped_append : ungrouped (ts ++ us) = ungrouped ts ++ ungrouped us :=
  List.filter_append ts us

theorem mem_of_mem_ungrouped (h : t ∈ ungrouped ts) : t ∈ ts := (List.mem_filter.mp h).1

theorem ungrouped_cons (ts : List Token) :
    ungrouped (t :: ts) = if t.isGrouping then ungrouped ts else t :: ungrouped ts := by
  cases h : t.isGrouping <;> simp [ungrouped, h]

@[simp] theorem ungrouped_openParen : ungrouped (.delimiter .openParen :: ts) = ungrouped ts := rfl

@[simp] theorem ungrouped_closeParen : ungrouped (.delimiter .closeParen :: ts) = ungrouped ts :=
  rfl

@[simp] theorem ungrouped_comma : ungrouped (.delimiter .comma :: ts) = ungrouped ts := rfl

@[simp] theorem ungrouped_identifier (name : String) :
    ungrouped (.identifier name :: ts) = .identifier name :: ungrouped ts := rfl

@[simp] theorem ungrouped_numeric (value : String) (unit : Option String) :
    ungrouped (.numeric value unit :: ts) = .numeric value unit :: ungrouped ts := rfl

@[simp] theorem ungrouped_textual (value : String) (unit : Option String) :
    ungrouped (.textual value unit :: ts) = .textual value unit :: ungrouped ts := rfl

@[simp] theorem ungrouped_operator (op : Operator) :
    ungrouped (.operator op :: ts) = .operator op :: ungrouped ts := rfl

@[simp] theorem ungrouped_keyword (word : Keyword) :
    ungrouped (.keyword word :: ts) = .keyword word :: ungrouped ts := rfl

@[simp] theorem ungrouped_grouped (needed : Bool) :
    ungrouped (grouped needed ts) = ungrouped ts := by
  cases needed <;> simp [grouped]

@[simp] theorem ungrouped_listed : (parts : List (List Token)) →
    ungrouped (listed parts) = parts.flatMap ungrouped
  | [] => rfl
  | [ts] => by simp [listed]
  | ts :: us :: rest => by simp [listed, ungrouped_listed (us :: rest)]

namespace Grammar

variable {first left right e : Expression} {link : Link} {links : List Link}

/-- What is kept of a link. -/
def Link.skeleton (link : Link) : List Token :=
  .operator link.op.operator :: ungrouped link.operand.tokens

theorem Link.ungrouped_of_join (h : link.join left right = .ok e) : ungrouped e.tokens =
    ungrouped left.tokens ++ .operator link.op.operator :: ungrouped right.tokens := by
  obtain ⟨op, location, x⟩ := link
  cases op with
  | binary op =>
    cases h
    simp [Expression.tokens, Infix.operator]
  | assign op =>
    cases left with
    | var target =>
      cases h
      simp [Expression.tokens, Infix.operator]
    | _ => cases h

mutual

/-- Folding moves tokens out of the links into the tree, and leaves them in their order. -/
theorem Folds.ungrouped_eq {left e : Expression} {bound : Nat} {links rest : List Link} :
    Folds left bound links e rest → ungrouped e.tokens ++ rest.flatMap Link.skeleton =
      ungrouped left.tokens ++ links.flatMap Link.skeleton
  | .nil => rfl
  | .stop _ => rfl
  | .take hl hs hj hf => by
    rw [hf.ungrouped_eq, Link.ungrouped_of_join hj, List.append_assoc, List.cons_append,
      hs.ungrouped_eq, List.flatMap_cons, Link.skeleton, List.cons_append]

theorem Sides.ungrouped_eq {pending : Infix} {right e : Expression} {links rest : List Link} :
    Sides pending right links e rest → ungrouped e.tokens ++ rest.flatMap Link.skeleton =
      ungrouped right.tokens ++ links.flatMap Link.skeleton
  | .nil => rfl
  | .stop _ => rfl
  | .take hw hf hs => by rw [hs.ungrouped_eq, hf.ungrouped_eq]

end

theorem ungrouped_of_resolve (h : resolve first links = .ok e) :
    ungrouped e.tokens = ungrouped first.tokens ++ links.flatMap Link.skeleton := by
  simpa using (resolve_ok_iff.mp h).ungrouped_eq

mutual

theorem ExpressionOf.ungrouped_eq {ts : List Token} {e : Expression} :
    ExpressionOf ts e → ungrouped ts = ungrouped e.tokens
  | .chain hf hl he => by
    rw [ungrouped_append, hf.ungrouped_eq, hl.ungrouped_eq, ungrouped_of_resolve he]

theorem LinksOf.ungrouped_eq {ts : List Token} {links : List Link} :
    LinksOf ts links → ungrouped ts = links.flatMap Link.skeleton
  | .nil => rfl
  | .cons op location hx hl => by
    simp [Link.skeleton, hx.ungrouped_eq, hl.ungrouped_eq]

theorem OperandOf.ungrouped_eq {ts : List Token} {e : Expression} :
    OperandOf ts e → ungrouped ts = ungrouped e.tokens
  | .leaf hx => hx.ungrouped_eq
  | .behind op hop hx => by simp [Expression.tokens, hop, hx.ungrouped_eq]
  | .unary op hx => by simp [Expression.tokens, hx.ungrouped_eq]
  | .before op hop hx => by simp [Expression.tokens, hop, hx.ungrouped_eq]

theorem LeafOf.ungrouped_eq {ts : List Token} {e : Expression} :
    LeafOf ts e → ungrouped ts = ungrouped e.tokens
  | .boolean _ | .numeric _ _ | .textual _ _ | .var _ => rfl
  | .call function ha => by simp [Expression.tokens, ha.ungrouped_eq]
  | .group he => by simp [he.ungrouped_eq]

theorem ArgumentsOf.ungrouped_eq {ts : List Token} {as : List Argument} :
    ArgumentsOf ts as → ungrouped ts = (Argument.listTokens as).flatMap ungrouped
  | .nil => rfl
  | .single ha => by simp [Argument.listTokens, ha.ungrouped_eq]
  | .cons ha has => by simp [Argument.listTokens, ha.ungrouped_eq, has.ungrouped_eq]

theorem ArgumentOf.ungrouped_eq {ts : List Token} {a : Argument} :
    ArgumentOf ts a → ungrouped ts = ungrouped a.tokens
  | .named name he => by simp [Argument.tokens, he.ungrouped_eq]
  | .positional he _ => by simp [Argument.tokens, he.ungrouped_eq]

end

end Grammar

/-! No expression has a modifier in it. -/

mutual

theorem Expression.inline_not_mem : (e : Expression) → .keyword .inlineWord ∉ ungrouped e.tokens
  | .boolean value => by cases value <;> simp [Expression.tokens]
  | .numeric _ _ | .textual _ _ | .var _ => by simp [Expression.tokens]
  | .call function arguments => by
    have ha := Argument.inline_not_mem_list arguments
    simpa [Expression.tokens] using ha
  | .unary op operand => by simpa [Expression.tokens] using operand.inline_not_mem
  | .step op target => by cases hp : op.isPre <;> simp [Expression.tokens, hp]
  | .binary op left right => by
    simpa [Expression.tokens] using ⟨left.inline_not_mem, right.inline_not_mem⟩
  | .assign op target value => by simpa [Expression.tokens] using value.inline_not_mem

theorem Argument.inline_not_mem : (a : Argument) → .keyword .inlineWord ∉ ungrouped a.tokens
  | .positional value => by simpa [Argument.tokens] using value.inline_not_mem
  | .named name value => by simpa [Argument.tokens] using value.inline_not_mem

theorem Argument.inline_not_mem_list : (as : List Argument) →
    ∀ part ∈ Argument.listTokens as, .keyword .inlineWord ∉ ungrouped part
  | a :: as, part, hp => by
    rcases List.mem_cons.mp hp with hp | hp
    · exact hp ▸ a.inline_not_mem
    · exact Argument.inline_not_mem_list as part hp

end

theorem exportFirst_cons (h : t ≠ .keyword .inlineWord) :
    exportFirst (t :: ts) = t :: exportFirst ts := by
  rw [exportFirst]
  rintro us rfl
  exact (h rfl).elim

theorem exportFirst_append (h : .keyword .inlineWord ∉ ts) :
    exportFirst (ts ++ rest) = ts ++ exportFirst rest := by
  induction ts with
  | nil => rfl
  | cons t ts ih =>
    simp only [List.mem_cons, not_or] at h
    rw [List.cons_append, exportFirst_cons (Ne.symm h.1), ih h.2, List.cons_append]

/-- Whatever follows them, the skeleton of the tokens is that of `us`, whose modifiers stand in
order. -/
def Keeps (ts us : List Token) : Prop :=
  ∀ rest, exportFirst (ungrouped ts ++ rest) = ungrouped us ++ exportFirst rest

namespace Keeps

variable {ts' us' : List Token}

theorem nil : Keeps [] [] := fun _ => rfl

theorem append (h : Keeps ts us) (h' : Keeps ts' us') : Keeps (ts ++ ts') (us ++ us') := by
  intro rest
  simp only [ungrouped_append, List.append_assoc]
  rw [h, h']

theorem cons (ht : t ≠ .keyword .inlineWord) (h : Keeps ts us) : Keeps (t :: ts) (t :: us) := by
  intro rest
  cases hg : t.isGrouping with
  | true => simpa [ungrouped_cons, hg] using h rest
  | false => simp [ungrouped_cons, hg, exportFirst_cons ht, h rest]

theorem of_ungrouped_eq (h : ungrouped ts = ungrouped us)
    (hn : .keyword .inlineWord ∉ ungrouped us) : Keeps ts us := by
  intro rest
  rw [h, exportFirst_append hn]

theorem skeleton_eq (h : Keeps ts us) : skeleton ts = ungrouped us := by
  simpa [skeleton, exportFirst] using h []

end Keeps

namespace Grammar

theorem ExpressionOf.keeps {e : Expression} (h : ExpressionOf ts e) : Keeps ts e.tokens :=
  .of_ungrouped_eq h.ungrouped_eq e.inline_not_mem

theorem ConditionOf.keeps {e : Expression} : ConditionOf ts e → Keeps ts (conditionTokens e)
  | .parenthesized he => .cons (by simp) (he.keeps.append (.cons (by simp) .nil))

theorem Listed.ungrouped_eq {ts : List Token} {names : List String} :
    Listed ParameterOf ts names → ungrouped ts = names.map .identifier
  | .nil => rfl
  | .single rfl => rfl
  | .cons rfl h => by simp [h.ungrouped_eq]

theorem Listed.keeps {names : List String} (h : Listed ParameterOf ts names) :
    Keeps ts (parameterTokens names) := by
  have hp : ungrouped (parameterTokens names) = names.map .identifier := by
    simp only [parameterTokens, ungrouped_listed, List.flatMap_map, ungrouped_identifier]
    exact List.map_eq_flatMap.symm
  refine .of_ungrouped_eq (h.ungrouped_eq.trans hp.symm) ?_
  simp [hp]

/-- The keyword behind the modifiers of a function keeps them apart from what follows. -/
theorem ModifiersOf.keeps {m : Modifiers} {us' : List Token} (hm : ModifiersOf ts m)
    (h : Keeps us us') :
    Keeps (ts ++ .keyword .fnWord :: us) (m.tokens ++ .keyword .fnWord :: us') := by
  intro rest
  have hf := h.cons (t := .keyword .fnWord) (by simp) rest
  cases hm <;> simpa [Modifiers.tokens, exportFirst] using hf

mutual

theorem ItemsOf.keeps {ts : List Token} {items : List Node} :
    ItemsOf ts items → Keeps ts (Node.listTokens items)
  | .nil => .nil
  | .cons hi his => hi.keeps.append his.keeps

theorem ItemOf.keeps {ts : List Token} {item : Node} : ItemOf ts item → Keeps ts item.tokens
  | .definition hd => hd.keeps
  | .statement hs => hs.keeps

theorem BlockOf.keeps {ts : List Token} {items : List Node} :
    BlockOf ts items → Keeps ts (bracedTokens (Node.listTokens items))
  | .braced hi => .cons (by simp) (hi.keeps.append (.cons (by simp) .nil))

theorem StatementOf.keeps {ts : List Token} {s : Statement} : StatementOf ts s → Keeps ts s.tokens
  | .block hb => hb.keeps
  | .ifElse hs => hs.keeps
  | .whileLoop hc hb => .cons (by simp) (hc.keeps.append hb.keeps)
  | .ret => .cons (by simp) (.cons (by simp) .nil)
  | .retValue he => .cons (by simp) (he.keeps.append (.cons (by simp) .nil))
  | .expression he => he.keeps.append (.cons (by simp) .nil)

theorem IfOf.keeps {ts : List Token} {s : Statement} : IfOf ts s → Keeps ts s.tokens
  | .plain hc hb => .cons (by simp) (hc.keeps.append hb.keeps)
  | .withElse hc hb ho =>
    .cons (by simp) (hc.keeps.append (hb.keeps.append (.cons (by simp) ho.keeps)))

theorem ElseOf.keeps {ts : List Token} {s : Statement} : ElseOf ts s → Keeps ts s.tokens
  | .nested hs => hs.keeps
  | .block hb => hb.keeps

theorem DefinitionOf.keeps {ts : List Token} {d : Definition} :
    DefinitionOf ts d → Keeps ts d.tokens
  | .var name => .cons (by simp) (.cons (by simp) (.cons (by simp) .nil))
  | .varValue name he => .cons (by simp) (.cons (by simp) (.cons (by simp)
      (he.keeps.append (.cons (by simp) .nil))))
  | .function name hm hp .forward => hm.keeps (.cons (by simp) (.cons (by simp)
      (hp.keeps.append (.cons (by simp) (.cons (by simp) .nil)))))
  | .function name hm hp (.block hb) => hm.keeps (.cons (by simp) (.cons (by simp)
      (hp.keeps.append (.cons (by simp) hb.keeps))))

end

theorem ProgramOf.keeps {nodes : List Node} (h : ProgramOf ts nodes) :
    Keeps ts (Node.listTokens nodes) := by
  cases h with
  | items hi => exact hi.keeps
  | tail hi he =>
    rw [Node.listTokens_append]
    simpa [Node.listTokens, Node.tokens] using hi.keeps.append he.keeps

end Grammar

end FrontEnd
