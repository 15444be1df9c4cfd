import FrontEnd.Proofs.Grammar.ExpressionCompleteness

/-! Named arguments and assignments. What starts with `name =` is read either way: as an assignment
to the name, or as the name and an expression of its own behind the sign. Both readings take the
same tokens and find the same value. -/
namespace FrontEnd.Grammar

open FrontEnd.Parser

variable {start mid stop : Cursor} {e v : Expression} {name : String}

theorem operand_of_name (hn : start.Reads [.identifier name] mid)
    (ha : mid.Reads [.operator .assign] stop) : operand start = .ok (.var name) mid := by
  apply (OperandOf.leaf (.var name)).complete hn
  exact nextIs_of_reads ha (Or.inr ⟨.assign .assign, rfl⟩)

/-- The chain behind `name =` is the same whether it is entered there or at the name. -/
theorem expression_named_iff (hr : start.Reads [.identifier name, .operator .assign] mid) :
    expression start = .ok e stop ↔
      ∃ v, e = .assign .assign name v ∧ expression mid = .ok v stop := by
  obtain ⟨m, hn, ha⟩ := hr.uncons
  have hf := operand_of_name hn ha
  obtain ⟨location, ho⟩ := infixOperator_of_reads (.assign .assign) ha
  rw [expression_eq]
  simp only [Layer.expression_ok_iff moves_expression]
  constructor
  · rintro ⟨first, m', links, hf', hl, he⟩
    obtain ⟨rfl, rfl⟩ := ok_unique hf hf'
    cases hl with
    | nil hno => exact (hno _ _ ho).elim
    | @cons _ next _ link links hl hs =>
      obtain ⟨op, location', x⟩ := link
      obtain ⟨m'', ho', hx⟩ := Layer.link_ok_iff.mp hl
      obtain ⟨hop, rfl⟩ := ok_unique ho ho'
      cases hop
      obtain ⟨_, v, ⟨⟩, rfl, hv⟩ := resolve_assign_ok_iff.mp he
      exact ⟨v, rfl, x, next, links, hx, hs, hv⟩
  · rintro ⟨v, rfl, x, next, links, hx, hs, hv⟩
    have hl : Layer.link expression m = .ok ⟨.assign .assign, location, x⟩ next :=
      Layer.link_ok_iff.mpr ⟨mid, ho, hx⟩
    exact ⟨.var name, m, _, hf, .cons hl hs, resolve_assign_ok_iff.mpr ⟨name, v, rfl, rfl, hv⟩⟩

theorem argument_of_named (hr : start.Reads [.identifier name, .operator .assign] mid)
    (hv : expression mid = .ok v stop) : argument start = .ok (.named name v) stop := by
  obtain ⟨m, hn, ha⟩ := hr.uncons
  obtain ⟨_, hn⟩ := identifier_of_reads hn
  obtain ⟨_, ha⟩ := exactly_of_reads ha
  have hna := thenSkip_ok_iff.mpr ⟨m, _, hn, ha⟩
  exact orElse_ok_iff.mpr (Or.inl (map_ok_iff.mpr ⟨_, pair_of_ok hna hv, rfl⟩))

theorem argument_of_not_named
    (hn : ∀ name mid, ¬ start.Reads [.identifier name, .operator .assign] mid) :
    argument start = (Argument.positional <$> expression) start := by
  apply orElse_of_rejects
  intro a stop h
  obtain ⟨⟨name, v⟩, hp, -⟩ := map_ok_iff.mp h
  obtain ⟨m, hna, -⟩ := pair_ok_iff.mp hp
  obtain ⟨m', _, hi, ha⟩ := thenSkip_ok_iff.mp hna
  exact hn _ _ ((reads_of_identifier hi).cons (reads_of_exactly ha))

/-- Where `name =` comes next, there is an expression exactly if there is one behind the sign. It
ends at the same place and assigns what that one is, and an argument names it. Everywhere else an
argument does what an expression does. -/
theorem argument_agrees (start : Cursor) :
    (∀ name mid, start.Reads [.identifier name, .operator .assign] mid →
      (∀ e stop, expression start = .ok e stop ↔
        ∃ v, e = .assign .assign name v ∧ expression mid = .ok v stop) ∧
      ∀ v stop, expression mid = .ok v stop → argument start = .ok (.named name v) stop) ∧
    ((∀ name mid, ¬ start.Reads [.identifier name, .operator .assign] mid) →
      argument start = (Argument.positional <$> expression) start) := by
  refine ⟨fun name mid hr => ⟨fun e stop => ?_, fun v stop hv => ?_⟩, argument_of_not_named⟩
  · exact expression_named_iff hr
  · exact argument_of_named hr hv

/-- The argument `x = a + b` is named, and `(x = a)` is not. -/
theorem argument_agrees_grouped :
    let named := Cursor.ofTokens ([.identifier "x", .operator .assign, .identifier "a",
      .operator .plus, .identifier "b"].map (⟨·, .origin⟩))
    let grouped := Cursor.ofTokens ([.delimiter .openParen, .identifier "x", .operator .assign,
      .identifier "a", .delimiter .closeParen].map (⟨·, .origin⟩))
    expression named = .ok (.assign .assign "x" (.binary .add (.var "a") (.var "b")))
        (named.moveTo 5) ∧
      argument named = .ok (.named "x" (.binary .add (.var "a") (.var "b"))) (named.moveTo 5) ∧
      argument grouped = (Argument.positional <$> expression) grouped := by
  intro named grouped
  have hr : named.Reads [.identifier "x", .operator .assign] (named.moveTo 2) := ⟨rfl, rfl, rfl⟩
  have hs : ExpressionOf [.identifier "a", .operator .plus, .identifier "b"]
      (.binary .add (.var "a") (.var "b")) :=
    .chain (.leaf (.var "a")) (.cons (.binary .add) .origin (.leaf (.var "b")) .nil) rfl
  have hr' : (named.moveTo 2).Reads [.identifier "a", .operator .plus, .identifier "b"]
      (named.moveTo 5) := ⟨rfl, rfl, rfl⟩
  have hv := hs.complete hr' (nextIs_of_end rfl)
  obtain ⟨he, ha⟩ := (argument_agrees named).1 "x" _ hr
  refine ⟨(he _ _).mpr ⟨_, rfl, hv⟩, ha _ _ hv, (argument_agrees grouped).2 ?_⟩
  intro name mid h
  have hn : grouped.ahead = .identifier name :: .operator .assign :: mid.ahead := h.ahead
  simp [grouped] at hn

end FrontEnd.Grammar
