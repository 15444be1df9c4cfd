import FrontEnd.Proofs.Grammar.Chain
import FrontEnd.Proofs.Grammar.Derivation
import FrontEnd.Proofs.Grammar.Unfolding

/-! What the rules for expressions read, the grammar derives. -/
namespace FrontEnd.Grammar

open FrontEnd.Parser

variable {α : Type} {start mid stop : Cursor} {e x : Expression} {inner : Parser Expression}

/-- Every success of `p` reads tokens that `rule` holds of, with the value. -/
def Sound (p : Parser α) (rule : List Token → α → Prop) : Prop :=
  ∀ ⦃start : Cursor⦄ ⦃v : α⦄ ⦃stop : Cursor⦄, p start = .ok v stop →
    ∃ ts, start.Reads ts stop ∧ rule ts v

theorem Sound.moves {p : Parser α} {rule : List Token → α → Prop} (h : Sound p rule) : Moves p := by
  intro start v stop hp
  obtain ⟨ts, hr, -⟩ := h hp
  exact ⟨ts, hr⟩

/-- A rule whose token lists all have a first token is read by advancing. -/
theorem Sound.advances {p : Parser α} {rule : List Token → α → Prop} {starts : Token → Prop}
    (h : Sound p rule) (hs : ∀ ts v, rule ts v → ∃ t us, ts = t :: us ∧ starts t) :
    Advances p := by
  intro start v stop hp
  obtain ⟨ts, hr, hd⟩ := h hp
  obtain ⟨t, us, rfl, -⟩ := hs ts v hd
  exact ⟨t, us, hr⟩

theorem reads_of_prefixOperator {op : Located PrefixOp} (h : prefixOperator start = .ok op stop) :
    (∃ u : UnaryOp, op.value = .unary u ∧ start.Reads [.operator u.operator] stop) ∨
    ∃ s : StepOp, op.value = .step s ∧ s.isPre = true ∧
      start.Reads [.operator s.operator] stop := by
  obtain ⟨t, hs, hr⟩ := reads_of_token h
  split at hs <;> simp only [Option.some.injEq, reduceCtorEq] at hs
  · exact Or.inl ⟨.plus, hs.symm, hr⟩
  · exact Or.inl ⟨.minus, hs.symm, hr⟩
  · exact Or.inl ⟨.not, hs.symm, hr⟩
  · exact Or.inr ⟨.preIncrement, hs.symm, rfl, hr⟩
  · exact Or.inr ⟨.preDecrement, hs.symm, rfl, hr⟩

theorem reads_of_postfixOperator {op : Located StepOp} (h : postfixOperator start = .ok op stop) :
    op.value.isPre = false ∧ start.Reads [.operator op.value.operator] stop := by
  obtain ⟨t, hs, hr⟩ := reads_of_token h
  split at hs <;> simp only [Option.some.injEq, reduceCtorEq] at hs
  · exact ⟨hs ▸ rfl, hs ▸ hr⟩
  · exact ⟨hs ▸ rfl, hs ▸ hr⟩

theorem operator_of_ofOperator? {symbol : Operator} {op : Infix}
    (h : Infix.ofOperator? symbol = some op) : symbol = op.operator := by
  cases symbol <;> cases h <;> rfl

theorem reads_of_infixOperator {op : Located Infix} (h : infixOperator start = .ok op stop) :
    start.Reads [.operator op.value.operator] stop := by
  obtain ⟨t, hs, hr⟩ := reads_of_token h
  split at hs
  · exact operator_of_ofOperator? hs ▸ hr
  · cases hs

theorem infixOperator_of_reads (op : Infix) (h : start.Reads [.operator op.operator] stop) :
    ∃ location, infixOperator start = .ok ⟨op, location⟩ stop :=
  token_of_reads h (Infix.ofOperator?_operator op)

theorem target_of_applyStep {op : Located StepOp} (h : applyStep op x = .ok e) :
    ∃ target, x = .var target ∧ e = .step op.value target := by
  cases x <;> cases h
  exact ⟨_, rfl, rfl⟩

theorem listed_of_separated {element : Parser α} {rule : List Token → α → Prop} {vs : List α}
    (hs : Sound element rule) (h : separated element (delimiter .comma) start = .ok vs stop) :
    ∃ ts, start.Reads ts stop ∧ Listed rule ts vs := by
  replace h := (separated_ok_iff hs.moves (advances_delimiter .comma)).mp h
  induction h with
  | nil => exact ⟨[], .refl _, .nil⟩
  | last hv =>
    obtain ⟨ts, hr, hd⟩ := hs hv
    exact ⟨ts, hr, .single hd⟩
  | cons hv hc _ ih =>
    obtain ⟨ts, hr, hd⟩ := hs hv
    obtain ⟨us, hr', hds⟩ := ih
    exact ⟨_, hr.trans ((reads_of_exactly hc).cons hr'), .cons hd hds⟩

theorem ArgumentsOf.of_listed {ts : List Token} {as : List Argument} (h : Listed ArgumentOf ts as) :
    ArgumentsOf ts as := by
  induction h with
  | nil => exact .nil
  | single ha => exact .single ha
  | cons ha _ ih => exact .cons ha ih

/-- Whoever reads `name = value` as an expression also reads the value. -/
def ReadsValues (p : Parser Expression) : Prop :=
  ∀ ⦃start : Cursor⦄ ⦃e : Expression⦄ ⦃stop mid : Cursor⦄ ⦃name : String⦄, p start = .ok e stop →
    start.Reads [.identifier name, .operator .assign] mid → ∃ v, p mid = .ok v stop

namespace Layer

theorem sound_parenthesized (hi : Sound inner ExpressionOf) :
    Sound (parenthesized inner) LeafOf := by
  intro start e stop h
  obtain ⟨m, _, h, hc⟩ := thenSkip_ok_iff.mp h
  obtain ⟨_, m', ho, h⟩ := skipThen_ok_iff.mp h
  obtain ⟨us, hr, hd⟩ := hi h
  exact ⟨_, ((reads_of_exactly ho).trans hr).trans (reads_of_exactly hc), .group hd⟩

theorem sound_argument (hi : Sound inner ExpressionOf) (hv : ReadsValues inner) :
    Sound (argument inner) ArgumentOf := by
  intro start a stop h
  rcases orElse_ok_iff.mp h with h | ⟨hno, h⟩
  · obtain ⟨⟨name, e⟩, hp, rfl⟩ := map_ok_iff.mp h
    obtain ⟨m, hna, he⟩ := pair_ok_iff.mp hp
    obtain ⟨m', _, hn, ha⟩ := thenSkip_ok_iff.mp hna
    obtain ⟨ts, hr, hd⟩ := hi he
    exact ⟨_, (reads_of_identifier hn).cons ((reads_of_exactly ha).cons hr), .named _ hd⟩
  · obtain ⟨e, he, rfl⟩ := map_ok_iff.mp h
    obtain ⟨ts, hr, hd⟩ := hi he
    refine ⟨ts, hr, .positional hd ?_⟩
    -- Had it started like a named argument, it would have been read as one.
    rintro name us rfl
    obtain ⟨m, hn, hr⟩ := hr.uncons
    obtain ⟨mid, ha, -⟩ := hr.uncons
    obtain ⟨v, hv⟩ := hv he (hn.cons ha)
    obtain ⟨_, hn⟩ := identifier_of_reads hn
    obtain ⟨_, ha⟩ := exactly_of_reads ha
    have hna := thenSkip_ok_iff.mpr ⟨m, _, hn, ha⟩
    exact hno _ _ (map_ok_iff.mpr ⟨_, pair_of_ok hna hv, rfl⟩)

theorem sound_call (hi : Sound inner ExpressionOf) (hv : ReadsValues inner) :
    Sound (call inner) LeafOf := by
  intro start e stop h
  obtain ⟨⟨function, arguments⟩, hp, rfl⟩ := map_ok_iff.mp h
  obtain ⟨m, hf, has⟩ := pair_ok_iff.mp hp
  obtain ⟨m', _, hoas, hc⟩ := thenSkip_ok_iff.mp has
  obtain ⟨_, m'', ho, hs⟩ := skipThen_ok_iff.mp hoas
  obtain ⟨ts, hr, hd⟩ := listed_of_separated (sound_argument hi hv) hs
  exact ⟨_, (reads_of_identifier hf).cons ((reads_of_exactly ho).cons
    (hr.trans (reads_of_exactly hc))), .call _ (.of_listed hd)⟩

theorem sound_leaf (hi : Sound inner ExpressionOf) (hv : ReadsValues inner) :
    Sound (leaf inner) LeafOf := by
  intro start e stop h
  obtain ⟨p, hp, h⟩ := exists_of_anyOf (label_ok_iff.mp h)
  simp only [List.mem_cons, List.not_mem_nil, or_false] at hp
  rcases hp with rfl | rfl | rfl | rfl | rfl | rfl
  · obtain ⟨found, ht, rfl⟩ := map_ok_iff.mp h
    obtain ⟨t, hs, hr⟩ := reads_of_token ht
    split at hs <;> simp only [Option.some.injEq, reduceCtorEq] at hs
    · exact ⟨_, hr, hs ▸ .boolean true⟩
    · exact ⟨_, hr, hs ▸ .boolean false⟩
  · obtain ⟨found, ht, rfl⟩ := map_ok_iff.mp h
    obtain ⟨t, hs, hr⟩ := reads_of_token ht
    split at hs <;> simp only [Option.some.injEq, reduceCtorEq] at hs
    exact ⟨_, hr, hs ▸ .numeric _ _⟩
  · obtain ⟨found, ht, rfl⟩ := map_ok_iff.mp h
    obtain ⟨t, hs, hr⟩ := reads_of_token ht
    split at hs <;> simp only [Option.some.injEq, reduceCtorEq] at hs
    exact ⟨_, hr, hs ▸ .textual _ _⟩
  · exact sound_call hi hv h
  · obtain ⟨name, hn, rfl⟩ := map_ok_iff.mp h
    exact ⟨_, reads_of_identifier hn, .var _⟩
  · exact sound_parenthesized hi h

/-- The operators in front of an operand, the nearest applied first. -/
theorem operandOf_of_prefixes {us : List Token} {ops : List (Located PrefixOp)}
    (hx : OperandOf us x) (h : Repeats prefixOperator.Rejects prefixOperator start ops stop)
    (he : ops.foldrM applyPrefix x = .ok e) :
    ∃ ts, start.Reads ts stop ∧ OperandOf (ts ++ us) e := by
  induction h generalizing e with
  | nil =>
    cases he
    exact ⟨[], .refl _, hx⟩
  | @cons start mid stop op ops ho _ ih =>
    rw [List.foldrM_cons] at he
    obtain ⟨y, hy, he⟩ := except_bind_ok_iff.mp he
    obtain ⟨ts, hr, hd⟩ := ih hy
    rcases reads_of_prefixOperator ho with ⟨u, hu, hr'⟩ | ⟨s, hs, hpre, hr'⟩
    · simp only [applyPrefix, hu] at he
      cases he
      exact ⟨_, hr'.cons hr, .unary u hd⟩
    · simp only [applyPrefix, hs] at he
      obtain ⟨target, rfl, rfl⟩ := target_of_applyStep he
      exact ⟨_, hr'.cons hr, .before s hpre hd⟩

/-- The steps of the rule for operands. -/
theorem operand_ok_iff : operand inner start = .ok e stop ↔
    ∃ ops mid x mid' behind, Repeats prefixOperator.Rejects prefixOperator start ops mid ∧
      leaf inner mid = .ok x mid' ∧ optional postfixOperator mid' = .ok behind stop ∧
      applyAround ops x behind = .ok e := by
  have ha : Advances prefixOperator := advances_token _ _
  simp only [operand, andThen_ok_iff, bind_ok_iff, pure_ok_iff]
  constructor
  · rintro ⟨_, ⟨ops, mid, ho, x, mid', hx, behind, _, hb, rfl, rfl⟩, he⟩
    exact ⟨ops, mid, x, mid', behind, (many_ok_iff ha).mp ho, hx, hb, he⟩
  · rintro ⟨ops, mid, x, mid', behind, ho, hx, hb, he⟩
    exact ⟨(ops, x, behind), ⟨ops, mid, (many_ok_iff ha).mpr ho, x, mid', hx, behind, stop, hb,
      rfl, rfl⟩, he⟩

theorem sound_operand (hi : Sound inner ExpressionOf) (hv : ReadsValues inner) :
    Sound (operand inner) OperandOf := by
  intro start e stop h
  obtain ⟨ops, mid, x, mid', behind, hops, hx, hb, he⟩ := operand_ok_iff.mp h
  obtain ⟨us, hr, hd⟩ := sound_leaf hi hv hx
  have hod : ∃ y ws, mid.Reads ws stop ∧ OperandOf ws y ∧ ops.foldrM applyPrefix y = .ok e := by
    rcases optional_ok_iff.mp hb with ⟨op, rfl, hop⟩ | ⟨-, rfl, rfl⟩
    · obtain ⟨hpre, hr'⟩ := reads_of_postfixOperator hop
      obtain ⟨y, hy, he⟩ := except_bind_ok_iff.mp he
      obtain ⟨target, rfl, rfl⟩ := target_of_applyStep hy
      exact ⟨_, _, hr.trans hr', .behind _ hpre hd, he⟩
    · exact ⟨x, us, hr, .leaf hd, he⟩
  obtain ⟨y, ws, hr', hd', he⟩ := hod
  obtain ⟨ts, hr'', hd''⟩ := operandOf_of_prefixes hd' hops he
  exact ⟨_, hr''.trans hr', hd''⟩

/-- An infix operator and the operand behind it. -/
def link (inner : Parser Expression) : Parser Link :=
  infixOperator >>= fun op => (fun operand => ⟨op.value, op.location, operand⟩) <$> operand inner

theorem link_ok_iff {l : Link} : link inner start = .ok l stop ↔
    ∃ mid, infixOperator start = .ok ⟨l.op, l.location⟩ mid ∧
      operand inner mid = .ok l.operand stop := by
  simp only [link, bind_ok_iff, map_ok_iff]
  constructor
  · rintro ⟨op, mid, hop, x, hx, rfl⟩
    exact ⟨mid, hop, hx⟩
  · rintro ⟨mid, hop, hx⟩
    exact ⟨_, mid, hop, l.operand, hx, rfl⟩

/-- The steps of the rule for expressions. -/
theorem expression_ok_iff (hm : Moves inner) : expression inner start = .ok e stop ↔
    ∃ first mid links, operand inner start = .ok first mid ∧
      Repeats infixOperator.Rejects (link inner) mid links stop ∧ resolve first links = .ok e := by
  have ha : Advances infixOperator := advances_token _ _
  simp only [expression, chain, andThen_ok_iff, bind_ok_iff, pure_ok_iff]
  constructor
  · rintro ⟨_, ⟨first, mid, hf, links, _, hl, rfl, rfl⟩, he⟩
    exact ⟨first, mid, links, hf, (committed_ok_iff ha (moves_link hm)).mp hl, he⟩
  · rintro ⟨first, mid, links, hf, hl, he⟩
    exact ⟨(first, links), ⟨first, mid, hf, links, stop,
      (committed_ok_iff ha (moves_link hm)).mpr hl, rfl, rfl⟩, he⟩

theorem linksOf_of_repeats {ends : Cursor → Prop} {links : List Link}
    (ho : Sound (operand inner) OperandOf) (h : Repeats ends (link inner) start links stop) :
    ∃ ts, start.Reads ts stop ∧ LinksOf ts links := by
  induction h with
  | nil => exact ⟨[], .refl _, .nil⟩
  | cons hl _ ih =>
    obtain ⟨m, hop, hx⟩ := link_ok_iff.mp hl
    obtain ⟨ts, hr, hd⟩ := ho hx
    obtain ⟨us, hr', hds⟩ := ih
    exact ⟨_, (reads_of_infixOperator hop).cons (hr.trans hr'), .cons _ _ hd hds⟩

theorem sound_expression (hi : Sound inner ExpressionOf) (hv : ReadsValues inner) :
    Sound (expression inner) ExpressionOf := by
  intro start e stop h
  have ho := sound_operand hi hv
  obtain ⟨first, mid, links, hf, hl, he⟩ := (expression_ok_iff hi.moves).mp h
  obtain ⟨ts, hr, hd⟩ := ho hf
  obtain ⟨us, hr', hd'⟩ := linksOf_of_repeats ho hl
  exact ⟨ts ++ us, hr.trans hr', .chain hd hd' he⟩

/-- Behind `name =` stands the rest of a chain, and no link of it waits for the assignment. -/
theorem readsValues_expression (hi : Sound inner ExpressionOf) (hv : ReadsValues inner) :
    ReadsValues (expression inner) := by
  intro start e stop mid name h hr
  obtain ⟨first, m, links, hf, hl, he⟩ := (expression_ok_iff hi.moves).mp h
  obtain ⟨ts, hr', hd⟩ := sound_operand hi hv hf
  obtain rfl := hd.eq_name (hr'.ahead.symm.trans hr.ahead)
  obtain ⟨m', hn, ha⟩ := hr.uncons
  obtain rfl := hn.stop_eq hr'
  cases hl with
  | nil hno =>
    obtain ⟨location, ht⟩ := infixOperator_of_reads (.assign .assign) ha
    exact (hno _ _ ht).elim
  | @cons _ m'' _ l links hl hs =>
    obtain ⟨m, hop, hx⟩ := link_ok_iff.mp hl
    have hro := reads_of_infixOperator hop
    obtain ⟨op, location, x⟩ := l
    obtain rfl : op = .assign .assign := Infix.eq_assign (Token.operator.inj (ha.head_eq hro)).symm
    obtain rfl := ha.stop_eq hro
    obtain ⟨_, value, -, -, hv⟩ := resolve_assign_ok_iff.mp he
    exact ⟨value, (expression_ok_iff hi.moves).mpr ⟨x, m'', links, hx, hs, hv⟩⟩

end Layer

theorem rejects_anyOf_nil (start : Cursor) : (anyOf ([] : List (Parser α))).Rejects start := by
  intro v stop h
  obtain ⟨p, hp, -⟩ := exists_of_anyOf h
  cases hp

/-- A rule is sound if its layer is, around a sound rule. -/
theorem sound_fix {layer : Parser α → Parser α} {rule : List Token → α → Prop}
    (h : ∀ p, Sound p rule → Sound (layer p) rule) : Sound (fix layer) rule := by
  have hn : ∀ depth, Sound (nested layer depth) rule := by
    intro depth
    induction depth with
    | zero => exact fun start v stop hp => (rejects_anyOf_nil start v stop hp).elim
    | succ depth ih => exact h _ ih
  exact fun _ _ _ hp => hn _ hp

theorem sound_nested_expression (depth : Nat) : Sound (nested Layer.expression depth) ExpressionOf ∧
    ReadsValues (nested Layer.expression depth) := by
  induction depth with
  | zero =>
    exact ⟨fun start v stop h => (rejects_anyOf_nil start v stop h).elim,
      fun start e stop mid name h => (rejects_anyOf_nil start e stop h).elim⟩
  | succ depth ih =>
    obtain ⟨hs, hv⟩ := ih
    exact ⟨Layer.sound_expression hs hv, Layer.readsValues_expression hs hv⟩

theorem sound_expression : Sound expression ExpressionOf := fun _ _ _ h =>
  (sound_nested_expression _).1 h

end FrontEnd.Grammar
