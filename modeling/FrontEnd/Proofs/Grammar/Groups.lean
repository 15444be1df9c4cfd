import FrontEnd.Proofs.ErrorPlaces
import FrontEnd.Proofs.Grammar.Diagnosis
import FrontEnd.Proofs.Grammar.Legality

/-! Parentheses in expressions. The rules read whole groups and nothing less. What is wrong inside a
group makes the group as a whole fail, so that no error of an expression points into one. -/
namespace FrontEnd.Grammar

open FrontEnd.Parser

/-- Parentheses that belong together in pairs. -/
structure Balanced (ts : List Token) : Prop where
  /-- Up to any place, no more groups are closed than were opened. -/
  closed_le : ∀ us, us <+: ts →
    us.count (.delimiter .closeParen) ≤ us.count (.delimiter .openParen)
  /-- In the end none is open. -/
  closed_eq : ts.count (.delimiter .closeParen) = ts.count (.delimiter .openParen)

namespace Balanced

variable {ts us : List Token}

theorem nil : Balanced [] where
  closed_le us h := by
    rw [List.prefix_nil.mp h]
    exact Nat.le_refl _
  closed_eq := rfl

theorem append (h : Balanced ts) (h' : Balanced us) : Balanced (ts ++ us) where
  closed_le ws hw := by
    rcases List.prefix_or_prefix_of_prefix hw (List.prefix_append ts us) with hts | ⟨vs, rfl⟩
    · exact h.closed_le ws hts
    · have hvs := h'.closed_le vs ((List.prefix_append_right_inj ts).mp hw)
      have := h.closed_eq
      simp only [List.count_append]
      omega
  closed_eq := by rw [List.count_append, List.count_append, h.closed_eq, h'.closed_eq]

/-- A token that is no parenthesis. -/
theorem single {t : Token} (ho : t ≠ .delimiter .openParen) (hc : t ≠ .delimiter .closeParen) :
    Balanced [t] where
  closed_le us h := by
    rcases List.prefix_cons_iff.mp h with rfl | ⟨ws, rfl, hw⟩
    · exact Nat.le_refl _
    · simp [List.prefix_nil.mp hw, hc]
  closed_eq := by simp [ho, hc]

theorem cons {t : Token} (ho : t ≠ .delimiter .openParen) (hc : t ≠ .delimiter .closeParen)
    (h : Balanced ts) : Balanced (t :: ts) :=
  (single ho hc).append h

theorem grouped (h : Balanced ts) :
    Balanced (.delimiter .openParen :: (ts ++ [.delimiter .closeParen])) where
  closed_le us hu := by
    rcases List.prefix_cons_iff.mp hu with rfl | ⟨ws, rfl, hw⟩
    · exact Nat.le_refl _
    rcases List.prefix_or_prefix_of_prefix hw (List.prefix_append ts _) with hts | ⟨vs, rfl⟩
    · have := h.closed_le ws hts
      simp only [List.count_cons_self, List.count_cons_of_ne, ne_eq, Token.delimiter.injEq,
        reduceCtorEq, not_false_eq_true]
      omega
    · -- All of the inside has been read, so that only the closing one may follow.
      have hvs := (List.prefix_append_right_inj ts).mp hw
      have hle := hvs.sublist.count_le (.delimiter .closeParen)
      have := h.closed_eq
      simp only [List.count_cons_self, List.count_cons_of_ne, List.count_append, List.count_nil,
        ne_eq, Token.delimiter.injEq, reduceCtorEq, not_false_eq_true] at hle ⊢
      omega
  closed_eq := by simp [h.closed_eq]

end Balanced

/-! What is read. -/

mutual

theorem ExpressionOf.balanced {ts : List Token} {e : Expression} : ExpressionOf ts e → Balanced ts
  | .chain hf hl _ => hf.balanced.append hl.balanced

theorem LinksOf.balanced {ts : List Token} {links : List Link} : LinksOf ts links → Balanced ts
  | .nil => .nil
  | .cons _ _ hx hl => .cons (by simp) (by simp) (hx.balanced.append hl.balanced)

theorem OperandOf.balanced {ts : List Token} {e : Expression} : OperandOf ts e → Balanced ts
  | .leaf hx => hx.balanced
  | .behind _ _ hx => hx.balanced.append (.single (by simp) (by simp))
  | .unary _ hx => .cons (by simp) (by simp) hx.balanced
  | .before _ _ hx => .cons (by simp) (by simp) hx.balanced

theorem LeafOf.balanced {ts : List Token} {e : Expression} : LeafOf ts e → Balanced ts
  | .boolean _ | .numeric _ _ | .textual _ _ | .var _ => .single (by simp) (by simp)
  | .call _ ha => .cons (by simp) (by simp) ha.balanced.grouped
  | .group he => he.balanced.grouped

theorem ArgumentsOf.balanced {ts : List Token} {as : List Argument} :
    ArgumentsOf ts as → Balanced ts
  | .nil => .nil
  | .single ha => ha.balanced
  | .cons ha has => ha.balanced.append (.cons (by simp) (by simp) has.balanced)

theorem ArgumentOf.balanced {ts : List Token} {a : Argument} : ArgumentOf ts a → Balanced ts
  | .named _ he => .cons (by simp) (by simp) (.cons (by simp) (by simp) he.balanced)
  | .positional he _ => he.balanced

end

theorem sound_leaf : Sound leaf LeafOf := Layer.sound_leaf sound_expression readsValues_expression

theorem sound_operand : Sound operand OperandOf :=
  Layer.sound_operand sound_expression readsValues_expression

/-! Where failures are reported. -/

variable {start mid stop : Cursor} {ts : List Token} {location : Location}
  {e : ParseError} {tokens : List (Located Token)}

/-- Every group that is opened from `start` on is closed again before `location`. -/
def OutsideGroups (start : Cursor) (location : Location) : Prop :=
  ∃ ts mid, start.Reads ts mid ∧ Balanced ts ∧ location = mid.location

theorem OutsideGroups.here (start : Cursor) : OutsideGroups start start.location :=
  ⟨[], start, .refl start, .nil, rfl⟩

theorem OutsideGroups.behind (hr : start.Reads ts mid) (hb : Balanced ts)
    (h : OutsideGroups mid location) : OutsideGroups start location := by
  obtain ⟨us, stop, hr', hb', rfl⟩ := h
  exact ⟨ts ++ us, stop, hr.trans hr', hb.append hb', rfl⟩

/-- Whatever goes wrong inside a leaf, it is the leaf that is missed. -/
theorem location_of_fails_leaf (h : leaf.Fails start e) : e.location = start.location := by
  obtain ⟨e', he, rfl⟩ := fails_label_iff.mp h
  obtain ⟨hb, -⟩ := fails_anyOf_iff.mp he
  rw [ParseError.location_expecting, fails_token ((fails_map_iff _).mp hb), location_expecting]

/-- The operators in front of a leaf are no parentheses. -/
theorem outsideGroups_of_prefixes {ops : List (Located PrefixOp)}
    (h : Repeats prefixOperator.Rejects prefixOperator start ops mid) :
    (∃ ts, start.Reads ts mid ∧ Balanced ts) ∧
      ∀ op ∈ ops, OutsideGroups start op.location := by
  induction h with
  | nil => exact ⟨⟨[], .refl _, .nil⟩, by simp⟩
  | @cons start next stop op ops ho _ ih =>
    obtain ⟨⟨ts, hr, hb⟩, hops⟩ := ih
    obtain ⟨t, hs, ht⟩ := reads_of_token ho
    have hbt : Balanced [t] := by
      apply Balanced.single
      · rintro rfl
        cases hs
      · rintro rfl
        cases hs
    refine ⟨⟨t :: ts, ht.cons hr, hbt.append hb⟩, ?_⟩
    intro op' hm
    rcases List.mem_cons.mp hm with rfl | hm
    · rw [location_of_token ho]
      exact .here start
    · exact .behind ht hbt (hops op' hm)

theorem outsideGroups_of_fails_operand (h : operand.Fails start e) :
    OutsideGroups start e.location := by
  have ha : Advances prefixOperator := advances_token _ _
  rcases fails_andThen_iff.mp h with h | ⟨⟨ops, x, behind⟩, stop, hp, he⟩
  · rcases fails_bind_iff.mp h with h | ⟨ops, mid, ho, h⟩
    · exact ((NeverFails.many _).not_fails h).elim
    obtain ⟨⟨ts, hr, hb⟩, -⟩ := outsideGroups_of_prefixes ((many_ok_iff ha).mp ho)
    rcases fails_bind_iff.mp h with h | ⟨x, mid', -, h⟩
    · rw [location_of_fails_leaf h]
      exact .behind hr hb (.here mid)
    rcases fails_bind_iff.mp h with h | ⟨behind, stop, -, h⟩
    · exact ((NeverFails.optional _).not_fails h).elim
    · exact (not_fails_pure _ h).elim
  · simp only [bind_ok_iff, pure_ok_iff] at hp
    obtain ⟨_, mid, ho, _, mid', hx, _, _, hbehind, ⟨⟩, rfl⟩ := hp
    obtain ⟨⟨ts, hr, hb⟩, hops⟩ := outsideGroups_of_prefixes ((many_ok_iff ha).mp ho)
    have hm := (judged_applyAround ops x behind).mem_of_error he
    obtain ⟨op, hop, hl⟩ | ⟨op, hop, hl⟩ := mem_of_faultsAround hm
    · exact hl ▸ hops op hop
    · obtain ⟨us, hr', hd⟩ := sound_leaf hx
      obtain ⟨_, ⟨⟩, ht⟩ | ⟨-, rfl, -⟩ := optional_ok_iff.mp hbehind
      · cases hop
        rw [← hl, location_of_token ht]
        exact .behind (hr.trans hr') (hb.append hd.balanced) (.here mid')
      · cases hop

theorem outsideGroups_of_links {ends : Cursor → Prop} {links : List Link}
    (h : Repeats ends (Layer.link expression) start links stop) :
    ∀ link ∈ links, OutsideGroups start link.location := by
  induction h with
  | nil => simp
  | cons hl _ ih =>
    obtain ⟨m, hop, hx⟩ := Layer.link_ok_iff.mp hl
    have hro := reads_of_infixOperator hop
    obtain ⟨us, hr, hd⟩ := sound_operand hx
    intro link hm
    rcases List.mem_cons.mp hm with rfl | hm
    · rw [show link.location = _ from location_of_token hop]
      exact .here _
    · exact .behind (hro.cons hr) (.cons (by simp) (by simp) hd.balanced) (ih link hm)

/-- An operator stands here, and reading an operand behind it fails with `e`. -/
def BreaksOff (e : ParseError) (cursor : Cursor) : Prop :=
  ∃ op next, infixOperator cursor = .ok op next ∧ operand.Fails next e

/-- An expression fails at its first operand, at an operand behind an operator, or as a whole chain
that stands for no tree. -/
theorem cases_of_fails_expression (h : expression.Fails start e) :
    operand.Fails start e ∨ ∃ first mid links stop, operand start = .ok first mid ∧
      (Repeats (BreaksOff e) (Layer.link expression) mid links stop ∨
        Repeats infixOperator.Rejects (Layer.link expression) mid links stop ∧
          resolve first links = .error e) := by
  have ha : Advances infixOperator := advances_token _ _
  rw [expression_eq] at h
  rcases fails_andThen_iff.mp h with h | ⟨⟨first, links⟩, stop, hp, he⟩
  · rcases fails_bind_iff.mp h with h | ⟨first, mid, hf, h⟩
    · exact Or.inl h
    rcases fails_bind_iff.mp h with h | ⟨links, stop, -, h⟩
    · obtain ⟨links, stop, op, next, hl, hop, hx⟩ := exists_rounds_of_fails_committed h
      exact Or.inr ⟨first, mid, links, stop, hf,
        Or.inl (hl.ending ⟨op, next, hop, (fails_map_iff _).mp hx⟩)⟩
    · exact (not_fails_pure _ h).elim
  · simp only [Layer.chain, bind_ok_iff, pure_ok_iff] at hp
    obtain ⟨_, mid, hf, _, stop, hl, ⟨⟩, rfl⟩ := hp
    have hl' := (committed_ok_iff ha (Layer.moves_link moves_expression)).mp hl
    exact Or.inr ⟨first, mid, links, stop, hf, Or.inr ⟨hl', he⟩⟩

theorem outsideGroups_of_fails_expression (h : expression.Fails start e) :
    OutsideGroups start e.location := by
  rcases cases_of_fails_expression h with h | ⟨first, mid, links, stop, hf, h⟩
  · exact outsideGroups_of_fails_operand h
  obtain ⟨ts, hr, hd⟩ := sound_operand hf
  refine .behind hr hd.balanced ?_
  rcases h with hl | ⟨hl, he⟩
  · obtain ⟨us, hr', hd'⟩ := Layer.linksOf_of_repeats sound_operand hl
    obtain ⟨op, next, hop, hx⟩ := hl.ends_stop
    refine .behind hr' hd'.balanced ?_
    refine .behind (reads_of_infixOperator hop) (.single (by simp) (by simp)) ?_
    exact outsideGroups_of_fails_operand hx
  · have hm := (judged_resolve first links).mem_of_error he
    obtain ⟨link, hm, hloc⟩ := mem_of_untargeted hm
    exact hloc ▸ outsideGroups_of_links hl link hm

/-! The tokens in front of an error. -/

/-- The tokens that start before `location`. -/
def upTo (location : Location) (tokens : List (Located Token)) : List (Located Token) :=
  tokens.filter fun t => t.location.offset < location.offset

theorem upTo_after {last : Located Token} (h : InOrder tokens) (hl : tokens.getLast? = some last) :
    upTo last.location.after tokens = tokens := by
  rw [upTo, List.filter_eq_self]
  intro t ht
  obtain ⟨i, hi⟩ := List.mem_iff_getElem?.mp ht
  exact decide_eq_true (h.offset_lt_end hi hl)

/-- Since the tokens are in order, those up to the place of one are those before it in the list. -/
theorem upTo_forward (h : InOrder tokens) (k : Nat) :
    upTo ((Cursor.ofTokens tokens).forward k).location tokens = tokens.take k := by
  rw [Cursor.location_forward_ofTokens]
  cases ht : tokens[k]? with
  | some t =>
    have hbefore : (tokens.take k).filter (fun a => a.location.offset < t.location.offset) =
        tokens.take k := by
      rw [List.filter_eq_self]
      intro a ha
      obtain ⟨i, hi⟩ := List.mem_iff_getElem?.mp ha
      rw [List.getElem?_take] at hi
      split at hi
      · next hik => exact decide_eq_true (h.offset_lt hi ht hik)
      · cases hi
    have hbehind :
        (tokens.drop k).filter (fun a => a.location.offset < t.location.offset) = [] := by
      rw [List.filter_eq_nil_iff]
      intro a ha
      obtain ⟨i, hi⟩ := List.mem_iff_getElem?.mp ha
      rw [List.getElem?_drop] at hi
      have hle := (h.offset_le_iff ht hi).mpr (Nat.le_add_right k i)
      simpa using hle
    calc upTo t.location tokens
        = upTo t.location (tokens.take k ++ tokens.drop k) := by rw [List.take_append_drop]
      _ = tokens.take k := by rw [upTo, List.filter_append, hbefore, hbehind, List.append_nil]
  | none =>
    rw [List.take_of_length_le (List.getElem?_eq_none_iff.mp ht)]
    cases hl : tokens.getLast? with
    | some last => exact upTo_after h hl
    | none =>
      rw [List.getLast?_eq_none_iff.mp hl]
      rfl

/-- What comes before a place outside all groups is balanced. -/
theorem OutsideGroups.balanced_upTo (h : InOrder tokens)
    (ho : OutsideGroups (.ofTokens tokens) location) :
    Balanced ((upTo location tokens).map Located.value) := by
  obtain ⟨ts, mid, hr, hb, rfl⟩ := ho
  have ha := hr.ahead
  rw [Cursor.ahead_ofTokens] at ha
  rw [eq_forward_of_reads hr, upTo_forward h, List.map_take, ha, List.take_left]
  exact hb

theorem outsideGroups_of_parseExpression (h : parseExpression tokens = .error e) :
    OutsideGroups (.ofTokens tokens) e.location := by
  rcases fails_thenSkip_iff.mp (run_error_iff.mp h) with hf | ⟨v, stop, hv, hf⟩
  · exact outsideGroups_of_fails_expression hf
  · obtain ⟨ts, hr, hd⟩ := sound_expression hv
    rw [location_of_fails_endOfInput hf]
    exact .behind hr hd.balanced (.here stop)

/-- The rules for expressions read balanced tokens, and when an expression does not parse, the
tokens before the place of the error are balanced too: all of them when the tokens end too soon. -/
theorem outside_groups :
    (∀ rule ∈ [expression, operand, leaf], ∀ start e stop, rule start = .ok e stop →
      ∃ ts, start.Reads ts stop ∧ Balanced ts) ∧
    ∀ tokens error, InOrder tokens → parseExpression tokens = .error error →
      Balanced ((upTo error.location tokens).map Located.value) ∧
        ∀ expected, error.kind = .endOfStream expected → upTo error.location tokens = tokens := by
  constructor
  · refine List.forall_iff_forall_mem.mp ?_
    refine ⟨fun start e stop h => ?_, fun start e stop h => ?_, fun start e stop h => ?_⟩
    · obtain ⟨ts, hr, hd⟩ := sound_expression h
      exact ⟨ts, hr, hd.balanced⟩
    · obtain ⟨ts, hr, hd⟩ := sound_operand h
      exact ⟨ts, hr, hd.balanced⟩
    · obtain ⟨ts, hr, hd⟩ := sound_leaf h
      exact ⟨ts, hr, hd.balanced⟩
  · intro tokens error h he
    refine ⟨(outsideGroups_of_parseExpression he).balanced_upTo h, ?_⟩
    intro expected hk
    cases truthful_of_run (lockstep_expression.thenSkip .endOfInput) he with
    | about _ hb =>
      cases hk
      cases hb
    | pastEnd hl => exact upTo_after h hl
    | empty hn =>
      rw [hn]
      rfl

/-- In `(a) + f(5++)` the step is refused inside the arguments, so that `f` is no call, and it is
the parenthesis behind it that is one too many. -/
theorem outside_groups_refused_argument :
    let place (offset length : Nat) : Location := ⟨⟨0⟩, offset, length⟩
    let group : List (Located Token) := [⟨.delimiter .openParen, place 0 1⟩,
      ⟨.identifier "a", place 1 1⟩, ⟨.delimiter .closeParen, place 2 1⟩]
    let call : List (Located Token) := [⟨.operator .plus, place 4 1⟩, ⟨.identifier "f", place 6 1⟩,
      ⟨.delimiter .openParen, place 7 1⟩, ⟨.numeric "5" none, place 8 1⟩,
      ⟨.operator .plusPlus, place 9 2⟩, ⟨.delimiter .closeParen, place 11 1⟩]
    (∃ stop, leaf (.ofTokens group) = .ok (.var "a") stop ∧
      ∃ ts, (Cursor.ofTokens group).Reads ts stop ∧ Balanced ts) ∧
    parseExpression (group ++ call) =
        .error (.trailing ⟨.delimiter .openParen, place 7 1⟩) ∧
      Balanced ((upTo (place 7 1) (group ++ call)).map Located.value) := by
  intro place group call
  obtain ⟨stop, hl, -⟩ : ∃ stop, leaf (.ofTokens group) = .ok (.var "a") stop ∧ stop.ahead = [] :=
    whole_of_leafOf (.group (.chain (.leaf (.var "a")) .nil rfl))
  have he : parseExpression (group ++ call) =
      .error (.trailing ⟨.delimiter .openParen, place 7 1⟩) := by decide +kernel
  refine ⟨⟨stop, hl, outside_groups.1 leaf (by simp) _ _ _ hl⟩, he, ?_⟩
  exact (outside_groups.2 _ _ ⟨by decide, by decide⟩ he).1

end FrontEnd.Grammar
