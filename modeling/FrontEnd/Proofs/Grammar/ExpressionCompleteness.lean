import FrontEnd.Proofs.Grammar.ExpressionSoundness

/-! What the grammar derives, the parser reads, provided that what follows cannot be taken for more
of it. -/
namespace FrontEnd

/-- The next token, if there is one, is of the kind. -/
def Cursor.NextIs (cursor : Cursor) (kind : Token → Prop) : Prop :=
  ∀ t ∈ cursor.ahead.head?, kind t

theorem Cursor.NextIs.mono {cursor : Cursor} {kind kind' : Token → Prop} (h : cursor.NextIs kind)
    (hk : ∀ t, kind t → kind' t) : cursor.NextIs kind' := fun t ht => hk t (h t ht)

namespace Grammar

open FrontEnd.Parser

variable {α β : Type} {p q : Parser α} {start mid stop : Cursor} {t : Token} {ts us : List Token}
  {kind opens : Token → Prop} {e x : Expression}

theorem nextIs_of_reads (h : start.Reads (t :: ts) stop) (ht : kind t) : start.NextIs kind := by
  intro t' ht'
  rw [h.ahead] at ht'
  cases ht'
  exact ht

theorem nextIs_of_end (h : start.ahead = []) : start.NextIs kind := by
  intro t ht
  simp [h] at ht

/-- Every success of `p` starts with a token of the kind. -/
def Opens (p : Parser α) (kind : Token → Prop) : Prop :=
  ∀ ⦃start : Cursor⦄ ⦃v : α⦄ ⦃stop : Cursor⦄, p start = .ok v stop →
    ∃ t ts, start.Reads (t :: ts) stop ∧ kind t

namespace Opens

theorem rejects (h : Opens p opens) (hn : start.NextIs kind) (hd : ∀ t, kind t → ¬ opens t) :
    p.Rejects start := by
  intro v stop hp
  obtain ⟨t, ts, hr, ht⟩ := h hp
  exact hd t (hn t (by simp [hr.ahead])) ht

theorem head (h : Opens p opens) (hr : start.Reads (t :: ts) mid) {v : α}
    (hp : p start = .ok v stop) : opens t := by
  obtain ⟨t', ts', hr', ht⟩ := h hp
  exact hr.head_eq hr' ▸ ht

theorem token (expected : String) (select : Token → Option α) :
    Opens (token expected select) fun t => (select t).isSome := by
  intro start v stop h
  obtain ⟨t, hs, hr⟩ := reads_of_token h
  exact ⟨t, [], hr, by simp [hs]⟩

theorem exactly (t : Token) : Opens (exactly t) (· = t) := by
  intro start v stop h
  exact ⟨t, [], reads_of_exactly h, rfl⟩

theorem map {p : Parser α} (f : α → β) (h : Opens p opens) : Opens (f <$> p) opens := by
  intro start w stop hp
  obtain ⟨v, hv, -⟩ := map_ok_iff.mp hp
  exact h hv

theorem bind {p : Parser α} {f : α → Parser β} (h : Opens p opens) (hf : ∀ a, Moves (f a)) :
    Opens (p >>= f) opens := by
  intro start w stop hp
  obtain ⟨v, mid, hv, hw⟩ := bind_ok_iff.mp hp
  obtain ⟨t, ts, hr, ht⟩ := h hv
  obtain ⟨us, hs⟩ := hf v hw
  exact ⟨t, ts ++ us, hr.trans hs, ht⟩

theorem atomic (h : Opens p opens) : Opens (atomic p) opens :=
  fun _ _ _ hp => h (atomic_ok_iff.mp hp)

theorem pair {p : Parser α} {q : Parser β} (h : Opens p opens) (hq : Moves q) :
    Opens (p.pair q) opens :=
  atomic (bind h fun _ => hq.bind fun _ => .pure _)

theorem skipThen {p : Parser α} {q : Parser β} (h : Opens p opens) (hq : Moves q) :
    Opens (p.skipThen q) opens :=
  atomic (bind h fun _ => hq)

theorem thenSkip {p : Parser α} {q : Parser β} (h : Opens p opens) (hq : Moves q) :
    Opens (p.thenSkip q) opens :=
  atomic (bind h fun _ => hq.bind fun _ => .pure _)

theorem of_sound {rule : List Token → α → Prop} (hs : Sound p rule)
    (h : ∀ ts v, rule ts v → ∃ t us, ts = t :: us ∧ opens t) : Opens p opens := by
  intro start v stop hp
  obtain ⟨ts, hr, hd⟩ := hs hp
  obtain ⟨t, us, rfl, ht⟩ := h ts v hd
  exact ⟨t, us, hr, ht⟩

end Opens

/-! Expressions. -/

/-- What may stand behind an expression. -/
def EndsExpression (t : Token) : Prop :=
  t = .delimiter .closeParen ∨ t = .delimiter .comma ∨ t = .delimiter .semicolon

/-- What may stand behind an operand. -/
def EndsOperand (t : Token) : Prop := EndsExpression t ∨ ∃ op : Infix, t = .operator op.operator

theorem EndsOperand.rejects_postfix (h : stop.NextIs EndsOperand) :
    postfixOperator.Rejects stop := by
  apply (Opens.token _ _).rejects h
  rintro t ((rfl | rfl | rfl) | ⟨op, rfl⟩)
  · simp
  · simp
  · simp
  · rcases op with op | op <;> cases op <;>
      simp [Infix.operator, BinaryOp.operator, AssignOp.operator]

theorem EndsOperand.ne_openParen (h : EndsOperand t) : t ≠ .delimiter .openParen := by
  rcases h with (rfl | rfl | rfl) | ⟨op, rfl⟩ <;> simp

theorem EndsExpression.rejects_infix (h : stop.NextIs EndsExpression) :
    infixOperator.Rejects stop := by
  apply (Opens.token _ _).rejects h
  rintro t (rfl | rfl | rfl) <;> simp

theorem LinksOf.nextIs {links : List Link} (h : LinksOf ts links) (hr : start.Reads ts stop)
    (hn : stop.NextIs EndsExpression) : start.NextIs EndsOperand := by
  cases h with
  | nil =>
    obtain rfl := hr.stop_eq (.refl start)
    exact hn.mono fun t ht => Or.inl ht
  | cons op location hx hl => exact nextIs_of_reads hr (Or.inr ⟨op, rfl⟩)

/-- Which alternative of a leaf a token can open. -/
inductive LeafChoice : Token → Parser Expression → Prop
  | boolean (word : Keyword) (hw : word = .trueWord ∨ word = .falseWord) :
      LeafChoice (.keyword word) boolean
  | numeric (value : String) (unit : Option String) : LeafChoice (.numeric value unit) numeric
  | textual (value : String) (unit : Option String) : LeafChoice (.textual value unit) textual
  | call (name : String) : LeafChoice (.identifier name) call
  | var (name : String) : LeafChoice (.identifier name) variableRead
  | group : LeafChoice (.delimiter .openParen) parenthesized

theorem leafChoice_of_ok {q : Parser Expression}
    (hq : q ∈ [boolean, numeric, textual, call, variableRead, parenthesized])
    (hr : start.Reads (t :: ts) mid) (h : q start = .ok e stop) : LeafChoice t q := by
  simp only [List.mem_cons, List.not_mem_nil, or_false] at hq
  rcases hq with rfl | rfl | rfl | rfl | rfl | rfl
  · have ht := ((Opens.token _ _).map _).head hr h
    split at ht
    · exact .boolean _ (Or.inl rfl)
    · exact .boolean _ (Or.inr rfl)
    · cases ht
  · have ht := ((Opens.token _ _).map _).head hr h
    split at ht
    · exact .numeric _ _
    · cases ht
  · have ht := ((Opens.token _ _).map _).head hr h
    split at ht
    · exact .textual _ _
    · cases ht
  · have ht := (((Opens.token _ _).pair (Layer.moves_arguments moves_expression)).map _).head hr h
    split at ht
    · exact .call _
    · cases ht
  · have ht := ((Opens.token _ _).map _).head hr h
    split at ht
    · exact .var _
    · cases ht
  · obtain rfl := (((Opens.exactly _).skipThen moves_expression).thenSkip
      (advances_delimiter _).moves).head hr h
    exact .group

/-- A leaf is what the one alternative reads that its first token opens, or that reads furthest. -/
theorem leaf_of_choice {q : Parser Expression} (hr : start.Reads (t :: ts) mid)
    (hc : LeafChoice t q) (h : q start = .ok x stop)
    (hb : ∀ q', LeafChoice t q' → q' = q ∨
      ∀ v stop', q' start = .ok v stop' → stop'.index < stop.index) :
    leaf start = .ok x stop := by
  have hm : q ∈ [boolean, numeric, textual, call, variableRead, parenthesized] := by
    cases hc <;> simp
  refine label_ok_iff.mpr (anyOf_of_best hm h ?_)
  intro q' hq v stop' hv
  rcases hb q' (leafChoice_of_ok hq hr hv) with rfl | hlt
  · exact Or.inl (ok_unique hv h)
  · exact Or.inr (hlt v stop' hv)

theorem leaf_of_boolean {value : Bool}
    (hr : start.Reads [.keyword (if value then .trueWord else .falseWord)] stop) :
    leaf start = .ok (.boolean value) stop := by
  have h : boolean start = .ok (.boolean value) stop :=
    map_token_of_reads (v := value) hr (by cases value <;> rfl) fun _ => rfl
  apply leaf_of_choice hr (.boolean _ (by cases value <;> simp)) h
  intro q' hq
  cases hq
  exact Or.inl rfl

theorem leaf_of_numeric {value : String} {unit : Option String}
    (hr : start.Reads [.numeric value unit] stop) :
    leaf start = .ok (.numeric value unit) stop := by
  refine leaf_of_choice hr (.numeric value unit) (map_token_of_reads hr rfl fun _ => rfl) ?_
  intro q' hq
  cases hq
  exact Or.inl rfl

theorem leaf_of_textual {value : String} {unit : Option String}
    (hr : start.Reads [.textual value unit] stop) :
    leaf start = .ok (.textual value unit) stop := by
  refine leaf_of_choice hr (.textual value unit) (map_token_of_reads hr rfl fun _ => rfl) ?_
  intro q' hq
  cases hq
  exact Or.inl rfl

theorem call_of_reads {function : String} {arguments : List Argument}
    (hr : start.Reads (.identifier function :: .delimiter .openParen ::
      (ts ++ [.delimiter .closeParen])) stop)
    (ha : ∀ m m', m.Reads ts m' → m'.NextIs (· = .delimiter .closeParen) →
      Lists argument (delimiter .comma) m arguments m') :
    call start = .ok (.call function arguments) stop := by
  obtain ⟨m, hf, hr⟩ := hr.uncons
  obtain ⟨m', ho, hr⟩ := hr.uncons
  obtain ⟨m'', hts, hc⟩ := hr.split
  have ha' := ha m' m'' hts (nextIs_of_reads hc rfl)
  obtain ⟨_, hf⟩ := identifier_of_reads hf
  obtain ⟨_, ho⟩ := exactly_of_reads ho
  obtain ⟨_, hc⟩ := exactly_of_reads hc
  have hs := (separated_ok_iff (Layer.moves_argument moves_expression)
    (advances_delimiter .comma)).mpr ha'
  have has := thenSkip_ok_iff.mpr ⟨m'', _, skipThen_ok_iff.mpr ⟨_, m', ho, hs⟩, hc⟩
  exact map_ok_iff.mpr ⟨_, pair_of_ok hf has, rfl⟩

theorem leaf_of_call {function : String} {arguments : List Argument}
    (hr : start.Reads (.identifier function :: t :: ts) stop)
    (h : call start = .ok (.call function arguments) stop) :
    leaf start = .ok (.call function arguments) stop := by
  refine leaf_of_choice hr (.call function) h ?_
  intro q' hq
  cases hq with
  | call => exact Or.inl rfl
  | var =>
    apply Or.inr
    intro v stop' hv
    obtain ⟨name, hn, -⟩ := map_ok_iff.mp hv
    rw [(reads_of_identifier hn).index, hr.index]
    simp

theorem leaf_of_name {name : String} (hr : start.Reads [.identifier name] stop)
    (hn : stop.NextIs (· ≠ .delimiter .openParen)) : leaf start = .ok (.var name) stop := by
  obtain ⟨location, hi⟩ := identifier_of_reads hr
  refine leaf_of_choice hr (.var name) (map_ok_iff.mpr ⟨_, hi, rfl⟩) ?_
  intro q' hq
  cases hq with
  | call =>
    apply Or.inr
    intro v stop' hv
    obtain ⟨⟨function, arguments⟩, hp, -⟩ := map_ok_iff.mp hv
    obtain ⟨m, hf, has⟩ := pair_ok_iff.mp hp
    obtain ⟨m', _, has, -⟩ := thenSkip_ok_iff.mp has
    obtain ⟨_, m'', ho, -⟩ := skipThen_ok_iff.mp has
    have hf := reads_of_identifier hf
    cases hr.head_eq hf
    obtain rfl := hr.stop_eq hf
    exact (hn _ (by simp [(reads_of_exactly ho).ahead]) rfl).elim
  | var => exact Or.inl rfl

theorem leaf_of_group
    (hr : start.Reads (.delimiter .openParen :: (ts ++ [.delimiter .closeParen])) stop)
    (he : ∀ m m', m.Reads ts m' → m'.NextIs EndsExpression → expression m = .ok e m') :
    leaf start = .ok e stop := by
  obtain ⟨m, ho, hr'⟩ := hr.uncons
  obtain ⟨m', hts, hc⟩ := hr'.split
  have he' := he m m' hts (nextIs_of_reads hc (Or.inl rfl))
  obtain ⟨_, ho⟩ := exactly_of_reads ho
  obtain ⟨_, hc⟩ := exactly_of_reads hc
  have hg : parenthesized start = .ok e stop :=
    thenSkip_ok_iff.mpr ⟨m', _, skipThen_ok_iff.mpr ⟨_, m, ho, he'⟩, hc⟩
  apply leaf_of_choice hr .group hg
  intro q' hq
  cases hq
  exact Or.inl rfl

/-! Operands, by the operators around their leaf. -/

theorem prefixOperator_rejects (hr : start.Reads (t :: ts) stop) (ht : StartsLeaf t) :
    prefixOperator.Rejects start := by
  apply (Opens.token _ _).rejects (nextIs_of_reads hr ht)
  intro t ht
  split <;> simp_all [StartsLeaf]

theorem operand_of_leaf {behind : Option (Located StepOp)} (hr : start.Reads (t :: ts) stop)
    (ht : StartsLeaf t) (hx : leaf start = .ok x mid)
    (hb : optional postfixOperator mid = .ok behind stop)
    (he : applyAround [] x behind = .ok e) : operand start = .ok e stop :=
  Layer.operand_ok_iff.mpr
    ⟨[], start, x, mid, behind, .nil (prefixOperator_rejects hr ht), hx, hb, he⟩

theorem applyAround_cons (op : Located PrefixOp) (ops : List (Located PrefixOp))
    (leaf : Expression) (behind : Option (Located StepOp)) :
    applyAround (op :: ops) leaf behind = applyAround ops leaf behind >>= applyPrefix op := by
  cases behind <;> simp [applyAround]

theorem operand_cons {op : Located PrefixOp} (ho : prefixOperator start = .ok op mid)
    (hx : operand mid = .ok x stop) (he : applyPrefix op x = .ok e) :
    operand start = .ok e stop := by
  obtain ⟨ops, m, y, m', behind, hops, hy, hb, hx⟩ := Layer.operand_ok_iff.mp hx
  refine Layer.operand_ok_iff.mpr ⟨op :: ops, m, y, m', behind, .cons ho hops, hy, hb, ?_⟩
  rw [applyAround_cons]
  exact except_bind_ok_iff.mpr ⟨x, hx, he⟩

theorem prefixOperator_of_unary (op : UnaryOp) (h : start.Reads [.operator op.operator] stop) :
    ∃ location, prefixOperator start = .ok ⟨.unary op, location⟩ stop :=
  token_of_reads h (by cases op <;> rfl)

theorem prefixOperator_of_step {op : StepOp} (hop : op.isPre = true)
    (h : start.Reads [.operator op.operator] stop) :
    ∃ location, prefixOperator start = .ok ⟨.step op, location⟩ stop :=
  token_of_reads h (by cases op <;> first | rfl | cases hop)

theorem postfixOperator_of_step {op : StepOp} (hop : op.isPre = false)
    (h : start.Reads [.operator op.operator] stop) :
    ∃ location, postfixOperator start = .ok ⟨op, location⟩ stop :=
  token_of_reads h (by cases op <;> first | rfl | cases hop)

theorem opens_expression : Opens expression StartsExpression :=
  .of_sound sound_expression fun _ _ h => h.start

theorem opens_argument : Opens argument StartsExpression := by
  intro start a stop h
  rcases orElse_ok_iff.mp h with h | ⟨-, h⟩
  · have hn : Opens (identifier.thenSkip (operator .assign)) _ :=
      (Opens.token _ _).thenSkip (advances_operator _).moves
    obtain ⟨t, ts, hr, ht⟩ := ((hn.pair moves_expression).map _) h
    refine ⟨t, ts, hr, ?_⟩
    split at ht
    · trivial
    · cases ht
  · exact (opens_expression.map _) h

/-- What starts like a named argument is none other. -/
theorem argument_of_positional (he : expression start = .ok e stop) (hr : start.Reads ts stop)
    (hd : ExpressionOf ts e) (hn : ∀ name us, ts ≠ .identifier name :: .operator .assign :: us)
    (hs : stop.NextIs EndsExpression) : argument start = .ok (.positional e) stop := by
  refine orElse_ok_iff.mpr (Or.inr ⟨?_, map_ok_iff.mpr ⟨e, he, rfl⟩⟩)
  intro a stop' h
  obtain ⟨⟨name, v⟩, hp, -⟩ := map_ok_iff.mp h
  obtain ⟨m, hna, -⟩ := pair_ok_iff.mp hp
  obtain ⟨m', _, hi, ha⟩ := thenSkip_ok_iff.mp hna
  have hna := (reads_of_identifier hi).cons (reads_of_exactly ha)
  have hahead := hr.ahead.symm.trans hna.ahead
  obtain ⟨t, us, rfl, -⟩ := hd.start
  cases us with
  | nil =>
    have := hs (.operator .assign) (by simp_all)
    simp [EndsExpression] at this
  | cons t' us =>
    simp only [List.cons_append, List.cons.injEq] at hahead
    obtain ⟨rfl, rfl, -⟩ := hahead
    exact hn _ _ rfl

mutual

theorem ExpressionOf.complete {ts : List Token} {e : Expression} {start stop : Cursor} :
    ExpressionOf ts e → start.Reads ts stop → stop.NextIs EndsExpression →
      expression start = .ok e stop
  | .chain hf hl he, hr, hn => by
    obtain ⟨mid, hrf, hrl⟩ := hr.split
    obtain ⟨links, hl', hb⟩ := hl.complete hrl hn
    have hf' := hf.complete hrf (hl.nextIs hrl hn)
    rw [expression_eq]
    exact (Layer.expression_ok_iff moves_expression).mpr
      ⟨_, mid, links, hf', hl', resolve_of_bare hb.symm he⟩

/-- The locations of the operators are those of the tokens. -/
theorem LinksOf.complete {ts : List Token} {links : List Link} {start stop : Cursor} :
    LinksOf ts links → start.Reads ts stop → stop.NextIs EndsExpression →
      ∃ links', Repeats infixOperator.Rejects (Layer.link expression) start links' stop ∧
        links'.map Link.bare = links.map Link.bare
  | .nil, hr, hn => by
    obtain rfl := hr.stop_eq (.refl start)
    exact ⟨[], .nil (EndsExpression.rejects_infix hn), rfl⟩
  | .cons op location hx hl, hr, hn => by
    obtain ⟨m, ho, hr⟩ := hr.uncons
    obtain ⟨m', hrx, hrl⟩ := hr.split
    obtain ⟨links, hl', hb⟩ := hl.complete hrl hn
    have hx' := hx.complete hrx (hl.nextIs hrl hn)
    obtain ⟨location', ho⟩ := infixOperator_of_reads op ho
    refine ⟨⟨op, location', _⟩ :: links, .cons (Layer.link_ok_iff.mpr ⟨m, ho, hx'⟩) hl', ?_⟩
    simp [hb, Link.bare]

theorem OperandOf.complete {ts : List Token} {e : Expression} {start stop : Cursor} :
    OperandOf ts e → start.Reads ts stop → stop.NextIs EndsOperand → operand start = .ok e stop
  | .leaf hx, hr, hn => by
    have hx' := hx.complete hr (hn.mono fun t ht => ht.ne_openParen)
    obtain ⟨t, us, rfl, ht⟩ := hx.start
    exact operand_of_leaf hr ht hx' (optional_of_rejects (EndsOperand.rejects_postfix hn)) rfl
  | .behind op hop hx, hr, hn => by
    obtain ⟨m, hrx, hro⟩ := hr.split
    have hx' := hx.complete hrx (nextIs_of_reads hro (by simp))
    obtain ⟨t, us, rfl, ht⟩ := hx.start
    obtain ⟨location, ho⟩ := postfixOperator_of_step hop hro
    exact operand_of_leaf hr ht hx' (optional_of_ok ho) rfl
  | .unary op hx, hr, hn => by
    obtain ⟨m, hro, hrx⟩ := hr.uncons
    obtain ⟨location, ho⟩ := prefixOperator_of_unary op hro
    exact operand_cons ho (hx.complete hrx hn) rfl
  | .before op hop hx, hr, hn => by
    obtain ⟨m, hro, hrx⟩ := hr.uncons
    obtain ⟨location, ho⟩ := prefixOperator_of_step hop hro
    exact operand_cons ho (hx.complete hrx hn) rfl

theorem LeafOf.complete {ts : List Token} {e : Expression} {start stop : Cursor} :
    LeafOf ts e → start.Reads ts stop → stop.NextIs (· ≠ .delimiter .openParen) →
      leaf start = .ok e stop
  | .boolean value, hr, _ => leaf_of_boolean hr
  | .numeric value unit, hr, _ => leaf_of_numeric hr
  | .textual value unit, hr, _ => leaf_of_textual hr
  | .var name, hr, hn => leaf_of_name hr hn
  | .call function ha, hr, _ => leaf_of_call hr (call_of_reads hr fun _ _ h hn => ha.complete h hn)
  | .group he, hr, _ => leaf_of_group hr fun _ _ h hn => he.complete h hn

theorem ArgumentsOf.complete {ts : List Token} {as : List Argument} {start stop : Cursor} :
    ArgumentsOf ts as → start.Reads ts stop → stop.NextIs (· = .delimiter .closeParen) →
      Lists argument (delimiter .comma) start as stop
  | .nil, hr, hn => by
    obtain rfl := hr.stop_eq (.refl start)
    refine .nil (opens_argument.rejects hn ?_)
    rintro t rfl
    exact id
  | .single ha, hr, hn => by
    refine .last (ha.complete hr (hn.mono fun t ht => Or.inl ht)) ((Opens.exactly _).rejects hn ?_)
    rintro t rfl
    simp
  | .cons ha has, hr, hn => by
    obtain ⟨m, hra, hr⟩ := hr.split
    obtain ⟨m', hc, hras⟩ := hr.uncons
    have ha' := ha.complete hra (nextIs_of_reads hc (Or.inr (Or.inl rfl)))
    obtain ⟨_, hc⟩ := exactly_of_reads hc
    exact .cons ha' hc (has.complete hras hn)

theorem ArgumentOf.complete {ts : List Token} {a : Argument} {start stop : Cursor} :
    ArgumentOf ts a → start.Reads ts stop → stop.NextIs EndsExpression →
      argument start = .ok a stop
  | .named name he, hr, hn => by
    obtain ⟨m, hi, hr⟩ := hr.uncons
    obtain ⟨m', ha, hre⟩ := hr.uncons
    have he' := he.complete hre hn
    obtain ⟨_, hi⟩ := identifier_of_reads hi
    obtain ⟨_, ha⟩ := exactly_of_reads ha
    have hna := thenSkip_ok_iff.mpr ⟨m, _, hi, ha⟩
    exact orElse_ok_iff.mpr (Or.inl (map_ok_iff.mpr ⟨_, pair_of_ok hna he', rfl⟩))
  | .positional he hn, hr, hs =>
    argument_of_positional (he.complete hr hs) hr he hn hs

end

end Grammar

end FrontEnd
