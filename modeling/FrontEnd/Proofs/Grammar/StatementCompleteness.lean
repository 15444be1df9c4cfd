import FrontEnd.Proofs.Grammar.ExpressionCompleteness
import FrontEnd.Proofs.Grammar.StatementSoundness

/-! What the grammar derives as a statement, a definition or a program, its rule reads. -/
namespace FrontEnd.Grammar

open FrontEnd.Parser

variable {α : Type} {p : Parser α} {start mid stop : Cursor} {t : Token} {ts us : List Token}
  {e : Expression} {kind : Token → Prop}

/-! The tokens that open each construct. -/

theorem opens_block : Opens block (· = .delimiter .openBrace) := by
  refine .of_sound sound_block fun ts items h => ?_
  cases h
  exact ⟨_, _, rfl, rfl⟩

theorem opens_ifStatement : Opens ifStatement (· = .keyword .ifWord) := by
  refine .of_sound (Layer.sound_fix_ifStatement sound_block) fun ts s h => ?_
  cases h <;> exact ⟨_, _, rfl, rfl⟩

theorem opens_whileStatement : Opens whileStatement (· = .keyword .whileWord) :=
  (((Opens.exactly _).skipThen moves_condition).pair moves_block).map _

theorem opens_returnStatement : Opens returnStatement (· = .keyword .returnWord) :=
  (((Opens.exactly _).skipThen moves_expression.optional).thenSkip
    (advances_delimiter _).moves).map _

theorem opens_expressionStatement : Opens expressionStatement StartsExpression :=
  (opens_expression.thenSkip (advances_delimiter _).moves).map _

theorem opens_statement : Opens statement StartsStatement :=
  .of_sound (Layer.sound_statement sound_block) fun _ _ h => h.start

theorem opens_variableDefinition : Opens variableDefinition (· = .keyword .varWord) :=
  ((((Opens.exactly _).skipThen (advances_identifier.moves.label _)).pair
    ((advances_operator _).moves.skipThen moves_expression).optional).thenSkip
      (advances_delimiter _).moves).map _

/-- What a function definition may start with. -/
def StartsFunction (t : Token) : Prop :=
  t = .keyword .fnWord ∨ t = .keyword .exportWord ∨ t = .keyword .inlineWord

theorem opens_functionDefinition : Opens functionDefinition StartsFunction := by
  intro start d stop h
  obtain ⟨ts, hr, hd⟩ := Layer.sound_functionDefinition sound_block h
  obtain ⟨m, mid, hm, h⟩ := bind_ok_iff.mp (atomic_ok_iff.mp h)
  obtain ⟨_, mid', hw, -⟩ := bind_ok_iff.mp h
  obtain ⟨us, hrm, hdm⟩ := sound_modifiers hm
  have hr' := hrm.trans (reads_of_exactly hw)
  obtain ⟨t, ts, rfl, -⟩ := hd.start
  refine ⟨t, ts, hr, ?_⟩
  cases hdm with
  | plain => exact Or.inl (hr.head_eq hr')
  | exported => exact Or.inr (Or.inl (hr.head_eq hr'))
  | inlined => exact Or.inr (Or.inr (hr.head_eq hr'))
  | both => exact Or.inr (Or.inl (hr.head_eq hr'))
  | swapped => exact Or.inr (Or.inr (hr.head_eq hr'))

theorem opens_definition : Opens definition StartsDefinition :=
  .of_sound (Layer.sound_definition sound_block) fun _ _ h => h.start

theorem opens_item : Opens item fun t => StartsDefinition t ∨ StartsStatement t :=
  .of_sound sound_item fun _ _ h => h.start

/-! Choices by the first token. -/

/-- Which alternative of a statement a token can open. -/
inductive StatementChoice : Token → Parser Statement → Prop
  | block : StatementChoice (.delimiter .openBrace) (.block <$> block)
  | ifElse : StatementChoice (.keyword .ifWord) ifStatement
  | whileLoop : StatementChoice (.keyword .whileWord) whileStatement
  | ret : StatementChoice (.keyword .returnWord) returnStatement
  | expression {t : Token} (ht : StartsExpression t) : StatementChoice t expressionStatement

theorem StatementChoice.unique {q q' : Parser Statement} (h : StatementChoice t q)
    (h' : StatementChoice t q') : q' = q := by
  cases h with
  | expression ht => cases h' <;> first | rfl | exact ht.elim
  | _ =>
    cases h' with
    | expression ht => exact ht.elim
    | _ => rfl

theorem statement_of_choice {q : Parser Statement} {s : Statement}
    (hr : start.Reads (t :: ts) mid) (hc : StatementChoice t q) (h : q start = .ok s stop) :
    statement start = .ok s stop := by
  have hm : q ∈ [.block <$> block, ifStatement, whileStatement, returnStatement,
      expressionStatement] := by
    cases hc <;> simp
  apply anyOf_of_best hm h
  intro q' hq v stop' hv
  have hc' : StatementChoice t q' := by
    simp only [List.mem_cons, List.not_mem_nil, or_false] at hq
    rcases hq with rfl | rfl | rfl | rfl | rfl
    · cases (opens_block.map _).head hr hv
      exact .block
    · cases opens_ifStatement.head hr hv
      exact .ifElse
    · cases opens_whileStatement.head hr hv
      exact .whileLoop
    · cases opens_returnStatement.head hr hv
      exact .ret
    · exact .expression (opens_expressionStatement.head hr hv)
  obtain rfl := hc.unique hc'
  exact Or.inl (ok_unique hv h)

/-- Of two alternatives that are told apart by their first token, the one that it opens is
taken. -/
theorem anyOf_left {q : Parser α} {v : α} (hr : start.Reads (t :: ts) mid)
    (h : p start = .ok v stop) (hq : Opens q kind) (ht : ¬ kind t) :
    anyOf [p, q] start = .ok v stop := by
  apply anyOf_of_best List.mem_cons_self h
  simp only [List.mem_cons, List.not_mem_nil, or_false]
  rintro q' (rfl | rfl) v' stop' hv
  · exact Or.inl (ok_unique hv h)
  · exact (ht (hq.head hr hv)).elim

theorem anyOf_right {q : Parser α} {v : α} (hr : start.Reads (t :: ts) mid)
    (h : q start = .ok v stop) (hp : Opens p kind) (ht : ¬ kind t) :
    anyOf [p, q] start = .ok v stop := by
  apply anyOf_of_best (List.mem_cons_of_mem p List.mem_cons_self) h
  simp only [List.mem_cons, List.not_mem_nil, or_false]
  rintro q' (rfl | rfl) v' stop' hv
  · exact (ht (hp.head hr hv)).elim
  · exact Or.inl (ok_unique hv h)

theorem not_startsStatement (h : StartsDefinition t) : ¬ StartsStatement t := by
  unfold StartsDefinition at h
  split at h <;> first | exact id | exact h.elim

/-! The parts of the rules that contain no block. -/

theorem condition_of (hd : ConditionOf ts e) (hr : start.Reads ts stop) :
    condition start = .ok e stop := by
  obtain ⟨he⟩ := hd
  obtain ⟨m, ho, hr⟩ := hr.uncons
  obtain ⟨m', hre, hc⟩ := hr.split
  have he' := he.complete hre (nextIs_of_reads hc (Or.inl rfl))
  obtain ⟨_, ho⟩ := exactly_of_reads ho
  obtain ⟨_, hc⟩ := exactly_of_reads hc
  exact thenSkip_ok_iff.mpr ⟨m', _, skipThen_ok_iff.mpr ⟨_, m, ho, he'⟩, hc⟩

theorem expressionStatement_of (he : ExpressionOf ts e)
    (hr : start.Reads (ts ++ [.delimiter .semicolon]) stop) :
    expressionStatement start = .ok (.expression e) stop := by
  obtain ⟨m, hre, hs⟩ := hr.split
  have he' := he.complete hre (nextIs_of_reads hs (Or.inr (Or.inr rfl)))
  obtain ⟨_, hs⟩ := exactly_of_reads hs
  exact map_ok_iff.mpr ⟨e, thenSkip_ok_iff.mpr ⟨m, _, he', hs⟩, rfl⟩

theorem optional_expression_none (hr : start.Reads (.delimiter .semicolon :: ts) stop) :
    optional expression start = .ok none start := by
  apply optional_of_rejects
  intro e stop' he
  exact (opens_expression.head hr he).elim

theorem returnStatement_of {value : Option Expression} (hw : start.Reads [.keyword .returnWord] mid)
    {m : Cursor} (hv : optional expression mid = .ok value m)
    (hs : m.Reads [.delimiter .semicolon] stop) :
    returnStatement start = .ok (.ret value) stop := by
  obtain ⟨_, hw⟩ := exactly_of_reads hw
  obtain ⟨_, hs⟩ := exactly_of_reads hs
  exact map_ok_iff.mpr ⟨value, thenSkip_ok_iff.mpr ⟨m, _, skipThen_ok_iff.mpr ⟨_, mid, hw, hv⟩, hs⟩,
    rfl⟩

theorem variableDefinition_of {name : String} {value : Option Expression} {m : Cursor}
    (hr : start.Reads [.keyword .varWord, .identifier name] mid)
    (hv : optional ((operator .assign).skipThen expression) mid = .ok value m)
    (hs : m.Reads [.delimiter .semicolon] stop) :
    variableDefinition start = .ok (.var name value) stop := by
  obtain ⟨m', hw, hn⟩ := hr.uncons
  obtain ⟨_, hw⟩ := exactly_of_reads hw
  obtain ⟨_, hn⟩ := identifier_of_reads hn
  obtain ⟨_, hs⟩ := exactly_of_reads hs
  exact map_ok_iff.mpr ⟨_, thenSkip_ok_iff.mpr ⟨m, _, pair_of_ok
    (skipThen_ok_iff.mpr ⟨_, m', hw, label_ok_iff.mpr hn⟩) hv, hs⟩, rfl⟩

theorem lists_of_listed {names : List String} (hd : Listed ParameterOf ts names)
    (hr : start.Reads ts stop) (hn : stop.NextIs (· = .delimiter .closeParen)) :
    Lists (Located.value <$> identifier) (delimiter .comma) start names stop := by
  induction hd generalizing start with
  | nil =>
    obtain rfl := hr.stop_eq (.refl start)
    refine .nil (((Opens.token _ _).map _).rejects hn ?_)
    rintro t rfl
    simp
  | single hv =>
    obtain rfl := hv
    refine .last (map_token_of_reads hr rfl fun _ => rfl) ((Opens.exactly _).rejects hn ?_)
    rintro t rfl
    simp
  | cons hv _ ih =>
    obtain rfl := hv
    obtain ⟨m, hi, hr⟩ := hr.uncons
    obtain ⟨m', hc, hr⟩ := hr.uncons
    obtain ⟨_, hc⟩ := exactly_of_reads hc
    exact .cons (map_token_of_reads hi rfl fun _ => rfl) hc (ih hr)

theorem parameters_of {names : List String} (hd : Listed ParameterOf ts names)
    (hr : start.Reads (.delimiter .openParen :: (ts ++ [.delimiter .closeParen])) stop) :
    parameters start = .ok names stop := by
  obtain ⟨m, ho, hr⟩ := hr.uncons
  obtain ⟨m', hrl, hc⟩ := hr.split
  have hl := lists_of_listed hd hrl (nextIs_of_reads hc rfl)
  have hs := (separated_ok_iff (advances_identifier.moves.map _) (advances_delimiter _)).mpr hl
  obtain ⟨_, ho⟩ := exactly_of_reads ho
  obtain ⟨_, hc⟩ := exactly_of_reads hc
  exact thenSkip_ok_iff.mpr ⟨m', _, skipThen_ok_iff.mpr ⟨_, m, ho, hs⟩, hc⟩

theorem modifier_of_other {word : Keyword} {meaning : Modifiers}
    (hn : start.NextIs (· ≠ .keyword word)) : modifier word meaning start = .ok .plain start :=
  modifier_ok_iff.mpr (Or.inr ⟨(Opens.exactly _).rejects hn fun _ h => h, rfl, rfl⟩)

theorem modifier_of_word {word : Keyword} {meaning : Modifiers}
    (hr : start.Reads [.keyword word] stop) : modifier word meaning start = .ok meaning stop :=
  modifier_ok_iff.mpr (Or.inl ⟨hr, rfl⟩)

theorem stop_of_modifier {word : Keyword} {meaning m : Modifiers}
    (h : modifier word meaning start = .ok m stop) (hn : start.NextIs (· ≠ .keyword word)) :
    stop = start :=
  (ok_unique h (modifier_of_other hn)).2

/-- The modifier that stands first reads further than the other, which is not there yet. -/
theorem modifiers_of {m : Modifiers} (hd : ModifiersOf ts m) (hr : start.Reads ts stop)
    (hn : stop.NextIs (· = .keyword .fnWord)) : modifiers start = .ok m stop := by
  have he : modifier .exportWord ⟨true, false⟩ stop = .ok .plain stop :=
    modifier_of_other (hn.mono (by rintro t rfl; simp))
  have hi : modifier .inlineWord ⟨false, true⟩ stop = .ok .plain stop :=
    modifier_of_other (hn.mono (by rintro t rfl; simp))
  cases hd with
  | plain =>
    obtain rfl := hr.stop_eq (.refl start)
    refine map_ok_iff.mpr ⟨_, allOf_pair_left he ?_ hi, rfl⟩
    intro w stop' hw
    obtain rfl := (ok_unique hw hi).2
    exact Nat.le_refl _
  | exported =>
    refine map_ok_iff.mpr ⟨_, allOf_pair_left (modifier_of_word hr) ?_ hi, rfl⟩
    intro w stop' hw
    rw [stop_of_modifier hw (nextIs_of_reads hr (by simp))]
    exact hr.index_le
  | inlined =>
    refine map_ok_iff.mpr ⟨_, allOf_pair_right (modifier_of_word hr) ?_ he, rfl⟩
    intro w stop' hw
    rw [stop_of_modifier hw (nextIs_of_reads hr (by simp)), hr.index]
    exact Nat.lt_succ_self _
  | both =>
    obtain ⟨mid, hr, hr'⟩ := hr.uncons
    refine map_ok_iff.mpr ⟨_, allOf_pair_left (modifier_of_word hr) ?_ (modifier_of_word hr'), rfl⟩
    intro w stop' hw
    rw [stop_of_modifier hw (nextIs_of_reads hr (by simp))]
    exact hr.index_le
  | swapped =>
    obtain ⟨mid, hr, hr'⟩ := hr.uncons
    refine map_ok_iff.mpr ⟨_, allOf_pair_right (modifier_of_word hr) ?_ (modifier_of_word hr'), rfl⟩
    intro w stop' hw
    rw [stop_of_modifier hw (nextIs_of_reads hr (by simp)), hr.index]
    exact Nat.lt_succ_self _

/-! The rules that contain blocks. -/

theorem block_of {items : List Node} {m : Cursor} (ho : start.Reads [.delimiter .openBrace] mid)
    (hi : Repeats item.Rejects item mid items m) (hc : m.Reads [.delimiter .closeBrace] stop) :
    block start = .ok items stop := by
  obtain ⟨_, ho⟩ := exactly_of_reads ho
  obtain ⟨_, hc⟩ := exactly_of_reads hc
  rw [block_eq]
  apply atomic_ok_iff.mpr
  simp only [bind_ok_iff, pure_ok_iff]
  exact ⟨_, mid, ho, items, m, (many_ok_iff advances_item).mpr hi, _, stop, hc, rfl, rfl⟩

theorem ifStatement_of {items : List Node} {otherwise : Option Statement} {m m' : Cursor}
    (hw : start.Reads [.keyword .ifWord] mid) (hc : condition mid = .ok e m)
    (hb : block m = .ok items m')
    (ho : optional ((keyword .elseWord).skipThen (anyOf [ifStatement, .block <$> block])) m' =
      .ok otherwise stop) : ifStatement start = .ok (.ifElse e items otherwise) stop := by
  obtain ⟨_, hw⟩ := exactly_of_reads hw
  rw [ifStatement_eq]
  apply atomic_ok_iff.mpr
  simp only [bind_ok_iff, pure_ok_iff]
  exact ⟨_, mid, hw, e, m, hc, items, m', hb, otherwise, stop, ho, rfl, rfl⟩

theorem whileStatement_of {items : List Node} {m : Cursor}
    (hw : start.Reads [.keyword .whileWord] mid) (hc : condition mid = .ok e m)
    (hb : block m = .ok items stop) : whileStatement start = .ok (.whileLoop e items) stop := by
  obtain ⟨_, hw⟩ := exactly_of_reads hw
  exact map_ok_iff.mpr ⟨_, pair_of_ok (skipThen_ok_iff.mpr ⟨_, mid, hw, hc⟩) hb, rfl⟩

theorem functionDefinition_of {name : String} {marks : Modifiers} {names : List String}
    {body : Option (List Node)} {m m' : Cursor} (hm : modifiers start = .ok marks mid)
    (hr : mid.Reads [.keyword .fnWord, .identifier name] m) (hp : parameters m = .ok names m')
    (hb : anyOf [some <$> block, (fun _ => none) <$> delimiter .semicolon] m' = .ok body stop) :
    functionDefinition start = .ok (.function name marks names body) stop := by
  obtain ⟨next, hw, hn⟩ := hr.uncons
  obtain ⟨_, hw⟩ := exactly_of_reads hw
  obtain ⟨_, hn⟩ := identifier_of_reads hn
  apply atomic_ok_iff.mpr
  simp only [bind_ok_iff, pure_ok_iff]
  exact ⟨marks, mid, hm, _, next, hw, _, m, label_ok_iff.mpr hn, names, m', hp, body, stop, hb,
    rfl, rfl⟩

theorem item_of_definition {d : Definition} (hd : DefinitionOf ts d)
    (hr : start.Reads ts mid) (h : definition start = .ok d stop) :
    item start = .ok (.definition d) stop := by
  obtain ⟨t, us, rfl, ht⟩ := hd.start
  exact anyOf_left hr (map_ok_iff.mpr ⟨d, h, rfl⟩) (opens_statement.map _) (not_startsStatement ht)

theorem item_of_statement {s : Statement} (hs : StatementOf ts s)
    (hr : start.Reads ts mid) (h : statement start = .ok s stop) :
    item start = .ok (.statement s) stop := by
  obtain ⟨t, us, rfl, ht⟩ := hs.start
  refine anyOf_right hr (map_ok_iff.mpr ⟨s, h, rfl⟩) (opens_definition.map _) ?_
  intro hd
  exact not_startsStatement hd ht

theorem item_rejects_closeBrace (hr : start.Reads [.delimiter .closeBrace] stop) :
    item.Rejects start := by
  intro v stop' h
  exact (opens_item.head hr h).elim id id

theorem ItemsOf.nextIs_ne_else {items : List Node} (hi : ItemsOf ts items)
    (hr : start.Reads ts stop) (hn : stop.NextIs (· ≠ .keyword .elseWord)) :
    start.NextIs (· ≠ .keyword .elseWord) := by
  cases hi with
  | nil =>
    obtain rfl := hr.stop_eq (.refl start)
    exact hn
  | cons hi _ =>
    obtain ⟨t, us, rfl, ht⟩ := hi.start
    refine nextIs_of_reads hr ?_
    rintro rfl
    exact ht.elim id id

mutual

theorem ItemsOf.complete {ts : List Token} {items : List Node} {start stop : Cursor} :
    ItemsOf ts items → start.Reads ts stop → item.Rejects stop →
      stop.NextIs (· ≠ .keyword .elseWord) → Repeats item.Rejects item start items stop
  | .nil, hr, hs, _ => by
    obtain rfl := hr.stop_eq (.refl start)
    exact .nil hs
  | .cons hi his, hr, hs, hn => by
    obtain ⟨m, hri, hris⟩ := hr.split
    exact .cons (hi.complete hri (his.nextIs_ne_else hris hn)) (his.complete hris hs hn)

theorem ItemOf.complete {ts : List Token} {i : Node} {start stop : Cursor} :
    ItemOf ts i → start.Reads ts stop → stop.NextIs (· ≠ .keyword .elseWord) →
      item start = .ok i stop
  | .definition hd, hr, _ => item_of_definition hd hr (hd.complete hr)
  | .statement hs, hr, hn => item_of_statement hs hr (hs.complete hr hn)

theorem BlockOf.complete {ts : List Token} {items : List Node} {start stop : Cursor} :
    BlockOf ts items → start.Reads ts stop → block start = .ok items stop
  | .braced hi, hr => by
    obtain ⟨m, ho, hr⟩ := hr.uncons
    obtain ⟨m', hri, hc⟩ := hr.split
    exact block_of ho (hi.complete hri (item_rejects_closeBrace hc)
      (nextIs_of_reads hc (by simp))) hc

theorem StatementOf.complete {ts : List Token} {s : Statement} {start stop : Cursor} :
    StatementOf ts s → start.Reads ts stop → stop.NextIs (· ≠ .keyword .elseWord) →
      statement start = .ok s stop
  | .block hb, hr, _ => by
    have hb' := hb.complete hr
    obtain ⟨hi⟩ := hb
    exact statement_of_choice hr .block (map_ok_iff.mpr ⟨_, hb', rfl⟩)
  | .ifElse hs, hr, hn => by
    have hs' := hs.complete hr hn
    cases hs <;> exact statement_of_choice hr .ifElse hs'
  | .whileLoop hc hb, hr, _ => by
    obtain ⟨m, hw, hr'⟩ := hr.uncons
    obtain ⟨m', hrc, hrb⟩ := hr'.split
    exact statement_of_choice hr .whileLoop
      (whileStatement_of hw (condition_of hc hrc) (hb.complete hrb))
  | .ret, hr, _ => by
    obtain ⟨m, hw, hs⟩ := hr.uncons
    exact statement_of_choice hr .ret (returnStatement_of hw (optional_expression_none hs) hs)
  | .retValue he, hr, _ => by
    obtain ⟨m, hw, hr'⟩ := hr.uncons
    obtain ⟨m', hre, hs⟩ := hr'.split
    have he' := he.complete hre (nextIs_of_reads hs (Or.inr (Or.inr rfl)))
    exact statement_of_choice hr .ret (returnStatement_of hw (optional_of_ok he') hs)
  | .expression he, hr, _ => by
    have he' := expressionStatement_of he hr
    obtain ⟨t, us, rfl, ht⟩ := he.start
    exact statement_of_choice hr (.expression ht) he'

theorem IfOf.complete {ts : List Token} {s : Statement} {start stop : Cursor} :
    IfOf ts s → start.Reads ts stop → stop.NextIs (· ≠ .keyword .elseWord) →
      ifStatement start = .ok s stop
  | .plain hc hb, hr, hn => by
    obtain ⟨m, hw, hr'⟩ := hr.uncons
    obtain ⟨m', hrc, hrb⟩ := hr'.split
    refine ifStatement_of hw (condition_of hc hrc) (hb.complete hrb) (optional_of_rejects ?_)
    intro o stop' ho
    obtain ⟨_, next, hw, -⟩ := skipThen_ok_iff.mp ho
    exact hn _ (by simp [(reads_of_exactly hw).ahead]) rfl
  | .withElse hc hb ho, hr, hn => by
    obtain ⟨m, hw, hr'⟩ := hr.uncons
    obtain ⟨m', hrc, hr'⟩ := hr'.split
    obtain ⟨m'', hrb, hr'⟩ := hr'.split
    obtain ⟨next, hew, hro⟩ := hr'.uncons
    obtain ⟨_, hew⟩ := exactly_of_reads hew
    exact ifStatement_of hw (condition_of hc hrc) (hb.complete hrb)
      (optional_of_ok (skipThen_ok_iff.mpr ⟨_, next, hew, ho.complete hro hn⟩))

theorem ElseOf.complete {ts : List Token} {s : Statement} {start stop : Cursor} :
    ElseOf ts s → start.Reads ts stop → stop.NextIs (· ≠ .keyword .elseWord) →
      anyOf [ifStatement, .block <$> block] start = .ok s stop
  | .nested hs, hr, hn => by
    have hs' := hs.complete hr hn
    cases hs <;> exact anyOf_left hr hs' (opens_block.map _) (by simp)
  | .block hb, hr, _ => by
    have hb' := hb.complete hr
    obtain ⟨hi⟩ := hb
    exact anyOf_right hr (map_ok_iff.mpr ⟨_, hb', rfl⟩) opens_ifStatement (by simp)

theorem DefinitionOf.complete {ts : List Token} {d : Definition} {start stop : Cursor} :
    DefinitionOf ts d → start.Reads ts stop → definition start = .ok d stop
  | .var name, hr => by
    obtain ⟨m, hw, hr'⟩ := hr.uncons
    obtain ⟨m', hn, hs⟩ := hr'.uncons
    have hv : optional ((operator .assign).skipThen expression) m' = .ok none m' := by
      refine optional_of_rejects fun e stop' he => ?_
      cases ((Opens.exactly _).skipThen moves_expression).head hs he
    exact anyOf_left hr (variableDefinition_of (hw.cons hn) hv hs) opens_functionDefinition
      (by simp [StartsFunction])
  | .varValue name he, hr => by
    obtain ⟨m, hw, hr'⟩ := hr.uncons
    obtain ⟨m', hn, hr'⟩ := hr'.uncons
    obtain ⟨m'', ha, hr'⟩ := hr'.uncons
    obtain ⟨next, hre, hs⟩ := hr'.split
    have he' := he.complete hre (nextIs_of_reads hs (Or.inr (Or.inr rfl)))
    obtain ⟨_, ha⟩ := exactly_of_reads ha
    have hv := optional_of_ok (skipThen_ok_iff.mpr ⟨_, m'', ha, he'⟩)
    exact anyOf_left hr (variableDefinition_of (hw.cons hn) hv hs) opens_functionDefinition
      (by simp [StartsFunction])
  | .function name hm hp hb, hr => by
    obtain ⟨m, hrm, hr'⟩ := hr.split
    obtain ⟨m', hw, hr'⟩ := hr'.uncons
    obtain ⟨m'', hn, hr'⟩ := hr'.uncons
    rw [List.append_cons, ← List.cons_append] at hr'
    obtain ⟨next, hrp, hrb⟩ := hr'.split
    have hm' := modifiers_of hm hrm (nextIs_of_reads hw rfl)
    have hd := functionDefinition_of hm' (hw.cons hn) (parameters_of hp hrp) (hb.complete hrb)
    obtain ⟨t, us, hrf, ht⟩ := opens_functionDefinition hd
    apply anyOf_right hrf hd opens_variableDefinition
    rintro rfl
    simp [StartsFunction] at ht

theorem BodyOf.complete {ts : List Token} {body : Option (List Node)} {start stop : Cursor} :
    BodyOf ts body → start.Reads ts stop →
      anyOf [some <$> block, (fun _ => none) <$> delimiter .semicolon] start = .ok body stop
  | .forward, hr => by
    obtain ⟨_, hs⟩ := exactly_of_reads hr
    exact anyOf_right hr (map_ok_iff.mpr ⟨_, hs, rfl⟩) (opens_block.map _) (by simp)
  | .block hb, hr => by
    have hb' := hb.complete hr
    obtain ⟨hi⟩ := hb
    exact anyOf_left hr (map_ok_iff.mpr ⟨_, hb', rfl⟩) ((Opens.exactly _).map _) (by simp)

end

theorem item_rejects_expression (he : ExpressionOf ts e) (hr : start.Reads ts stop)
    (hs : stop.ahead = []) : item.Rejects start := by
  intro i stop' hi
  obtain ⟨us, hr', hd⟩ := sound_item hi
  obtain ⟨t, ht, hend⟩ := hd.exists_end
  have ha : ts = us ++ stop'.ahead := by
    rw [← hr'.ahead, hr.ahead, hs, List.append_nil]
  exact he.not_ends t (by simp [ha, ht]) hend

theorem ProgramOf.complete {nodes : List Node} (h : ProgramOf ts nodes)
    (hr : start.Reads ts stop) (hs : stop.ahead = []) : program start = .ok nodes stop := by
  cases h with
  | items hi =>
    have hi' := hi.complete hr (opens_item.rejects (nextIs_of_end hs) fun _ h => h)
      (nextIs_of_end hs)
    have he := optional_of_rejects (opens_expression.rejects (nextIs_of_end hs) fun _ h => h)
    exact program_ok_iff.mpr ⟨_, stop, none, hi', he, hs, by simp⟩
  | tail hi he =>
    obtain ⟨m, hri, hre⟩ := hr.split
    have hn : m.NextIs (· ≠ .keyword .elseWord) := by
      obtain ⟨t, us, rfl, ht⟩ := he.start
      refine nextIs_of_reads hre ?_
      rintro rfl
      exact ht
    have hi' := hi.complete hri (item_rejects_expression he hre hs) hn
    have he' := optional_of_ok (he.complete hre (nextIs_of_end hs))
    exact program_ok_iff.mpr ⟨_, m, some _, hi', he', hs, rfl⟩

theorem run_ok_iff {p : Parser α} {tokens : List (Located Token)} {v : α} :
    run p tokens = .ok v ↔ ∃ stop, p (.ofTokens tokens) = .ok v stop := by
  rw [run]
  cases p (.ofTokens tokens) <;> simp

/-- A program is read from exactly the tokens that the grammar derives it from. -/
theorem parseProgram_ok_iff {tokens : List (Located Token)} {nodes : List Node} :
    parseProgram tokens = .ok nodes ↔
      ProgramOf (tokens.map Located.value) nodes := by
  rw [parseProgram, run_ok_iff]
  constructor
  · rintro ⟨stop, h⟩
    obtain ⟨ts, hr, hd⟩ := sound_program h
    obtain ⟨items, mid, last, -, -, hs, -⟩ := program_ok_iff.mp h
    have ha := hr.ahead
    rw [Cursor.ahead_ofTokens, hs, List.append_nil] at ha
    exact ha ▸ hd
  · intro h
    obtain ⟨stop, hr, hs⟩ := Cursor.exists_reads
      ((Cursor.ahead_ofTokens tokens).trans (List.append_nil _).symm)
    exact ⟨stop, h.complete hr hs⟩

theorem parseExpression_ok_iff {tokens : List (Located Token)} :
    parseExpression tokens = .ok e ↔ ExpressionOf (tokens.map Located.value) e := by
  rw [parseExpression, run_ok_iff]
  constructor
  · rintro ⟨stop, h⟩
    obtain ⟨mid, _, he, hs⟩ := thenSkip_ok_iff.mp h
    obtain ⟨ts, hr, hd⟩ := sound_expression he
    have ha := hr.ahead
    rw [Cursor.ahead_ofTokens, (endOfInput_ok_iff.mp hs).1, List.append_nil] at ha
    exact ha ▸ hd
  · intro h
    obtain ⟨stop, hr, hs⟩ := Cursor.exists_reads
      ((Cursor.ahead_ofTokens tokens).trans (List.append_nil _).symm)
    exact ⟨stop, thenSkip_ok_iff.mpr ⟨stop, (), h.complete hr (nextIs_of_end hs),
      endOfInput_ok_iff.mpr ⟨hs, rfl⟩⟩⟩

end FrontEnd.Grammar
