import FrontEnd.Proofs.Grammar.ExpressionSoundness

/-! What the rules for statements, definitions and programs read, the grammar derives. -/
namespace FrontEnd.Grammar

open FrontEnd.Parser

variable {start stop : Cursor}

theorem sound_condition : Sound condition ConditionOf := by
  intro start e stop h
  obtain ⟨m, _, h, hc⟩ := thenSkip_ok_iff.mp h
  obtain ⟨_, m', ho, he⟩ := skipThen_ok_iff.mp h
  obtain ⟨ts, hr, hd⟩ := sound_expression he
  exact ⟨_, (reads_of_exactly ho).cons (hr.trans (reads_of_exactly hc)), .parenthesized hd⟩

theorem sound_expressionStatement : Sound expressionStatement StatementOf := by
  intro start s stop h
  obtain ⟨e, he, rfl⟩ := map_ok_iff.mp h
  obtain ⟨m, _, he, hs⟩ := thenSkip_ok_iff.mp he
  obtain ⟨ts, hr, hd⟩ := sound_expression he
  exact ⟨_, hr.trans (reads_of_exactly hs), .expression hd⟩

theorem sound_returnStatement : Sound returnStatement StatementOf := by
  intro start s stop h
  obtain ⟨value, hv, rfl⟩ := map_ok_iff.mp h
  obtain ⟨m, _, hv, hs⟩ := thenSkip_ok_iff.mp hv
  obtain ⟨_, m', hw, hv⟩ := skipThen_ok_iff.mp hv
  rcases optional_ok_iff.mp hv with ⟨e, rfl, he⟩ | ⟨-, rfl, rfl⟩
  · obtain ⟨ts, hr, hd⟩ := sound_expression he
    exact ⟨_, (reads_of_exactly hw).cons (hr.trans (reads_of_exactly hs)), .retValue hd⟩
  · exact ⟨_, (reads_of_exactly hw).cons (reads_of_exactly hs), .ret⟩

theorem sound_variableDefinition : Sound variableDefinition DefinitionOf := by
  intro start d stop h
  obtain ⟨⟨name, value⟩, hv, rfl⟩ := map_ok_iff.mp h
  obtain ⟨m, _, hv, hs⟩ := thenSkip_ok_iff.mp hv
  obtain ⟨m', hn, hv⟩ := pair_ok_iff.mp hv
  obtain ⟨_, m'', hw, hn⟩ := skipThen_ok_iff.mp hn
  have hw := reads_of_exactly hw
  have hn := reads_of_identifier (label_ok_iff.mp hn)
  have hs := reads_of_exactly hs
  rcases optional_ok_iff.mp hv with ⟨e, he, hv⟩ | ⟨-, he, rfl⟩
  · obtain ⟨_, m''', ha, hv⟩ := skipThen_ok_iff.mp hv
    obtain ⟨ts, hr, hd⟩ := sound_expression hv
    cases he
    exact ⟨_, hw.cons (hn.cons ((reads_of_exactly ha).cons (hr.trans hs))), .varValue _ hd⟩
  · cases he
    exact ⟨_, hw.cons (hn.cons hs), .var _⟩

theorem sound_parameters {parameters : List String}
    (h : Grammar.parameters start = .ok parameters stop) :
    ∃ ts, start.Reads (.delimiter .openParen :: (ts ++ [.delimiter .closeParen])) stop ∧
      Listed ParameterOf ts parameters := by
  obtain ⟨m, _, h, hc⟩ := thenSkip_ok_iff.mp h
  obtain ⟨_, m', ho, h⟩ := skipThen_ok_iff.mp h
  have hs : Sound (Located.value <$> identifier) ParameterOf := by
    intro start name stop h
    obtain ⟨found, hn, rfl⟩ := map_ok_iff.mp h
    exact ⟨_, reads_of_identifier hn, rfl⟩
  obtain ⟨ts, hr, hd⟩ := listed_of_separated hs h
  exact ⟨ts, (reads_of_exactly ho).cons (hr.trans (reads_of_exactly hc)), hd⟩

theorem modifier_ok_iff {word : Keyword} {meaning m : Modifiers} :
    modifier word meaning start = .ok m stop ↔
      start.Reads [.keyword word] stop ∧ m = meaning ∨
      (keyword word).Rejects start ∧ m = .plain ∧ stop = start := by
  simp only [modifier, map_ok_iff, optional_ok_iff]
  constructor
  · rintro ⟨_, ⟨location, rfl, hw⟩ | ⟨hr, rfl, rfl⟩, rfl⟩
    · exact Or.inl ⟨reads_of_exactly hw, rfl⟩
    · exact Or.inr ⟨hr, rfl, rfl⟩
  · rintro (⟨hw, rfl⟩ | ⟨hr, rfl, rfl⟩)
    · obtain ⟨location, hw⟩ := exactly_of_reads hw
      exact ⟨some location, Or.inl ⟨location, rfl, hw⟩, rfl⟩
    · exact ⟨none, Or.inr ⟨hr, rfl, rfl⟩, rfl⟩

theorem sound_modifiers : Sound modifiers ModifiersOf := by
  intro start m stop h
  obtain ⟨vs, hs, rfl⟩ := map_ok_iff.mp h
  obtain ⟨v, w, mid, rfl, ⟨he, hi⟩ | ⟨hi, he⟩⟩ := exists_of_allOf_pair hs
  all_goals
    rcases modifier_ok_iff.mp he with ⟨hr, rfl⟩ | ⟨-, rfl, rfl⟩ <;>
      rcases modifier_ok_iff.mp hi with ⟨hr', rfl⟩ | ⟨-, rfl, rfl⟩
  · exact ⟨_, hr.cons hr', .both⟩
  · exact ⟨_, hr, .exported⟩
  · exact ⟨_, hr', .inlined⟩
  · exact ⟨_, .refl _, .plain⟩
  · exact ⟨_, hr'.cons hr, .swapped⟩
  · exact ⟨_, hr, .exported⟩
  · exact ⟨_, hr', .inlined⟩
  · exact ⟨_, .refl _, .plain⟩

/-! Statements and definitions, in terms of the blocks inside them. -/

namespace Layer

variable {blk : Parser (List Node)} {nested : Parser Statement}

theorem sound_ifStatement (hb : Sound blk BlockOf) (hn : Sound nested IfOf) :
    Sound (ifStatement blk nested) IfOf := by
  intro start s stop h
  replace h := atomic_ok_iff.mp h
  simp only [bind_ok_iff, pure_ok_iff] at h
  obtain ⟨_, m, hw, c, m', hc, items, m'', hi, otherwise, stop, ho, rfl, rfl⟩ := h
  obtain ⟨ts, hr, hd⟩ := sound_condition hc
  obtain ⟨us, hr', hd'⟩ := hb hi
  have hw := reads_of_exactly hw
  rcases optional_ok_iff.mp ho with ⟨o, rfl, ho'⟩ | ⟨-, rfl, rfl⟩
  · obtain ⟨_, next, hew, ho⟩ := skipThen_ok_iff.mp ho'
    have hso : ∃ ws, next.Reads ws stop ∧ ElseOf ws o := by
      obtain ⟨p, hp, hpo⟩ := exists_of_anyOf ho
      simp only [List.mem_cons, List.not_mem_nil, or_false] at hp
      rcases hp with rfl | rfl
      · obtain ⟨ws, hr, hd⟩ := hn hpo
        exact ⟨ws, hr, .nested hd⟩
      · obtain ⟨items, hi, rfl⟩ := map_ok_iff.mp hpo
        obtain ⟨ws, hr, hd⟩ := hb hi
        exact ⟨ws, hr, .block hd⟩
    obtain ⟨ws, hr'', hd''⟩ := hso
    exact ⟨_, hw.cons (hr.trans (hr'.trans ((reads_of_exactly hew).cons hr''))),
      .withElse hd hd' hd''⟩
  · exact ⟨_, hw.cons (hr.trans hr'), .plain hd hd'⟩

theorem sound_fix_ifStatement (hb : Sound blk BlockOf) : Sound (fix (ifStatement blk)) IfOf :=
  sound_fix fun _ hn => sound_ifStatement hb hn

theorem sound_whileStatement (hb : Sound blk BlockOf) :
    Sound (whileStatement blk) StatementOf := by
  intro start s stop h
  obtain ⟨⟨c, body⟩, hp, rfl⟩ := map_ok_iff.mp h
  obtain ⟨m, hc, hi⟩ := pair_ok_iff.mp hp
  obtain ⟨_, m', hw, hc⟩ := skipThen_ok_iff.mp hc
  obtain ⟨ts, hr, hd⟩ := sound_condition hc
  obtain ⟨us, hr', hd'⟩ := hb hi
  exact ⟨_, (reads_of_exactly hw).cons (hr.trans hr'), .whileLoop hd hd'⟩

theorem sound_statement (hb : Sound blk BlockOf) : Sound (statement blk) StatementOf := by
  intro start s stop h
  obtain ⟨p, hp, h⟩ := exists_of_anyOf h
  simp only [List.mem_cons, List.not_mem_nil, or_false] at hp
  rcases hp with rfl | rfl | rfl | rfl | rfl
  · obtain ⟨items, hi, rfl⟩ := map_ok_iff.mp h
    obtain ⟨ts, hr, hd⟩ := hb hi
    exact ⟨ts, hr, .block hd⟩
  · obtain ⟨ts, hr, hd⟩ := sound_fix_ifStatement hb h
    exact ⟨ts, hr, .ifElse hd⟩
  · exact sound_whileStatement hb h
  · exact sound_returnStatement h
  · exact sound_expressionStatement h

theorem sound_functionDefinition (hb : Sound blk BlockOf) :
    Sound (functionDefinition blk) DefinitionOf := by
  intro start d stop h
  replace h := atomic_ok_iff.mp h
  simp only [bind_ok_iff, pure_ok_iff, label_ok_iff] at h
  obtain ⟨marks, m, hm, _, m', hw, name, m'', hn, parameters, last, hp, body, stop, ho, rfl, rfl⟩ :=
    h
  obtain ⟨ts, hr, hd⟩ := sound_modifiers hm
  obtain ⟨us, hr', hd'⟩ := sound_parameters hp
  have hso : ∃ ws, last.Reads ws stop ∧ BodyOf ws body := by
    obtain ⟨p, hp, ho⟩ := exists_of_anyOf ho
    simp only [List.mem_cons, List.not_mem_nil, or_false] at hp
    rcases hp with rfl | rfl
    · obtain ⟨items, hi, rfl⟩ := map_ok_iff.mp ho
      obtain ⟨ws, hr, hd⟩ := hb hi
      exact ⟨ws, hr, .block hd⟩
    · obtain ⟨_, hs, rfl⟩ := map_ok_iff.mp ho
      exact ⟨_, reads_of_exactly hs, .forward⟩
  obtain ⟨ws, hr'', hd''⟩ := hso
  have hall := hr.trans ((reads_of_exactly hw).cons ((reads_of_identifier hn).cons
    (hr'.trans hr'')))
  exact ⟨_, by simpa using hall, .function _ hd hd' hd''⟩

theorem sound_definition (hb : Sound blk BlockOf) : Sound (definition blk) DefinitionOf := by
  intro start d stop h
  obtain ⟨p, hp, h⟩ := exists_of_anyOf h
  simp only [List.mem_cons, List.not_mem_nil, or_false] at hp
  rcases hp with rfl | rfl
  · exact sound_variableDefinition h
  · exact sound_functionDefinition hb h

theorem sound_item (hb : Sound blk BlockOf) : Sound (item blk) ItemOf := by
  intro start d stop h
  obtain ⟨p, hp, h⟩ := exists_of_anyOf h
  simp only [List.mem_cons, List.not_mem_nil, or_false] at hp
  rcases hp with rfl | rfl
  · obtain ⟨d, hd, rfl⟩ := map_ok_iff.mp h
    obtain ⟨ts, hr, hd'⟩ := sound_definition hb hd
    exact ⟨ts, hr, .definition hd'⟩
  · obtain ⟨s, hs, rfl⟩ := map_ok_iff.mp h
    obtain ⟨ts, hr, hd⟩ := sound_statement hb hs
    exact ⟨ts, hr, .statement hd⟩

end Layer

theorem itemsOf_of_repeats {ends : Cursor → Prop} {p : Parser Node} {items : List Node}
    (hs : Sound p ItemOf) (h : Repeats ends p start items stop) :
    ∃ ts, start.Reads ts stop ∧ ItemsOf ts items := by
  induction h with
  | nil => exact ⟨[], .refl _, .nil⟩
  | cons hi _ ih =>
    obtain ⟨ts, hr, hd⟩ := hs hi
    obtain ⟨us, hr', hds⟩ := ih
    exact ⟨ts ++ us, hr.trans hr', .cons hd hds⟩

theorem advances_of_sound_item {p : Parser Node} (hs : Sound p ItemOf) : Advances p :=
  hs.advances fun _ _ h => h.start

theorem sound_block : Sound block BlockOf := by
  refine sound_fix fun blk hb => ?_
  intro start items stop h
  replace h := atomic_ok_iff.mp h
  simp only [bind_ok_iff, pure_ok_iff] at h
  obtain ⟨_, m, ho, items, m', hi, _, stop, hc, rfl, rfl⟩ := h
  have hs := Layer.sound_item hb
  obtain ⟨ts, hr, hd⟩ := itemsOf_of_repeats hs ((many_ok_iff (advances_of_sound_item hs)).mp hi)
  exact ⟨_, (reads_of_exactly ho).cons (hr.trans (reads_of_exactly hc)), .braced hd⟩

theorem sound_item : Sound item ItemOf := Layer.sound_item sound_block

theorem advances_item : Advances item := advances_of_sound_item sound_item

theorem endOfInput_ok_iff : endOfInput start = .ok () stop ↔ start.ahead = [] ∧ stop = start := by
  rw [← Cursor.peek?_eq_none_iff, endOfInput]
  cases start.peek? <;> simp [eq_comm]

theorem finish_ok_iff {place : Cursor} :
    finish place start = .ok () stop ↔ start.ahead = [] ∧ stop = start := by
  rw [← endOfInput_ok_iff, finish]
  cases h : endOfInput start with
  | ok _ next =>
    obtain ⟨-, rfl⟩ := endOfInput_ok_iff.mp h
    rfl
  | error => simp

/-- The steps of the rule for programs. -/
theorem program_ok_iff {nodes : List Node} : program start = .ok nodes stop ↔
    ∃ items mid last, Repeats item.Rejects item start items mid ∧
      optional expression mid = .ok last stop ∧ stop.ahead = [] ∧
      items ++ (last.map Node.expression).toList = nodes := by
  apply atomic_ok_iff.trans
  simp only [bind_ok_iff, pure_ok_iff, get_ok_iff]
  constructor
  · rintro ⟨items, mid, hi, _, _, ⟨rfl, rfl⟩, last, _, hl, _, _, hf, rfl, rfl⟩
    obtain ⟨he, rfl⟩ := finish_ok_iff.mp hf
    exact ⟨items, mid, last, (many_ok_iff advances_item).mp hi, hl, he, rfl⟩
  · rintro ⟨items, mid, last, hi, hl, he, rfl⟩
    exact ⟨items, mid, (many_ok_iff advances_item).mpr hi, mid, mid, ⟨rfl, rfl⟩, last, stop, hl,
      (), stop, finish_ok_iff.mpr ⟨he, rfl⟩, rfl, rfl⟩

theorem sound_program : Sound program ProgramOf := by
  intro start nodes stop h
  obtain ⟨items, mid, last, hi, hl, -, rfl⟩ := program_ok_iff.mp h
  obtain ⟨ts, hr, hd⟩ := itemsOf_of_repeats sound_item hi
  rcases optional_ok_iff.mp hl with ⟨e, rfl, he⟩ | ⟨-, rfl, rfl⟩
  · obtain ⟨us, hr', hd'⟩ := sound_expression he
    exact ⟨ts ++ us, hr.trans hr', .tail hd hd'⟩
  · exact ⟨ts, hr, by simpa using .items hd⟩

end FrontEnd.Grammar
