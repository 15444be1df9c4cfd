import FrontEnd.Proofs.Grammar.Layout
import FrontEnd.Proofs.Grammar.Refusals
import FrontEnd.Proofs.Grammar.StatementSoundness
import FrontEnd.Proofs.Parser.Failure

/-! What is said of a program that does not parse. No construct fits where its items end, and the
one that gets furthest is blamed: no earlier than for the first token that is left over. -/
namespace FrontEnd.Grammar

open FrontEnd.Parser

variable {α : Type} {start mid stop : Cursor} {error e : ParseError} {tokens : List (Located Token)}
  {t : Located Token}

/-! No construct complains of tokens that are left over. -/

theorem Judged.not_trailing {faults : List Location} {x : Except ParseError α}
    (h : Judged faults x) (he : x = .error e) (found : String) : e.kind ≠ .trailingInput found := by
  subst he
  obtain _ | ⟨⟨construct, location, others⟩⟩ := h
  nofun

theorem wants_operand : Wants operand := by
  have hleaf : Wants leaf := ((Wants.token _ _).map _).anyOf _ |>.label _
  refine Wants.andThen ((NeverFails.many _).wants.bind fun _ => hleaf.bind fun _ =>
    (NeverFails.optional _).wants.bind fun _ => .pure _) ?_
  rintro ⟨prefixes, leaf, behind⟩ e he
  exact (judged_applyAround prefixes leaf behind).not_trailing he

theorem wants_expression : Wants expression := by
  rw [expression_eq]
  refine Wants.andThen (wants_operand.bind fun _ =>
    (Wants.committed _ fun _ => wants_operand.map _).bind fun _ => .pure _) ?_
  rintro ⟨first, links⟩ e he
  exact (judged_resolve first links).not_trailing he

theorem wants_condition : Wants condition :=
  ((Wants.exactly _).skipThen wants_expression).thenSkip (.exactly _)

theorem wants_block : Wants block := by
  rw [block_eq]
  exact .atomic ((Wants.exactly _).bind fun _ => (NeverFails.many _).wants.bind fun _ =>
    (Wants.exactly _).bind fun _ => .pure _)

theorem wants_ifStatement : Wants ifStatement := by
  rw [ifStatement_eq]
  exact .atomic ((Wants.exactly _).bind fun _ => wants_condition.bind fun _ =>
    wants_block.bind fun _ => (NeverFails.optional _).wants.bind fun _ => .pure _)

theorem wants_functionDefinition : Wants functionDefinition := by
  have hm : NeverFails modifiers := by
    refine (NeverFails.allOf (List.forall_iff_forall_mem.mp ?_)).map _
    exact ⟨(NeverFails.optional _).map _, (NeverFails.optional _).map _⟩
  have hp : Wants parameters :=
    ((Wants.exactly _).skipThen (NeverFails.separated _ _).wants).thenSkip (.exactly _)
  exact .atomic (hm.wants.bind fun _ => (Wants.exactly _).bind fun _ =>
    ((Wants.token _ _).label _).bind fun _ => hp.bind fun _ =>
      ((wants_block.map _).anyOf _).bind fun _ => .pure _)

/-- The constructs that may start an item, each with the type of what it gives. -/
def constructs : List ((α : Type) × Parser α) :=
  [⟨_, variableDefinition⟩, ⟨_, functionDefinition⟩, ⟨_, expressionStatement⟩, ⟨_, block⟩,
    ⟨_, ifStatement⟩, ⟨_, whileStatement⟩, ⟨_, returnStatement⟩]

theorem wants_constructs : ∀ construct ∈ constructs, Wants construct.2 := by
  refine List.forall_iff_forall_mem.mp ?_
  refine ⟨?_, wants_functionDefinition, ?_, wants_block, wants_ifStatement, ?_, ?_⟩
  · exact ((((Wants.exactly _).skipThen ((Wants.token _ _).label _)).pair
      (NeverFails.optional _).wants).thenSkip (.exactly _)).map _
  · exact (wants_expression.thenSkip (.exactly _)).map _
  · exact (((Wants.exactly _).skipThen wants_condition).pair wants_block).map _
  · exact (((Wants.exactly _).skipThen (NeverFails.optional _).wants).thenSkip (.exactly _)).map _

/-! Where items end, no construct fits. -/

theorem rejects_constructs (h : item.Rejects mid) :
    ∀ construct ∈ constructs, construct.2.Rejects mid := by
  obtain ⟨hd, hs⟩ := List.forall_iff_forall_mem.mpr (rejects_of_anyOf h)
  have hdefinition := rejects_of_anyOf ((rejects_map_iff _).mp hd)
  have hstatement := rejects_of_anyOf ((rejects_map_iff _).mp hs)
  obtain ⟨hv, hf⟩ := List.forall_iff_forall_mem.mpr hdefinition
  obtain ⟨hb, hi, hw, hr, he⟩ := List.forall_iff_forall_mem.mpr hstatement
  exact List.forall_iff_forall_mem.mp ⟨hv, hf, he, (rejects_map_iff _).mp hb, hi, hw, hr⟩

theorem failure?_eq_some_iff {p : Parser α} : failure? p start = some e ↔ p.Fails start e := by
  rw [failure?, Fails]
  cases p start <;> simp

theorem failures_eq (cursor : Cursor) :
    failures cursor = constructs.filterMap fun construct => failure? construct.2 cursor := by
  simp only [failures, constructs, List.filterMap_cons, List.filterMap_nil, id]

theorem mem_failures_iff :
    e ∈ failures mid ↔ ∃ construct ∈ constructs, construct.2.Fails mid e := by
  simp only [failures_eq, List.mem_filterMap, failure?_eq_some_iff]

/-- The error of a construct that fails at `mid`, one of those with the greatest offset, and an
illegal construct if there is one among them. -/
structure FurthestFailure (mid : Cursor) (error : ParseError) : Prop where
  fails : ∃ construct ∈ constructs, construct.2.Fails mid error
  offset_le : ∀ construct ∈ constructs, ∀ e, construct.2.Fails mid e →
    e.location.offset ≤ error.location.offset
  isIllegal : ∀ construct ∈ constructs, ∀ e, construct.2.Fails mid e →
    e.location.offset = error.location.offset → e.isIllegal = true → error.isIllegal = true

theorem furthestFailure_of_diagnosis (h : diagnosis mid = some error) :
    FurthestFailure mid error := by
  refine ⟨mem_failures_iff.mp (List.maxOn?_mem h), ?_, ?_⟩
  · intro construct hc e he
    have hle := le_of_maxOn? h (mem_failures_iff.mpr ⟨construct, hc, he⟩)
    simp only [prominence] at hle
    split at hle <;> split at hle <;> omega
  · intro construct hc e he heq hi
    have hle := le_of_maxOn? h (mem_failures_iff.mpr ⟨construct, hc, he⟩)
    simp only [prominence, heq, hi, if_true] at hle
    by_contra hn
    rw [if_neg hn] at hle
    omega

/-! No failure is reported further back than where its parser started. -/

theorem offset_le_forward {i j : Nat} (h : InOrder tokens) (hi : tokens[i]? = some t)
    (hij : i ≤ j) :
    t.location.offset ≤ ((Cursor.ofTokens tokens).forward j).location.offset := by
  rw [Cursor.location_forward_ofTokens]
  cases hj : tokens[j]? with
  | some t' => exact (h.offset_le_iff hi hj).mpr hij
  | none =>
    cases hl : tokens.getLast? with
    | some last => exact Nat.le_of_lt (h.offset_lt_end hi hl)
    | none => simp [List.getLast?_eq_none_iff.mp hl] at hi

/-- A run from the token `t` on, beside itself. -/
def onward (h : InOrder tokens) {i : Nat} (hi : tokens[i]? = some t) : Tandem where
  first := (Cursor.ofTokens tokens).forward i
  second := (Cursor.ofTokens tokens).forward i
  Alike e e' := e = e' ∧ t.location.offset ≤ e.location.offset
  ahead := rfl
  reports {k} _ _ := ⟨rfl, by
    have hk := offset_le_forward h hi (Nat.le_add_right i k)
    simpa [Cursor.forward, Cursor.moveTo, Cursor.ofTokens] using hk⟩
  relabel := fun ⟨he, hle⟩ name => ⟨congrArg _ he, by simpa using hle⟩

theorem eq_forward_of_reads {ts : List Token} (h : start.Reads ts stop) :
    stop = start.forward ts.length := by
  obtain ⟨tokens, index⟩ := stop
  have ht := h.tokens
  have hi := h.index
  simp_all [Cursor.forward, Cursor.moveTo]

theorem offset_le_of_fails {i : Nat} {R : α → α → Prop} {p : Parser α} (h : InOrder tokens)
    (hi : tokens[i]? = some t) (hp : (onward h hi).Lockstep R p p)
    (hf : p.Fails ((Cursor.ofTokens tokens).forward i) e) :
    t.location.offset ≤ e.location.offset := by
  obtain ⟨stop, hf⟩ := hf
  have hr := hp (.start (onward h hi))
  simp only [onward, hf] at hr
  cases hr with
  | error he _ => exact he.2

/-! Whole programs. -/

theorem fails_finish_iff : (finish mid).Fails stop e ↔
    ∃ t, stop.peek? = some t ∧ (diagnosis mid).getD (.trailing t) = e := by
  simp only [Fails, finish, endOfInput]
  cases stop.peek? <;> simp

/-- The steps up to the failure of a program. -/
theorem fails_program_iff : program.Fails start error ↔
    ∃ items mid last stop t, many item start = .ok items mid ∧
      optional expression mid = .ok last stop ∧ stop.peek? = some t ∧
      (diagnosis mid).getD (.trailing t) = error := by
  apply fails_atomic_iff.trans
  simp only [fails_bind_iff, (NeverFails.many _).not_fails, NeverFails.get.not_fails,
    (NeverFails.optional _).not_fails, not_fails_pure, fails_finish_iff, false_or, and_false,
    exists_false, or_false, get_ok_iff]
  constructor
  · rintro ⟨items, mid, hi, _, _, ⟨rfl, rfl⟩, last, stop, hl, t, ht, he⟩
    exact ⟨items, mid, last, stop, t, hi, hl, ht, he⟩
  · rintro ⟨items, mid, last, stop, t, hi, hl, ht, he⟩
    exact ⟨items, mid, hi, mid, mid, ⟨rfl, rfl⟩, last, stop, hl, t, ht, he⟩

theorem run_error_iff {p : Parser α} : run p tokens = .error e ↔ p.Fails (.ofTokens tokens) e := by
  rw [run, Fails]
  cases p (.ofTokens tokens) <;> simp

/-- The statement that ends in a semicolon fails no earlier than for the token `t` that is left
over: where its expression ended, or inside it. -/
theorem exists_fails_expressionStatement {last : Option Expression} (h : InOrder tokens)
    (hm : ∃ ts, (Cursor.ofTokens tokens).Reads ts mid) (hr : expressionStatement.Rejects mid)
    (hl : optional expression mid = .ok last stop) (ht : stop.peek? = some t) :
    ∃ e, expressionStatement.Fails mid e ∧ t.location.offset ≤ e.location.offset := by
  obtain ⟨e, hf⟩ := hr.exists_fails
  refine ⟨e, hf, ?_⟩
  rcases fails_thenSkip_iff.mp ((fails_map_iff _).mp hf) with he | ⟨v, stop', hv, he⟩
  · obtain ⟨v, -, hv⟩ | ⟨-, -, rfl⟩ := optional_ok_iff.mp hl
    · exact (he.rejects v stop hv).elim
    · obtain ⟨ts, hts⟩ := hm
      obtain rfl := eq_forward_of_reads hts
      have hi : tokens[ts.length]? = some t := by
        simpa [Cursor.peek?, Cursor.forward, Cursor.moveTo, Cursor.ofTokens] using ht
      exact offset_le_of_fails h hi lockstep_expression he
  · obtain ⟨rfl, rfl⟩ := ok_unique (optional_of_ok hv) hl
    rw [fails_exactly he, Cursor.expecting, ht]
    exact Nat.le_refl _

/-- A program that does not parse is told why no construct fits where its items end. The error
does not point back into what has been read, not even into an expression behind the items. -/
theorem parseProgram_diagnosis (h : InOrder tokens) (he : parseProgram tokens = .error error) :
    ∃ items mid last stop t, many item (.ofTokens tokens) = .ok items mid ∧
      optional expression mid = .ok last stop ∧ stop.peek? = some t ∧
      (∀ construct ∈ constructs, ∃ e, construct.2.Fails mid e) ∧ FurthestFailure mid error ∧
      t.location.offset ≤ error.location.offset ∧ ∀ found, error.kind ≠ .trailingInput found := by
  obtain ⟨items, mid, last, stop, t, hi, hl, ht, hd⟩ := fails_program_iff.mp (run_error_iff.mp he)
  have hr := rejects_constructs ((many_ok_iff advances_item).mp hi).ends_stop
  have hc : (⟨_, expressionStatement⟩ : (α : Type) × Parser α) ∈ constructs := by
    simp [constructs]
  obtain ⟨e, hf, hle⟩ := exists_fails_expressionStatement h (advances_item.moves.many hi)
    (hr _ hc) hl ht
  have hm := mem_failures_iff.mpr ⟨_, hc, hf⟩
  have hsome : (diagnosis mid).isSome := List.isSome_maxOn?_of_mem hm
  obtain ⟨best, hbest⟩ := Option.isSome_iff_exists.mp hsome
  obtain rfl : best = error := by simpa [hbest] using hd
  have hfurthest := furthestFailure_of_diagnosis hbest
  obtain ⟨construct, hc', hf'⟩ := hfurthest.fails
  exact ⟨items, mid, last, stop, t, hi, hl, ht, fun construct hc => (hr construct hc).exists_fails,
    hfurthest, Nat.le_trans hle (hfurthest.offset_le _ hc e hf), wants_constructs _ hc' hf'⟩

/-- In `a; b c` the expression behind the item is `b`, and what is missing is missed at `c`. -/
theorem parseProgram_diagnosis_unfinished :
    let tokens : List (Located Token) := [⟨.identifier "a", ⟨⟨0⟩, 0, 1⟩⟩,
      ⟨.delimiter .semicolon, ⟨⟨0⟩, 1, 1⟩⟩, ⟨.identifier "b", ⟨⟨0⟩, 3, 1⟩⟩,
      ⟨.identifier "c", ⟨⟨0⟩, 5, 1⟩⟩]
    let error : ParseError := .unexpected "';'" ⟨.identifier "c", ⟨⟨0⟩, 5, 1⟩⟩
    parseProgram tokens = .error error ∧
      ∃ items mid last stop t, many item (.ofTokens tokens) = .ok items mid ∧
        optional expression mid = .ok last stop ∧ stop.peek? = some t ∧
        (∀ construct ∈ constructs, ∃ e, construct.2.Fails mid e) ∧ FurthestFailure mid error ∧
        t.location.offset ≤ error.location.offset ∧
        ∀ found, error.kind ≠ .trailingInput found := by
  intro tokens error
  have he : parseProgram tokens = .error error := by decide +kernel
  exact ⟨he, parseProgram_diagnosis ⟨by decide, by decide⟩ he⟩

end FrontEnd.Grammar
