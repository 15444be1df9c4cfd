import FrontEnd.Proofs.Grammar.Legality
import FrontEnd.Proofs.Grammar.StatementCompleteness
import FrontEnd.Proofs.Parser.Repetition

/-! Lists with separators keep what they have read: a list ends behind its last element, or behind
one more separator. So the lists of the grammar, those of arguments and of parameters, may have a
comma behind their last element. -/
namespace FrontEnd

theorem Cursor.Reads.tokens_eq {start stop : Cursor} {ts us : List Token} (h : start.Reads ts stop)
    (h' : start.Reads us stop) : ts = us :=
  List.append_cancel_right (h.ahead.symm.trans h'.ahead)

namespace Grammar

open FrontEnd.Parser

variable {α : Type} {element : Parser α} {rule : List Token → α → Prop} {ts : List Token}
  {vs : List α} {start stop : Cursor}

/-- A list without a comma at its end may have one there. -/
theorem Listed.concat_comma (h : Listed rule ts vs) (hv : vs ≠ [])
    (hc : ts.getLast? ≠ some (.delimiter .comma)) : Listed rule (ts ++ [.delimiter .comma]) vs := by
  induction h with
  | nil => exact (hv rfl).elim
  | single hr => exact .cons hr .nil
  | @cons ts us v vs hr hs ih =>
    have hu : us ≠ [] := by
      rintro rfl
      simp at hc
    have hn : vs ≠ [] := by
      rintro rfl
      cases hs
      exact hu rfl
    rw [List.append_cons, List.getLast?_append,
      Option.or_of_isSome (List.getLast?_isSome.mpr hu)] at hc
    rw [List.append_assoc, List.cons_append]
    exact .cons hr (ih hn hc)

/-- A list in parentheses, with commas between its elements. -/
def commaList (element : Parser α) : Parser (List α) :=
  ((delimiter .openParen).skipThen (separated element (delimiter .comma))).thenSkip
    (delimiter .closeParen)

/-- The tokens of a list in parentheses. -/
def inParentheses (ts : List Token) : List Token :=
  .delimiter .openParen :: (ts ++ [.delimiter .closeParen])

theorem listed_of_commaList (hs : Sound element rule) (h : commaList element start = .ok vs stop) :
    ∃ ts, start.Reads (inParentheses ts) stop ∧ Listed rule ts vs := by
  obtain ⟨m, _, h, hc⟩ := thenSkip_ok_iff.mp h
  obtain ⟨_, m', ho, h⟩ := skipThen_ok_iff.mp h
  obtain ⟨ts, hr, hd⟩ := listed_of_separated hs h
  exact ⟨ts, (reads_of_exactly ho).cons (hr.trans (reads_of_exactly hc)), hd⟩

theorem commaList_of_lists (hm : Moves element) (hr : start.Reads (inParentheses ts) stop)
    (hl : ∀ m m', m.Reads ts m' → m'.NextIs (· = .delimiter .closeParen) →
      Lists element (delimiter .comma) m vs m') : commaList element start = .ok vs stop := by
  obtain ⟨m, ho, hr⟩ := hr.uncons
  obtain ⟨m', hrl, hc⟩ := hr.split
  have hs := (separated_ok_iff hm (advances_delimiter _)).mpr (hl m m' hrl (nextIs_of_reads hc rfl))
  obtain ⟨_, ho⟩ := exactly_of_reads ho
  obtain ⟨_, hc⟩ := exactly_of_reads hc
  exact thenSkip_ok_iff.mpr ⟨m', _, skipThen_ok_iff.mpr ⟨_, m, ho, hs⟩, hc⟩

/-- With one comma more behind its last element a list in parentheses gives the same values,
whatever stands around it. -/
def AllowsTrailingComma (list : Parser (List α)) : Prop :=
  ∀ ⦃ts : List Token⦄ ⦃vs : List α⦄ ⦃start stop start' stop' : Cursor⦄,
    start.Reads (inParentheses ts) stop → list start = .ok vs stop → vs ≠ [] →
    ts.getLast? ≠ some (.delimiter .comma) →
    start'.Reads (inParentheses (ts ++ [.delimiter .comma])) stop' → list start' = .ok vs stop'

/-- It does, if the elements are those that the grammar derives. -/
theorem allowsTrailingComma_commaList (hs : Sound element rule)
    (hl : ∀ ⦃ts vs⦄, Listed rule ts vs → ∀ m m', m.Reads ts m' →
      m'.NextIs (· = .delimiter .closeParen) → Lists element (delimiter .comma) m vs m') :
    AllowsTrailingComma (commaList element) := by
  intro ts vs start stop start' stop' hr h hv hc hr'
  obtain ⟨us, hru, hd⟩ := listed_of_commaList hs h
  obtain rfl : us = ts := by simpa [inParentheses] using hru.tokens_eq hr
  exact commaList_of_lists hs.moves hr' (hl (hd.concat_comma hv hc))

theorem allowsTrailingComma_arguments : AllowsTrailingComma arguments := by
  have hs : Sound argument ArgumentOf :=
    Layer.sound_argument sound_expression readsValues_expression
  refine allowsTrailingComma_commaList hs ?_
  intro ts as hd m m' hr hn
  exact (ArgumentsOf.of_listed hd).complete hr hn

theorem allowsTrailingComma_parameters : AllowsTrailingComma parameters := by
  have hs : Sound (Located.value <$> identifier) ParameterOf := by
    intro start name stop h
    obtain ⟨found, hn, rfl⟩ := map_ok_iff.mp h
    exact ⟨_, reads_of_identifier hn, rfl⟩
  refine allowsTrailingComma_commaList hs ?_
  intro ts names hd m m' hr hn
  exact lists_of_listed hd hr hn

/-- A list with separators never fails. Where no element starts it is empty and reads nothing. Else
its rounds of a separator and an element follow the first element, no more of them than tokens
remain, and it ends behind the last element if no separator follows, or behind the separator. So
arguments and parameters may have a comma behind the last of them. -/
theorem separated_keeps_progress {α β : Type} (element : Parser α) (separator : Parser β)
    (start : Cursor) (he : ContractFrom start element) (hs : ContractFrom start separator)
    (ha : AdvancesFrom start (separator >>= fun _ => element)) :
    (element.Rejects start → separated element separator start = .ok [] start) ∧
    (∀ v mid, element start = .ok v mid →
      (∃ vs last stop, separated element separator start = .ok (v :: vs) stop ∧
        Repeats (fun _ => True) (separator >>= fun _ => element) mid vs last ∧
        (stop = last ∧ separator.Rejects last ∨
          ∃ w, separator last = .ok w stop ∧ element.Rejects stop)) ∧
      ∀ vs last, Repeats (fun _ => True) (separator >>= fun _ => element) mid vs last →
        vs.length ≤ mid.remaining) ∧
    AllowsTrailingComma arguments ∧ AllowsTrailingComma parameters := by
  refine ⟨separated_of_rejects, ?_, allowsTrailingComma_arguments, allowsTrailingComma_parameters⟩
  intro v mid hv
  have ho := he.onward hv
  refine ⟨separated_of_ok hv (he.mono ho) (hs.mono ho) (ha.mono ho), ?_⟩
  intro vs last h
  exact h.length_le_remaining (he.mono ho) (hs.mono ho) (ha.mono ho)

/-- Two names with a comma between them and one behind: both commas are read, and with parentheses
around them the names are the same as without the second. -/
theorem separated_keeps_progress_names :
    let located (token : Token) : Located Token := ⟨token, .origin⟩
    let comma : Token := .delimiter .comma
    let names : List Token := [.identifier "a", comma, .identifier "b"]
    let start := Cursor.ofTokens ((names ++ [comma]).map located)
    let short := Cursor.ofTokens ((inParentheses names).map located)
    let long := Cursor.ofTokens ((inParentheses (names ++ [comma])).map located)
    let name : Parser String := Located.value <$> identifier
    ContractFrom start name ∧ ContractFrom start (exactly comma) ∧
      AdvancesFrom start (exactly comma >>= fun _ => name) ∧
      (∃ last, Repeats (fun _ => True) (exactly comma >>= fun _ => name) (start.moveTo 1) ["b"] last ∧
        (start.moveTo 4 = last ∧ (exactly comma).Rejects last ∨
          ∃ w, exactly comma last = .ok w (start.moveTo 4) ∧ name.Rejects (start.moveTo 4))) ∧
      parameters short = .ok ["a", "b"] (short.moveTo 5) ∧
      parameters long = .ok ["a", "b"] (long.moveTo 6) := by
  intro located comma names start short long name
  have he : ContractFrom start name :=
    (Built.map _ .identifier).contract.contractFrom (Nat.zero_le _)
  have hs : ContractFrom start (exactly comma) :=
    (Built.delimiter .comma).contract.contractFrom (Nat.zero_le _)
  have ha : AdvancesFrom start (exactly comma >>= fun _ => name) := by
    intro cursor _ v stop h
    obtain ⟨w, mid, hw, hv⟩ := bind_ok_iff.mp h
    obtain ⟨t, ts, hr⟩ := advances_exactly comma hw
    obtain ⟨us, hr'⟩ := advances_identifier.moves.map Located.value hv
    have hle := hr'.index_le
    rw [hr.index, List.length_cons] at hle
    omega
  have h : separated name (exactly comma) start = .ok ["a", "b"] (start.moveTo 4) := by rfl
  have hshort : parameters short = .ok ["a", "b"] (short.moveTo 5) := by rfl
  obtain ⟨-, hrounds, -, hcomma⟩ := separated_keeps_progress name (exactly comma) start he hs ha
  obtain ⟨⟨vs, last, stop, hv, hl, hend⟩, -⟩ := hrounds "a" (start.moveTo 1) (by rfl)
  obtain ⟨hvs, rfl⟩ := ok_unique h hv
  obtain rfl := (List.cons.inj hvs).2
  have hr : short.Reads (inParentheses names) (short.moveTo 5) := ⟨rfl, rfl, rfl⟩
  have hr' : long.Reads (inParentheses (names ++ [comma])) (long.moveTo 6) := ⟨rfl, rfl, rfl⟩
  exact ⟨he, hs, ha, ⟨last, hl, hend⟩, hshort, hcomma hr hshort (by simp) (by decide) hr'⟩

end Grammar

end FrontEnd
