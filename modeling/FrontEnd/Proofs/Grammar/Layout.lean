import FrontEnd.Proofs.Grammar.Lockstep
import FrontEnd.Proofs.Token.Order
import FrontEnd.Syntax.Equality

/-! Where tokens stand does not matter to the grammar, only that they stand in order. -/
namespace FrontEnd.Grammar

variable {tokens tokens' : List (Located Token)} {l l' m m' : Location}

/-- The places of one token in both lists, or just past the last token of both. -/
inductive SamePlace (tokens tokens' : List (Located Token)) : Location → Location → Prop
  | token {i : Nat} {t t' : Located Token} (h : tokens[i]? = some t) (h' : tokens'[i]? = some t') :
      SamePlace tokens tokens' t.location t'.location
  | pastEnd {last last' : Located Token} (h : tokens.getLast? = some last)
      (h' : tokens'.getLast? = some last') :
      SamePlace tokens tokens' last.location.after last'.location.after
  | empty (h : tokens = []) (h' : tokens' = []) : SamePlace tokens tokens' .origin .origin

/-- The same complaint about the same place. -/
structure SameError (tokens tokens' : List (Located Token)) (e e' : ParseError) : Prop where
  kind : e.kind = e'.kind
  place : SamePlace tokens tokens' e.location e'.location

theorem samePlace_forward (hv : tokens.map Located.value = tokens'.map Located.value) (k : Nat) :
    SamePlace tokens tokens' ((Cursor.ofTokens tokens).forward k).location
      ((Cursor.ofTokens tokens').forward k).location := by
  have hk : tokens[k]?.map Located.value = tokens'[k]?.map Located.value := by
    rw [← List.getElem?_map, hv, List.getElem?_map]
  have hlast : tokens.getLast?.map Located.value = tokens'.getLast?.map Located.value := by
    rw [← List.getLast?_map, hv, List.getLast?_map]
  rw [Cursor.location_forward_ofTokens, Cursor.location_forward_ofTokens]
  cases ht : tokens[k]? with
  | some t =>
    rw [ht] at hk
    obtain ⟨t', ht', -⟩ := Option.map_eq_some_iff.mp hk.symm
    rw [ht']
    exact .token ht ht'
  | none =>
    rw [ht] at hk
    rw [Option.map_eq_none_iff.mp hk.symm]
    cases hl : tokens.getLast? with
    | some last =>
      rw [hl] at hlast
      obtain ⟨last', hl', -⟩ := Option.map_eq_some_iff.mp hlast.symm
      rw [hl']
      exact .pastEnd hl hl'
    | none =>
      rw [hl] at hlast
      have hl' := Option.map_eq_none_iff.mp hlast.symm
      rw [hl']
      exact .empty (List.getLast?_eq_none_iff.mp hl) (List.getLast?_eq_none_iff.mp hl')

/-- Two lists with the same tokens at places of their own. -/
def layout (hv : tokens.map Located.value = tokens'.map Located.value) : Tandem where
  first := .ofTokens tokens
  second := .ofTokens tokens'
  Alike := SameError tokens tokens'
  ahead := by simp [hv]
  reports _ := ⟨rfl, samePlace_forward hv _⟩
  relabel h name := ⟨ParseError.kind_expecting_eq h.kind name, by simpa using h.place⟩

theorem SamePlace.offset_le_iff (h : InOrder tokens) (h' : InOrder tokens')
    (hl : SamePlace tokens tokens' l l') (hm : SamePlace tokens tokens' m m') :
    l.offset ≤ m.offset ↔ l'.offset ≤ m'.offset := by
  cases hl with
  | token hi hi' =>
    cases hm with
    | token hj hj' => rw [h.offset_le_iff hi hj, h'.offset_le_iff hi' hj']
    | pastEnd hlast hlast' =>
      have := h.offset_lt_end hi hlast
      have := h'.offset_lt_end hi' hlast'
      simp only [Location.after]
      omega
    | empty hn => simp [hn] at hi
  | pastEnd hlast hlast' =>
    cases hm with
    | token hj hj' =>
      have := h.offset_lt_end hj hlast
      have := h'.offset_lt_end hj' hlast'
      simp only [Location.after]
      omega
    | pastEnd hlast₂ hlast₂' =>
      rw [Option.some.inj (hlast.symm.trans hlast₂), Option.some.inj (hlast'.symm.trans hlast₂')]
      simp
    | empty hn => simp [hn] at hlast
  | empty hn hn' =>
    cases hm with
    | token hj _ => simp [hn] at hj
    | pastEnd hlast _ => simp [hn] at hlast
    | empty => rfl

/-- The choice among errors is by offset, and this is where the order of the tokens is needed. -/
theorem comparable_layout (hv : tokens.map Located.value = tokens'.map Located.value)
    (h : InOrder tokens) (h' : InOrder tokens') : Comparable (layout hv) := by
  intro e e' d d' he hd
  have hle := SamePlace.offset_le_iff h h' he.place hd.place
  have hge := SamePlace.offset_le_iff h h' hd.place he.place
  have hi : e.isIllegal = e'.isIllegal := by rw [ParseError.isIllegal, ParseError.isIllegal, he.kind]
  have hi' : d.isIllegal = d'.isIllegal := by
    rw [ParseError.isIllegal, ParseError.isIllegal, hd.kind]
  simp only [prominence, hi, hi']
  split <;> split <;> omega

/-- Two ways to lay out the same tokens parse to the same tree, or fail with the same complaint
about the same token. -/
theorem parse_layout (hv : tokens.map Located.value = tokens'.map Located.value)
    (h : InOrder tokens) (h' : InOrder tokens') :
    Answers (SameError tokens tokens') Eq (parseProgram tokens) (parseProgram tokens') ∧
      Answers (SameError tokens tokens') Eq (parseExpression tokens) (parseExpression tokens') := by
  constructor
  · exact answers_run (T := layout hv) (lockstep_program (comparable_layout hv h h')) rfl rfl
  · exact answers_run (T := layout hv) (lockstep_expression.thenSkip .endOfInput) rfl rfl

/-- The assignment of a negated variable is refused at the assignment, however it is laid out. -/
theorem parse_layout_negated :
    let tokens : List (Located Token) := [⟨.operator .minus, ⟨⟨0⟩, 0, 1⟩⟩,
      ⟨.identifier "a", ⟨⟨0⟩, 1, 1⟩⟩, ⟨.operator .assign, ⟨⟨0⟩, 2, 1⟩⟩,
      ⟨.identifier "b", ⟨⟨0⟩, 3, 1⟩⟩]
    let tokens' : List (Located Token) := [⟨.operator .minus, ⟨⟨1⟩, 7, 1⟩⟩,
      ⟨.identifier "a", ⟨⟨1⟩, 9, 3⟩⟩, ⟨.operator .assign, ⟨⟨1⟩, 40, 1⟩⟩,
      ⟨.identifier "b", ⟨⟨1⟩, 41, 1⟩⟩]
    parseProgram tokens' =
        .error ⟨.illegalConstruct "'=' requires a variable on its left", ⟨⟨1⟩, 40, 1⟩⟩ ∧
      Answers (SameError tokens tokens') Eq (parseProgram tokens) (parseProgram tokens') ∧
      Answers (SameError tokens tokens') Eq (parseExpression tokens) (parseExpression tokens') := by
  refine ⟨by decide +kernel, ?_⟩
  exact parse_layout (by decide) ⟨by decide, by decide⟩ ⟨by decide, by decide⟩

end FrontEnd.Grammar
