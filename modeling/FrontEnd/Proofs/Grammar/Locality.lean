import FrontEnd.Proofs.Grammar.Lockstep
import FrontEnd.Proofs.Grammar.Rules

/-! What has been read is forgotten. A parser that the combinators make of tokens and rules does the
same whatever stands before the cursor, and ends as many tokens further on. -/
namespace FrontEnd

namespace Cursor

variable {pre suf : List (Located Token)} {k : Nat}

/-- The cursor before the same token, with the tokens `pre` in front of all others. -/
def behind (pre : List (Located Token)) (cursor : Cursor) : Cursor :=
  ⟨pre.toArray ++ cursor.tokens, pre.length + cursor.index⟩

/-- The place where `pre` has been read and `suf` has not. -/
def between (pre suf : List (Located Token)) : Cursor := (ofTokens (pre ++ suf)).moveTo pre.length

theorem behind_forward : ((ofTokens suf).forward k).behind pre = (between pre suf).forward k := by
  simp [behind, forward, moveTo, ofTokens, between]

theorem ahead_between : (between pre suf).ahead = (ofTokens suf).ahead := by
  simp [ahead, between, ofTokens, moveTo]

/-- The last token of all is the last of `suf`, so even the end is reported at the same place. -/
theorem location_between (hs : suf ≠ []) :
    ((between pre suf).forward k).location = ((ofTokens suf).forward k).location := by
  have hf : (between pre suf).forward k = (ofTokens (pre ++ suf)).forward (pre.length + k) := by
    simp [between, forward, moveTo, ofTokens]
  rw [hf, location_forward_ofTokens, location_forward_ofTokens,
    List.getElem?_append_right (Nat.le_add_right _ k), Nat.add_sub_cancel_left,
    List.getLast?_append_of_ne_nil pre hs]

end Cursor

namespace Parser

variable {α : Type}

/-- The same value or error, behind the tokens `pre`. -/
def Trial.behind (pre : List (Located Token)) : Trial α → Trial α
  | .ok v cursor => .ok v (cursor.behind pre)
  | .error e cursor => .error e (cursor.behind pre)

/-- Tokens before the cursor make no difference, as long as there are others behind it. -/
def Forgets (p : Parser α) : Prop :=
  ∀ pre suf : List (Located Token), suf ≠ [] →
    p (.between pre suf) = Trial.behind pre (p (.ofTokens suf))

end Parser

namespace Tandem.Lockstep

open FrontEnd.Parser

variable {α : Type} {T : Tandem} {R : α → α → Prop} {p q : Parser α}

/-- Both runs set the index back to where they were in step. -/
theorem rewind (hp : T.Lockstep R p p) : T.Lockstep R (rewind p) (rewind p) := by
  intro c c' hc
  have hr := hp hc
  obtain ⟨k⟩ := hc
  simp only [Parser.rewind]
  generalize p (T.first.forward k) = trial, p (T.second.forward k) = trial' at hr ⊢
  cases hr with
  | ok hv hd => exact .ok hv hd
  | error he hd =>
    obtain ⟨j⟩ := hd
    exact .error he (.forward k)

theorem resume (hp : T.Lockstep R p p) (hq : T.Lockstep R q q) :
    T.Lockstep R (p.resume q) (p.resume q) := by
  intro c c' hc
  have hr := hp hc
  simp only [Parser.resume]
  generalize p c = trial, p c' = trial' at hr ⊢
  cases hr with
  | ok hv hd => exact .ok hv hd
  | error _ hd => exact hq hd

end Tandem.Lockstep

namespace Grammar

open FrontEnd.Parser Tandem

/-- The parsers that the combinators make of tokens, rules and one another. A rule that contains
itself is made of layers, however many of them. -/
inductive Composed : {α : Type} → Parser α → Prop
  | rule {rule : (α : Type) × Parser α} (h : rule ∈ rules) : Composed rule.2
  | token {α : Type} (expected : String) (select : Token → Option α) :
      Composed (token expected select)
  | keyword (word : Keyword) : Composed (keyword word)
  | operator (symbol : Operator) : Composed (operator symbol)
  | delimiter (symbol : Delimiter) : Composed (delimiter symbol)
  | identifier : Composed identifier
  | endOfInput : Composed endOfInput
  | pure {α : Type} (v : α) : Composed (pure v)
  | bind {α β : Type} {p : Parser α} {f : α → Parser β} (hp : Composed p)
      (hf : ∀ v, Composed (f v)) : Composed (p >>= f)
  | atomic {α : Type} {p : Parser α} (hp : Composed p) : Composed (atomic p)
  | rewind {α : Type} {p : Parser α} (hp : Composed p) : Composed (rewind p)
  | map {α β : Type} {p : Parser α} (f : α → β) (hp : Composed p) : Composed (f <$> p)
  | andThen {α β : Type} {p : Parser α} (hp : Composed p) (step : α → Except ParseError β) :
      Composed (p.andThen step)
  | pair {α β : Type} {p : Parser α} {r : Parser β} (hp : Composed p) (hr : Composed r) :
      Composed (p.pair r)
  | thenSkip {α β : Type} {p : Parser α} {r : Parser β} (hp : Composed p) (hr : Composed r) :
      Composed (p.thenSkip r)
  | skipThen {α β : Type} {p : Parser α} {r : Parser β} (hp : Composed p) (hr : Composed r) :
      Composed (p.skipThen r)
  | orElse {α : Type} {p q : Parser α} (hp : Composed p) (hq : Composed q) :
      Composed (p.orElse q)
  | resume {α : Type} {p q : Parser α} (hp : Composed p) (hq : Composed q) :
      Composed (p.resume q)
  | label {α : Type} {p : Parser α} (hp : Composed p) (name : String) : Composed (p.label name)
  | sequence {α : Type} {ps : List (Parser α)} (h : ∀ p ∈ ps, Composed p) :
      Composed (Parser.sequence ps)
  | anyOf {α : Type} {ps : List (Parser α)} (h : ∀ p ∈ ps, Composed p) : Composed (anyOf ps)
  | allOf {α : Type} {ps : List (Parser α)} (h : ∀ p ∈ ps, Composed p) : Composed (allOf ps)
  | separated {α β : Type} {p : Parser α} {r : Parser β} (hp : Composed p) (hr : Composed r) :
      Composed (separated p r)
  | many {α : Type} {p : Parser α} (hp : Composed p) : Composed (many p)
  | optional {α : Type} {p : Parser α} (hp : Composed p) : Composed (optional p)
  | fix {α : Type} {layer : Parser α → Parser α} (h : ∀ depth, Composed (nested layer depth)) :
      Composed (fix layer)

variable {α : Type} {p : Parser α} {pre suf : List (Located Token)} {hs : suf ≠ []}

/-- A run on `suf`, beside one on the same tokens behind `pre`. -/
def behindTokens (pre : List (Located Token)) (hs : suf ≠ []) : Tandem where
  first := .ofTokens suf
  second := .between pre suf
  Alike := Eq
  ahead := Cursor.ahead_between.symm
  reports _ := by rw [Cursor.location_between hs]
  relabel h name := congrArg _ h

theorem comparable_behindTokens : Comparable (behindTokens pre hs) := by
  rintro e _ d _ rfl rfl
  rfl

theorem lockstep_token (expected : String) (select : Token → Option α) :
    (behindTokens pre hs).Lockstep Eq (token expected select) (token expected select) := by
  refine (Lockstep.token expected select).mono ?_
  rintro _ _ ⟨_, _⟩
  exact congrArg _ (Cursor.location_between hs).symm

theorem lockstep_exactly (t : Token) :
    (behindTokens pre hs).Lockstep Eq (exactly t) (exactly t) :=
  (lockstep_token _ _).map (congrArg _)

theorem lockstep_rules :
    ∀ rule ∈ rules, (behindTokens pre hs).Lockstep Eq rule.2 rule.2 := by
  have hbefore : (behindTokens pre hs).Lockstep Eq prefixOperator prefixOperator :=
    lockstep_token _ _
  have hafter : (behindTokens pre hs).Lockstep Eq postfixOperator postfixOperator :=
    lockstep_token _ _
  have hbetween : (behindTokens pre hs).Lockstep Eq infixOperator infixOperator :=
    lockstep_token _ _
  have he : (behindTokens pre hs).Lockstep Eq expression expression := lockstep_expression
  have hb : (behindTokens pre hs).Lockstep Eq block block := lockstep_block
  refine List.forall_iff_forall_mem.mp ?_
  exact ⟨lockstep_boolean, lockstep_numeric, lockstep_textual, lockstep_variableRead,
    Layer.lockstep_parenthesized he, Layer.lockstep_argument he, Layer.lockstep_arguments he,
    Layer.lockstep_call he, Layer.lockstep_leaf he, hbefore, hafter, hbetween,
    Layer.lockstep_operand he, he, lockstep_condition, lockstep_expressionStatement,
    lockstep_returnStatement, .fix (Layer.lockstep_ifStatement hb),
    Layer.lockstep_whileStatement hb, hb, Layer.lockstep_statement hb, lockstep_variableDefinition,
    lockstep_modifiers, lockstep_parameters, Layer.lockstep_functionDefinition hb,
    Layer.lockstep_definition hb, Layer.lockstep_item hb,
    lockstep_program comparable_behindTokens, he.thenSkip .endOfInput⟩

theorem Composed.lockstep (h : Composed p) : (behindTokens pre hs).Lockstep Eq p p := by
  induction h with
  | rule h => exact lockstep_rules _ h
  | token expected select => exact lockstep_token expected select
  | keyword word => exact lockstep_exactly _
  | operator symbol => exact lockstep_exactly _
  | delimiter symbol => exact lockstep_exactly _
  | identifier => exact lockstep_token _ _
  | endOfInput => exact .endOfInput
  | pure v => exact .pure rfl
  | bind _ _ ih ih' =>
    refine ih.bind ?_
    rintro v _ rfl
    exact ih' v
  | atomic _ ih => exact ih.atomic
  | rewind _ ih => exact ih.rewind
  | map f _ ih => exact ih.map (congrArg f)
  | andThen _ step ih =>
    refine ih.andThen ?_
    rintro v _ rfl
    cases step v with
    | ok w => exact .ok rfl
    | error e => exact .error rfl
  | pair _ _ ih ih' => exact (ih.pair ih').mono fun h => Prod.ext h.1 h.2
  | thenSkip _ _ ih ih' => exact ih.thenSkip ih'
  | skipThen _ _ ih ih' => exact ih.skipThen ih'
  | orElse _ _ ih ih' => exact ih.orElse ih'
  | resume _ _ ih ih' => exact ih.resume ih'
  | label _ name ih => exact ih.label name
  | sequence _ ih => exact (Lockstep.sequence ih).list_eq
  | anyOf _ ih => exact .anyOf ih
  | allOf _ ih => exact .allOf ih
  | separated _ _ ih ih' => exact (ih.separated ih').list_eq
  | many _ ih => exact ih.many.list_eq
  | optional _ ih => exact ih.optional.option_eq
  | fix _ ih =>
    -- As many tokens remain in both runs, so the same layer is entered.
    intro c c' hc
    rw [Parser.fix, Parser.fix, hc.remaining_eq]
    exact ih _ hc

theorem Composed.forgets (h : Composed p) : Forgets p := by
  intro pre suf hs
  have hr := h.lockstep (.start (behindTokens pre hs))
  simp only [behindTokens] at hr
  generalize p (.ofTokens suf) = trial, p (.between pre suf) = trial' at hr ⊢
  cases hr with
  | ok hv hc =>
    obtain ⟨k⟩ := hc
    cases hv
    exact congrArg _ Cursor.behind_forward.symm
  | error he hc =>
    obtain ⟨k⟩ := hc
    cases he
    exact congrArg _ Cursor.behind_forward.symm

/-- No parser that is composed of tokens and rules can tell what stands before the cursor, and no
rule of the grammar can. -/
theorem forgets_composed :
    (∀ {α : Type} {p : Parser α}, Composed p → Forgets p) ∧ ∀ rule ∈ rules, Forgets rule.2 :=
  ⟨Composed.forgets, fun _ h => (Composed.rule h).forgets⟩

/-- Behind `( a ,` the names of `b, c` are listed as they are without it, and `b, c` is no program
for the same reason. -/
theorem forgets_composed_list :
    let name (text : String) (offset : Nat) : Located Token :=
      ⟨.identifier text, ⟨⟨0⟩, offset, 1⟩⟩
    let comma (offset : Nat) : Located Token := ⟨.delimiter .comma, ⟨⟨0⟩, offset, 1⟩⟩
    let pre := [⟨.delimiter .openParen, ⟨⟨0⟩, 0, 1⟩⟩, name "a" 1, comma 2]
    let suf := [name "b" 4, comma 5, name "c" 7]
    separated identifier (delimiter .comma) (.between pre suf) =
        .ok [⟨"b", ⟨⟨0⟩, 4, 1⟩⟩, ⟨"c", ⟨⟨0⟩, 7, 1⟩⟩] ((Cursor.between pre suf).moveTo 6) ∧
      failure? program (.ofTokens suf) = some (.unexpected "';'" (comma 5)) ∧
      failure? program (.between pre suf) = some (.unexpected "';'" (comma 5)) := by
  intro name comma pre suf
  have hl : Forgets (separated identifier (delimiter .comma)) :=
    forgets_composed.1 (.separated .identifier (.delimiter _))
  have hp : Forgets program := forgets_composed.2 ⟨_, program⟩ (by simp [rules])
  have hf : failure? program (.ofTokens suf) = some (.unexpected "';'" (comma 5)) := by
    decide +kernel
  refine ⟨?_, hf, ?_⟩
  · rw [hl pre suf (by simp [suf])]
    rfl
  · rw [failure?, hp pre suf (by simp [suf])]
    rw [failure?] at hf
    cases h : program (.ofTokens suf) with
    | ok => simp [h] at hf
    | error => simpa [h, Trial.behind] using hf

end Grammar

end FrontEnd
