import FrontEnd.Proofs.Grammar.Allowance

/-! The grammar always makes progress. Every rule that succeeds has read a token, and every rule
comes to an outcome, whatever the tokens are. -/
namespace FrontEnd.Grammar

open FrontEnd.Parser

/-- `p` reads a token whenever it succeeds, and within any allowance of more than the tokens that
remain it comes to its outcome. -/
structure Progresses {α : Type} (m : Nat → Metered α) (p : Parser α) : Prop where
  advances : Advances p
  follows : ∀ n, Follows n (m n) p

theorem progresses_expression : Progresses Within.expression expression where
  advances := sound_expression.advances fun _ _ h => h.start
  follows := follows_expression

/-- A rule around an expression reads a token before it comes to it. -/
theorem follows_around_expression {α : Type} {m : Nat → Metered α} {p : Parser α}
    (h : ∀ n, Follows n (Within.expression (n + 1)) expression → Follows (n + 1) (m (n + 1)) p) :
    ∀ n, Follows n (m n) p
  | 0 => .zero _ _
  | n + 1 => h n ((follows_expression (n + 1)).mono (Nat.le_succ n))

theorem progresses_operand : Progresses Within.operand operand where
  advances := Within.advances_operand
  follows := follows_around_expression fun n h => follows_operand h (Nat.lt_succ_self n)

theorem progresses_leaf : Progresses Within.leaf leaf where
  advances := sound_leaf.advances fun _ _ h => h.start
  follows := follows_around_expression fun n h => follows_leaf h (Nat.le_succ n)

theorem progresses_call : Progresses Within.call call where
  advances := (Layer.sound_call sound_expression readsValues_expression).advances
    fun _ _ h => h.start
  follows := follows_around_expression fun n h => follows_call h (Nat.le_succ n)

theorem progresses_arguments : Progresses Within.arguments arguments where
  advances := ((advances_delimiter _).skipThen (moves_argument.separated
    (advances_delimiter _).moves)).thenSkip (advances_delimiter _).moves
  follows := follows_around_expression fun n h => follows_arguments h (Nat.le_succ n)

theorem ArgumentOf.start {ts : List Token} {a : Argument} (h : ArgumentOf ts a) :
    ∃ t us, ts = t :: us ∧ StartsExpression t := by
  cases h with
  | named name => exact ⟨_, _, rfl, trivial⟩
  | positional he => exact he.start

theorem progresses_argument : Progresses Within.argument argument where
  advances := (Layer.sound_argument sound_expression readsValues_expression).advances
    fun _ _ h => h.start
  follows n := follows_argument (follows_expression n)

theorem progresses_item : Progresses Within.item item where
  advances := advances_item
  follows n := follows_item (follows_block n) (follows_ifStatement n)

theorem progresses_statement : Progresses Within.statement statement where
  advances := (Layer.sound_statement sound_block).advances fun _ _ h => h.start
  follows n := follows_statement (follows_block n) (follows_ifStatement n)

theorem progresses_definition : Progresses Within.definition definition where
  advances := (Layer.sound_definition sound_block).advances fun _ _ h => h.start
  follows n := follows_definition (follows_block n)

theorem progresses_block : Progresses Within.block block where
  advances := sound_block.advances fun _ _ h => (StatementOf.block h).start
  follows := follows_block

theorem progresses_ifStatement : Progresses Within.ifStatement ifStatement where
  advances := (Layer.sound_fix_ifStatement sound_block).advances fun _ _ h =>
    (StatementOf.ifElse h).start
  follows := follows_ifStatement

/-! What a climb leaves behind. -/

theorem ahead_ne_assign {m : Metered Expression} {left x : Expression} {bound : Nat}
    {start stop : Cursor} (h : Within.Climbs m left bound start x stop) (hne : stop ≠ start)
    (op : AssignOp) (rest : List Token) : stop.ahead ≠ .operator op.operator :: rest := by
  intro ha
  have ha' : stop.ahead = [.operator op.operator] ++ rest := ha
  obtain ⟨mid, hr, -⟩ := Cursor.exists_reads ha'
  obtain ⟨location, hop⟩ := infixOperator_of_reads (.assign op) hr
  rcases h.stays_or_left with hstays | hleft
  · exact hne hstays
  · cases hleft _ mid hop

/-- Every rule reads a token when it succeeds and comes to its outcome within an allowance of more
than the tokens that remain; and so do the loops, which take from it once a round. A climb on behalf
of the operator it starts in front of reads on behind that operator, and a climb that has read
something is not followed by an assignment. -/
theorem grammar_progress :
    (Progresses Within.expression expression ∧ Progresses Within.operand operand ∧
      Progresses Within.leaf leaf ∧ Progresses Within.call call ∧
      Progresses Within.arguments arguments ∧ Progresses Within.argument argument ∧
      Progresses Within.item item ∧ Progresses Within.statement statement ∧
      Progresses Within.definition definition ∧ Progresses Within.block block ∧
      Progresses Within.ifStatement ifStatement) ∧
    (∀ (n allowance : Nat) (start mid stop : Cursor) (next : Located Infix) (right x : Expression),
      start.remaining < n → infixOperator start = .ok next mid →
      Within.climb (Within.operand n) allowance right next.value.precedence start =
        some (.ok x stop) → ∃ ts, mid.Reads ts stop) ∧
    (∀ (n allowance bound : Nat) (start stop : Cursor) (left x : Expression),
      Within.climb (Within.operand n) allowance left bound start = some (.ok x stop) →
      stop ≠ start → ∀ (op : AssignOp) (rest : List Token),
        stop.ahead ≠ .operator op.operator :: rest) ∧
    (∀ (n : Nat) (start : Cursor), start.remaining < n →
      (∀ left bound, ∃ trial, Within.climb (Within.operand n) n left bound start = some trial) ∧
      ∀ pending right, ∃ trial,
        Within.absorb (Within.operand n) n pending right start = some trial) ∧
    (∀ n, Follows n ((Within.item n).many n) (many item) ∧
      Follows n ((Within.argument n).separated (.free (delimiter .comma)) n)
        (separated argument (delimiter .comma)) ∧
      Follows n ((Metered.free (Located.value <$> identifier)).separated
        (.free (delimiter .comma)) n)
        (separated (Located.value <$> identifier) (delimiter .comma))) ∧
    ∀ (tokens : List (Located Token)) (n : Nat), tokens.length < n →
      Within.parseProgram n tokens = some (parseProgram tokens) ∧
      Within.parseExpression n tokens = some (parseExpression tokens) := by
  refine ⟨⟨progresses_expression, progresses_operand, progresses_leaf, progresses_call,
    progresses_arguments, progresses_argument, progresses_item, progresses_statement,
    progresses_definition, progresses_block, progresses_ifStatement⟩, ?_, ?_, ?_, ?_, ?_⟩
  · intro n allowance start mid stop next right x hs hop hc
    have hr := (Within.climbs_of_ok hc).reads (progresses_operand.follows n) hs
    exact hr.2 next mid hop (Nat.le_refl _)
  · intro n allowance bound start stop left x hc hne
    exact ahead_ne_assign (Within.climbs_of_ok hc) hne
  · intro n start hs
    have hm := progresses_operand.follows n
    exact ⟨Within.exists_climb hm hs hs, Within.exists_absorb hm hs hs⟩
  · intro n
    refine ⟨follows_items n, ?_, follows_parameterNames n⟩
    exact (progresses_argument.follows n).separated moves_argument (.free n _)
      (advances_delimiter _) (Nat.le_refl n)
  · intro tokens n hn
    exact ⟨parseProgram_of_length hn, parseExpression_of_length hn⟩

/-- In front of the assignment of `a + b = c` a climb takes all that is left, and six are enough for
the five tokens. -/
theorem grammar_progress_assigned_summand :
    let located (token : Token) : Located Token := ⟨token, .origin⟩
    let tokens := [located (.identifier "a"), located (.operator .plus),
      located (.identifier "b"), located (.operator .assign), located (.identifier "c")]
    let cursor := Cursor.ofTokens tokens
    infixOperator (cursor.moveTo 3) = .ok ⟨.assign .assign, .origin⟩ (cursor.moveTo 4) ∧
    Within.climb (Within.operand 6) 6 (.var "b") Infix.loosest (cursor.moveTo 3) =
      some (.ok (.assign .assign "b" (.var "c")) (cursor.moveTo 5)) ∧
    (∃ ts, (cursor.moveTo 4).Reads ts (cursor.moveTo 5)) ∧
    (∀ (op : AssignOp) (rest : List Token),
      (cursor.moveTo 5).ahead ≠ .operator op.operator :: rest) ∧
    Within.parseExpression 6 tokens = some (parseExpression tokens) := by
  intro located tokens cursor
  have hop : infixOperator (cursor.moveTo 3) =
      .ok ⟨.assign .assign, .origin⟩ (cursor.moveTo 4) := by rfl
  have hc : Within.climb (Within.operand 6) 6 (.var "b") Infix.loosest (cursor.moveTo 3) =
      some (.ok (.assign .assign "b" (.var "c")) (cursor.moveTo 5)) := by rfl
  obtain ⟨-, htakes, hfollows, -, -, hparse⟩ := grammar_progress
  refine ⟨hop, hc, ?_, ?_, (hparse tokens 6 (by decide)).2⟩
  · exact htakes 6 6 _ _ _ _ _ _ (by decide) hop hc
  · exact hfollows 6 6 _ _ _ _ _ hc (fun h => nomatch congrArg Cursor.index h)

end FrontEnd.Grammar
