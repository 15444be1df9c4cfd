import FrontEnd.Proofs.Grammar.Arguments
import FrontEnd.Proofs.Grammar.Refusals
import FrontEnd.Proofs.Grammar.StatementSoundness
import FrontEnd.Proofs.Parser.Passes

/-! Operators that are written where they may stand, and what is said of those that do not fit their
operands. A chain of operands is read to its end whatever they are, and then either has a tree or
is refused at one of its operators. -/
namespace FrontEnd.Grammar

open FrontEnd.Parser

variable {start mid stop : Cursor}

/-- The token that an operator is read from. -/
def operatorAt (symbol : Operator) (location : Location) : Located Token :=
  ⟨.operator symbol, location⟩

def PrefixOp.operator : PrefixOp → Operator
  | .unary op => op.operator
  | .step op => op.operator

/-- An operand as it is written: operators in front of a leaf, and perhaps a step behind it. -/
structure Written where
  before : List (Located PrefixOp)
  body : List (Located Token)
  leaf : Expression
  behind : Option (Located StepOp)
  /-- The rule for leaves reads the body to its end. -/
  whole : ∃ stop, Grammar.leaf (.ofTokens body) = .ok leaf stop ∧ stop.ahead = []
  inFront : ∀ op ∈ before, ∀ step, op.value = .step step → step.isPre = true
  atBack : ∀ op ∈ behind, op.value.isPre = false

namespace Written

def tokens (w : Written) : List (Located Token) :=
  w.before.map (fun op => operatorAt op.value.operator op.location) ++
    (w.body ++ (w.behind.map fun op => operatorAt op.value.operator op.location).toList)

/-- The steps that are refused, in the order in which they would be. -/
def faults (w : Written) : List Location := faultsAround w.before w.leaf w.behind

/-- Just a variable, so that an assignment may follow. -/
def isTarget (w : Written) : Bool := w.before.isEmpty && (w.leaf.isVar && w.behind.isNone)

/-- What the operand stands for. -/
def outcome (w : Written) : Except ParseError Expression := applyAround w.before w.leaf w.behind

end Written

/-- An infix operator and the operand behind it. -/
abbrev WrittenLink := Located Infix × Written

namespace WrittenLink

def tokens (l : WrittenLink) : List (Located Token) :=
  operatorAt l.1.value.operator l.1.location :: l.2.tokens

def outcome (l : WrittenLink) : Except ParseError Link :=
  (fun operand => ⟨l.1.value, l.1.location, operand⟩) <$> l.2.outcome

end WrittenLink

/-- The assignments that do not stand right behind just a variable, the last first; `previous` is
the operand before the links. -/
def misassigned : (previous : Written) → List WrittenLink → List Location
  | _, [] => []
  | previous, (op, w) :: rest =>
    misassigned w rest ++ if op.value.isAssign && !previous.isTarget then [op.location] else []

/-- Operands with infix operators between them, as they are written. -/
structure WrittenChain where
  first : Written
  rest : List WrittenLink

namespace WrittenChain

def tokens (c : WrittenChain) : List (Located Token) :=
  c.first.tokens ++ c.rest.flatMap WrittenLink.tokens

/-- The operators that are refused, in the order in which they would be: the steps of the operands
from the left, and then the assignments from the right. -/
def faults (c : WrittenChain) : List Location :=
  c.first.faults ++ (c.rest.flatMap (fun l => l.2.faults) ++ misassigned c.first c.rest)

/-- What the chain stands for. -/
def outcome (c : WrittenChain) : Except ParseError Expression := do
  let first ← c.first.outcome
  let links ← c.rest.mapM WrittenLink.outcome
  resolve first links

end WrittenChain

/-! What the operators of a chain come to. -/

theorem judged_mapM_outcome (rest : List WrittenLink) :
    Judged (rest.flatMap fun l => l.2.faults) (rest.mapM WrittenLink.outcome) := by
  induction rest with
  | nil => exact .ok []
  | cons l rest ih =>
    rw [List.mapM_cons, List.flatMap_cons]
    have hl : Judged l.2.faults l.outcome := (judged_applyAround _ _ _).map _
    refine hl.bind fun link _ => ?_
    rw [← List.append_nil (rest.flatMap _)]
    exact ih.bind fun links _ => .ok _

/-- An operand is a variable exactly if it is written as just one. -/
theorem untargeted_of_outcome {rest : List WrittenLink} {links : List Link} {previous : Written}
    {x : Expression} (h : rest.mapM WrittenLink.outcome = .ok links)
    (hx : previous.outcome = .ok x) : untargeted x links = misassigned previous rest := by
  induction rest generalizing links previous x with
  | nil =>
    cases h
    rfl
  | cons l rest ih =>
    obtain ⟨op, w⟩ := l
    rw [List.mapM_cons] at h
    obtain ⟨link, hl, h⟩ := except_bind_ok_iff.mp h
    obtain ⟨links, hls, h⟩ := except_bind_ok_iff.mp h
    cases h
    cases hw : w.outcome with
    | error => simp [WrittenLink.outcome, hw, Functor.map, Except.map] at hl
    | ok y =>
      obtain rfl : ⟨op.value, op.location, y⟩ = link := by
        simpa [WrittenLink.outcome, hw, Functor.map, Except.map] using hl
      rw [untargeted, misassigned, ih hls hw, isVar_of_applyAround hx]
      rfl

theorem WrittenChain.judged (c : WrittenChain) : Judged c.faults c.outcome := by
  have hf : Judged c.first.faults c.first.outcome := judged_applyAround _ _ _
  refine hf.bind fun x hx => (judged_mapM_outcome c.rest).bind fun links hl => ?_
  rw [← untargeted_of_outcome hl hx]
  exact judged_resolve x links

/-! What is written is read to its end. -/

theorem readsValues_expression : ReadsValues expression := by
  intro start e stop mid name h hr
  obtain ⟨v, -, hv⟩ := (expression_named_iff hr).mp h
  exact ⟨v, hv⟩

theorem Written.leafOf (w : Written) : LeafOf (w.body.map Located.value) w.leaf := by
  obtain ⟨stop, h, hs⟩ := w.whole
  obtain ⟨ts, hr, hd⟩ := Layer.sound_leaf sound_expression readsValues_expression h
  have ha := hr.ahead
  rw [hs, List.append_nil, Cursor.ahead_ofTokens] at ha
  rwa [ha]

theorem whole_of_leafOf {body : List (Located Token)} {e : Expression}
    (h : LeafOf (body.map Located.value) e) :
    ∃ stop, leaf (.ofTokens body) = .ok e stop ∧ stop.ahead = [] := by
  obtain ⟨stop, hp, hs⟩ := Cursor.Passes.ofTokens body
  exact ⟨stop, h.complete hp.reads (nextIs_of_end hs), hs⟩

theorem prefixOperator_of_passes {op : Located PrefixOp}
    (hop : ∀ step, op.value = .step step → step.isPre = true)
    (h : start.Passes [operatorAt op.value.operator op.location] stop) :
    prefixOperator start = .ok op stop := by
  obtain ⟨op, location⟩ := op
  refine token_of_passes h ?_
  cases op with
  | unary op => cases op <;> rfl
  | step op =>
    have hpre := hop op rfl
    cases op <;> first | rfl | cases hpre

theorem postfixOperator_of_passes {op : Located StepOp} (hop : op.value.isPre = false)
    (h : start.Passes [operatorAt op.value.operator op.location] stop) :
    postfixOperator start = .ok op stop := by
  obtain ⟨op, location⟩ := op
  refine token_of_passes h ?_
  cases op <;> first | rfl | cases hop

theorem infixOperator_of_passes {op : Located Infix}
    (h : start.Passes [operatorAt op.value.operator op.location] stop) :
    infixOperator start = .ok op stop :=
  token_of_passes h (Infix.ofOperator?_operator op.value)

theorem repeats_prefixOperator {ops : List (Located PrefixOp)}
    (hops : ∀ op ∈ ops, ∀ step, op.value = .step step → step.isPre = true)
    (h : start.Passes (ops.map fun op => operatorAt op.value.operator op.location) stop)
    (hn : prefixOperator.Rejects stop) :
    Repeats prefixOperator.Rejects prefixOperator start ops stop := by
  induction ops generalizing start with
  | nil =>
    obtain rfl := h.reads.stop_eq (.refl start)
    exact .nil hn
  | cons op ops ih =>
    obtain ⟨mid, ho, hs⟩ := h.uncons
    exact .cons (prefixOperator_of_passes (hops op List.mem_cons_self) ho)
      (ih (fun op' hm => hops op' (List.mem_cons_of_mem op hm)) hs)

theorem gives_operand (w : Written) (h : start.Passes w.tokens stop)
    (hn : stop.NextIs EndsOperand) : operand.Gives start w.outcome stop := by
  obtain ⟨m, hpre, h⟩ := h.split
  obtain ⟨m', hbody, hpost⟩ := h.split
  have hd := w.leafOf
  have hb : optional postfixOperator m' = .ok w.behind stop ∧
      m'.NextIs (· ≠ .delimiter .openParen) := by
    cases hw : w.behind with
    | none =>
      rw [hw] at hpost
      obtain rfl := hpost.reads.stop_eq (.refl m')
      exact ⟨optional_of_rejects (EndsOperand.rejects_postfix hn),
        hn.mono fun t ht => ht.ne_openParen⟩
    | some op =>
      rw [hw] at hpost
      exact ⟨optional_of_ok (postfixOperator_of_passes (w.atBack op hw) hpost),
        nextIs_of_reads hpost.reads (by simp [operatorAt])⟩
  have hl : leaf m = .ok w.leaf m' := hd.complete hbody.reads hb.2
  obtain ⟨t, us, hts, ht⟩ := hd.start
  have hp := repeats_prefixOperator w.inFront hpre (prefixOperator_rejects (hts ▸ hbody.reads) ht)
  have hparts : (do return (← many prefixOperator, ← leaf, ← optional postfixOperator) :
      Parser _) start = .ok (w.before, w.leaf, w.behind) stop := by
    simp only [bind_ok_iff, pure_ok_iff]
    exact ⟨w.before, m, (many_ok_iff (advances_token _ _)).mpr hp, w.leaf, m', hl, w.behind, stop,
      hb.1, rfl, rfl⟩
  exact (Gives.ok hparts).andThen _

theorem nextIs_of_links {rest : List WrittenLink}
    (h : start.Passes (rest.flatMap WrittenLink.tokens) stop) (hn : stop.NextIs EndsExpression) :
    start.NextIs EndsOperand := by
  cases rest with
  | nil =>
    obtain rfl := h.reads.stop_eq (.refl start)
    exact hn.mono fun t ht => Or.inl ht
  | cons l rest => exact nextIs_of_reads h.reads (Or.inr ⟨l.1.value, rfl⟩)

/-- Operator by operator, for as many rounds as there are tokens. -/
theorem gives_links {rest : List WrittenLink} {bound : Nat}
    (h : start.Passes (rest.flatMap WrittenLink.tokens) stop) (hn : stop.NextIs EndsExpression)
    (hb : start.remaining < bound) :
    (committedUpTo infixOperator (fun op =>
      (fun operand => (⟨op.value, op.location, operand⟩ : Link)) <$> operand) bound).Gives start
      (rest.mapM WrittenLink.outcome) stop := by
  induction rest generalizing start bound with
  | nil =>
    obtain rfl := h.reads.stop_eq (.refl start)
    obtain ⟨bound, rfl⟩ : ∃ n, bound = n + 1 := ⟨bound - 1, by omega⟩
    have ho := optional_of_rejects (EndsExpression.rejects_infix hn)
    exact Gives.bind_of_ok ho (.pure [])
  | cons l rest ih =>
    obtain ⟨bound, rfl⟩ : ∃ n, bound = n + 1 := ⟨bound - 1, by omega⟩
    obtain ⟨op, w⟩ := l
    obtain ⟨m, hop, h⟩ := h.uncons
    obtain ⟨m', hw, hs⟩ := h.split
    have := hop.reads.remaining_lt (List.cons_ne_nil _ _)
    have := hw.reads.remaining_le
    have ho := optional_of_ok (infixOperator_of_passes hop)
    have hlink := (gives_operand w hw (nextIs_of_links hs hn)).map fun operand =>
      (⟨op.value, op.location, operand⟩ : Link)
    have hb' : m'.remaining < bound := by omega
    rw [List.mapM_cons]
    exact Gives.bind_of_ok ho
      (hlink.bind fun link _ => (ih hs hb').bind fun links _ => .pure (link :: links))

theorem gives_expression (c : WrittenChain) (h : start.Passes c.tokens stop)
    (hn : stop.NextIs EndsExpression) : expression.Gives start c.outcome stop := by
  obtain ⟨m, hf, hl⟩ := h.split
  have hchain : (Layer.chain expression).Gives start (do
      let first ← c.first.outcome
      let links ← c.rest.mapM WrittenLink.outcome
      return (first, links)) stop := by
    have hlinks := gives_links hl hn (Nat.lt_succ_self m.remaining)
    exact (gives_operand c.first hf (nextIs_of_links hl hn)).bind fun first _ =>
      Gives.bind (hlinks.of_eq rfl) fun links _ => .pure (first, links)
  have he : (Layer.expression expression).Gives start _ stop := hchain.andThen _
  rw [expression_eq]
  simpa [WrittenChain.outcome] using he

theorem run_of_gives {α : Type} {p : Parser α} {x : Except ParseError α}
    {tokens : List (Located Token)} (h : p.Gives (.ofTokens tokens) x stop) : run p tokens = x := by
  cases h with
  | ok hp => simp [run, hp]
  | error hp => simp [run, hp]

/-- A chain is read as what it stands for. -/
theorem parseExpression_tokens (c : WrittenChain) : parseExpression c.tokens = c.outcome := by
  obtain ⟨stop, h, hs⟩ := Cursor.Passes.ofTokens c.tokens
  have he := gives_expression c h (nextIs_of_end hs)
  exact run_of_gives (he.thenSkip (endOfInput_ok_iff.mpr ⟨hs, rfl⟩))

/-- A chain of operands parses exactly if no operator in it is at fault. If one is, the first of
them is refused where it stands. -/
theorem parseExpression_legality (c : WrittenChain) :
    ((∃ e, parseExpression c.tokens = .ok e) ↔ c.faults = []) ∧
      ∀ error, parseExpression c.tokens = .error error →
        error.isIllegal = true ∧ c.faults.head? = some error.location := by
  have hj := c.judged
  rw [parseExpression_tokens]
  refine ⟨hj.exists_ok_iff, fun error he => ?_⟩
  rw [he] at hj
  exact hj.of_error

/-- In `++a - 1-- = 2` the step behind the number is refused, and not the assignment to it. -/
theorem parseExpression_legality_numbers :
    let place (offset length : Nat) : Location := ⟨⟨0⟩, offset, length⟩
    let tokens : List (Located Token) := [⟨.operator .plusPlus, place 0 2⟩,
      ⟨.identifier "a", place 2 1⟩, ⟨.operator .minus, place 4 1⟩, ⟨.numeric "1" none, place 6 1⟩,
      ⟨.operator .minusMinus, place 7 2⟩, ⟨.operator .assign, place 10 1⟩,
      ⟨.numeric "2" none, place 12 1⟩]
    ∃ error, parseExpression tokens = .error error ∧ error.isIllegal = true ∧
      error.location = place 7 2 := by
  intro place tokens
  let increment : Written := ⟨[⟨.step .preIncrement, place 0 2⟩], [⟨.identifier "a", place 2 1⟩],
    .var "a", none, whole_of_leafOf (.var "a"), by simp [StepOp.isPre], nofun⟩
  let decrement : Written := ⟨[], [⟨.numeric "1" none, place 6 1⟩], .numeric "1" none,
    some ⟨.postDecrement, place 7 2⟩, whole_of_leafOf (.numeric "1" none), nofun, by
      simp [StepOp.isPre]⟩
  let two : Written := ⟨[], [⟨.numeric "2" none, place 12 1⟩], .numeric "2" none, none,
    whole_of_leafOf (.numeric "2" none), nofun, nofun⟩
  let c : WrittenChain := ⟨increment, [(⟨.binary .subtract, place 4 1⟩, decrement),
    (⟨.assign .assign, place 10 1⟩, two)]⟩
  have hf : c.faults = [place 7 2, place 10 1] := rfl
  obtain ⟨hok, herror⟩ := parseExpression_legality c
  change (∃ e, parseExpression tokens = .ok e) ↔ _ at hok
  cases h : parseExpression tokens with
  | ok e => simp [h, hf] at hok
  | error error =>
    obtain ⟨hi, hl⟩ := herror error h
    rw [hf] at hl
    exact ⟨error, rfl, hi, (Option.some.inj hl).symm⟩

end FrontEnd.Grammar
