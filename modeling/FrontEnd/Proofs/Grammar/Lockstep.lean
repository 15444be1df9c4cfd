import FrontEnd.Grammar.Program
import FrontEnd.Proofs.Parser.Lockstep

/-! The rules of the grammar in two runs side by side. Of the places that go through them only those
of steps and assignments are ever used: an operator that is refused is reported where it stands. -/
namespace FrontEnd.Grammar

open FrontEnd.Parser Tandem

variable {T : Tandem} {α : Type} {e left right : Expression} {link link' : Link}
  {links links' : List Link} {inner : Parser Expression} {blk : Parser (List Node)}
  {nest : Parser Statement} {c c' : Cursor}

/-- The same operator in both runs. If `wants` says that it wants a variable, then it can be
refused in both. -/
def SameOp (T : Tandem) (wants : α → Prop) (op op' : Located α) : Prop :=
  op.value = op'.value ∧ (wants op.value → ∀ construct,
    T.Alike (.illegal construct op.location) (.illegal construct op'.location))

theorem lockstep_operator {wants : α → Prop} {expected : String} {select : Token → Option α}
    (hw : ∀ t v, select t = some v → wants v → ∃ op ∈ targeting, t = .operator op) :
    T.Lockstep (SameOp T wants) (token expected select) (token expected select) := by
  refine (Lockstep.token expected select).mono ?_
  rintro _ _ ⟨ht, hv⟩
  refine ⟨rfl, fun hwants construct => ?_⟩
  obtain ⟨op, hop, rfl⟩ := hw _ _ hv hwants
  exact T.reports (ht ▸ .illegal hop construct)

theorem lockstep_prefixOperator :
    T.Lockstep (SameOp T fun op => ∃ step, op = .step step) prefixOperator prefixOperator := by
  apply lockstep_operator
  rintro t _ hs ⟨step, rfl⟩
  split at hs <;> cases hs
  · exact ⟨.plusPlus, by decide, rfl⟩
  · exact ⟨.minusMinus, by decide, rfl⟩

theorem lockstep_postfixOperator :
    T.Lockstep (SameOp T fun _ => True) postfixOperator postfixOperator := by
  apply lockstep_operator
  intro t v hs _
  split at hs
  · exact ⟨.plusPlus, by decide, rfl⟩
  · exact ⟨.minusMinus, by decide, rfl⟩
  · cases hs

theorem lockstep_infixOperator :
    T.Lockstep (SameOp T fun op => ∃ kind, op = .assign kind) infixOperator infixOperator := by
  apply lockstep_operator
  rintro t _ hs ⟨kind, rfl⟩
  split at hs
  · next symbol =>
    refine ⟨symbol, ?_, rfl⟩
    cases symbol <;> cases hs <;> decide
  · cases hs

theorem answers_applyStep {op op' : Located StepOp} (h : SameOp T (fun _ => True) op op') :
    Answers T.Alike Eq (applyStep op e) (applyStep op' e) := by
  obtain ⟨op, location⟩ := op
  obtain ⟨op', location'⟩ := op'
  obtain ⟨rfl, hr⟩ := h
  cases e with
  | var target => exact .ok rfl
  | _ => exact .error (hr trivial _)

theorem answers_applyPrefix {op op' : Located PrefixOp}
    (h : SameOp T (fun op => ∃ step, op = .step step) op op') :
    Answers T.Alike Eq (applyPrefix op e) (applyPrefix op' e) := by
  obtain ⟨op, location⟩ := op
  obtain ⟨op', location'⟩ := op'
  obtain ⟨rfl, hr⟩ := h
  cases op with
  | unary op => exact .ok rfl
  | step op => exact answers_applyStep ⟨rfl, fun _ => hr ⟨op, rfl⟩⟩

theorem answers_applyAround {prefixes prefixes' : List (Located PrefixOp)}
    {behind behind' : Option (Located StepOp)}
    (hp : List.Forall₂ (SameOp T fun op => ∃ step, op = .step step) prefixes prefixes')
    (hb : Option.Rel (SameOp T fun _ => True) behind behind') :
    Answers T.Alike Eq (applyAround prefixes e behind) (applyAround prefixes' e behind') := by
  have hpre : ∀ operand, Answers T.Alike Eq (prefixes.foldrM applyPrefix operand)
      (prefixes'.foldrM applyPrefix operand) := by
    intro operand
    induction hp with
    | nil => exact .ok rfl
    | cons hop _ ih =>
      rw [List.foldrM_cons, List.foldrM_cons]
      refine ih.bind ?_
      rintro v _ rfl
      exact answers_applyPrefix hop
  cases hb with
  | none => exact hpre e
  | some hop =>
    refine (answers_applyStep hop).bind ?_
    rintro v _ rfl
    exact hpre v

/-- The same link in both runs, in which an assignment can be refused in both. -/
structure SameLink (T : Tandem) (link link' : Link) : Prop where
  op : SameOp T (fun op => ∃ kind, op = .assign kind) ⟨link.op, link.location⟩
    ⟨link'.op, link'.location⟩
  operand : link.operand = link'.operand

theorem answers_join (h : SameLink T link link') :
    Answers T.Alike Eq (link.join left right) (link'.join left right) := by
  obtain ⟨op, location, operand⟩ := link
  obtain ⟨op', location', operand'⟩ := link'
  obtain ⟨⟨rfl, hr⟩, -⟩ := h
  cases op with
  | binary op => exact .ok rfl
  | assign op =>
    cases left with
    | var target => exact .ok rfl
    | _ => exact .error (hr ⟨op, rfl⟩ _)

/-- The same tree, and the same links left over. -/
def SameRest (T : Tandem) (x x' : Expression × List Link) : Prop :=
  x.1 = x'.1 ∧ List.Forall₂ (SameLink T) x.2 x'.2

/-- Which link is taken next depends on the operators alone. -/
theorem answers_climb_absorb (fuel : Nat) :
    (∀ {links links' : List Link}, List.Forall₂ (SameLink T) links links' → ∀ left bound,
      Answers T.Alike (SameRest T) (climb fuel left bound links) (climb fuel left bound links')) ∧
    ∀ {links links' : List Link}, List.Forall₂ (SameLink T) links links' → ∀ pending right,
      Answers T.Alike (SameRest T) (absorb fuel pending right links)
        (absorb fuel pending right links') := by
  induction fuel with
  | zero =>
    constructor
    · intro links links' h left bound
      exact .ok ⟨rfl, h⟩
    · intro links links' h pending right
      exact .ok ⟨rfl, h⟩
  | succ fuel ih =>
    obtain ⟨ihc, iha⟩ := ih
    constructor
    · intro links links' h left bound
      cases h with
      | nil => exact .ok ⟨rfl, .nil⟩
      | @cons link link' links links' hl hs =>
        rw [climb, climb, show link.op = link'.op from hl.op.1, hl.operand]
        split
        · refine (iha hs _ _).bind ?_
          rintro ⟨right, rest⟩ ⟨_, rest'⟩ ⟨rfl, hr⟩
          refine (answers_join hl).bind ?_
          rintro x _ rfl
          exact ihc hr x bound
        · exact .ok ⟨rfl, .cons hl hs⟩
    · intro links links' h pending right
      cases h with
      | nil => exact .ok ⟨rfl, .nil⟩
      | @cons next next' links links' hl hs =>
        rw [absorb, absorb, show next.op = next'.op from hl.op.1]
        split
        · exact .ok ⟨rfl, .cons hl hs⟩
        · refine (ihc (.cons hl hs) _ _).bind ?_
          rintro ⟨x, rest⟩ ⟨_, rest'⟩ ⟨rfl, hr⟩
          exact iha hr pending x

theorem answers_resolve (h : List.Forall₂ (SameLink T) links links') :
    Answers T.Alike Eq (resolve e links) (resolve e links') := by
  rw [resolve, resolve, h.length_eq]
  exact ((answers_climb_absorb _).1 h _ _).map fun hx => hx.1

theorem lockstep_boolean : T.Lockstep Eq boolean boolean :=
  (Lockstep.token _ _).map fun h => congrArg Expression.boolean h.value_eq

theorem lockstep_numeric : T.Lockstep Eq numeric numeric :=
  (Lockstep.token _ _).map Found.value_eq

theorem lockstep_textual : T.Lockstep Eq textual textual :=
  (Lockstep.token _ _).map Found.value_eq

theorem lockstep_variableRead : T.Lockstep Eq variableRead variableRead :=
  Lockstep.identifier.map (congrArg Expression.var)

namespace Layer

theorem lockstep_parenthesized (h : T.Lockstep Eq inner inner) :
    T.Lockstep Eq (parenthesized inner) (parenthesized inner) :=
  ((Lockstep.exactly _).skipThen h).thenSkip (Lockstep.exactly _)

theorem lockstep_argument (h : T.Lockstep Eq inner inner) :
    T.Lockstep Eq (argument inner) (argument inner) :=
  (((Lockstep.identifier.thenSkip (Lockstep.exactly _)).pair h).map fun ⟨hn, hv⟩ =>
    congrArg₂ Argument.named hn hv).orElse (h.map (congrArg _))

theorem lockstep_arguments (h : T.Lockstep Eq inner inner) :
    T.Lockstep Eq (arguments inner) (arguments inner) :=
  ((Lockstep.exactly _).skipThen
    ((lockstep_argument h).separated (Lockstep.exactly _)).list_eq).thenSkip (Lockstep.exactly _)

theorem lockstep_call (h : T.Lockstep Eq inner inner) :
    T.Lockstep Eq (call inner) (call inner) :=
  (Lockstep.identifier.pair (lockstep_arguments h)).map fun ⟨hf, ha⟩ =>
    congrArg₂ Expression.call hf ha

theorem lockstep_leaf (h : T.Lockstep Eq inner inner) :
    T.Lockstep Eq (leaf inner) (leaf inner) := by
  refine Lockstep.label (Lockstep.anyOf (List.forall_iff_forall_mem.mp ?_)) _
  exact ⟨lockstep_boolean, lockstep_numeric, lockstep_textual, lockstep_call h,
    lockstep_variableRead, lockstep_parenthesized h⟩

theorem lockstep_operand (h : T.Lockstep Eq inner inner) :
    T.Lockstep Eq (operand inner) (operand inner) := by
  have hparts : T.Lockstep (fun x x' =>
      List.Forall₂ (SameOp T fun op => ∃ step, op = .step step) x.1 x'.1 ∧ x.2.1 = x'.2.1 ∧
        Option.Rel (SameOp T fun _ => True) x.2.2 x'.2.2)
      (do return (← many prefixOperator, ← leaf inner, ← optional postfixOperator))
      (do return (← many prefixOperator, ← leaf inner, ← optional postfixOperator)) :=
    lockstep_prefixOperator.many.bind fun hp => (lockstep_leaf h).bind fun hl =>
      lockstep_postfixOperator.optional.bind fun hb => .pure ⟨hp, hl, hb⟩
  refine hparts.andThen ?_
  rintro ⟨prefixes, e, behind⟩ ⟨prefixes', _, behind'⟩ ⟨hp, rfl, hb⟩
  exact answers_applyAround hp hb

theorem lockstep_chain (h : T.Lockstep Eq inner inner) :
    T.Lockstep (SameRest T) (chain inner) (chain inner) := by
  refine (lockstep_operand h).bind fun hfirst => ?_
  refine (lockstep_infixOperator.committed (S := SameLink T) fun hop => ?_).bind fun hlinks =>
    .pure ⟨hfirst, hlinks⟩
  exact (lockstep_operand h).map fun hoperand => ⟨hop, hoperand⟩

theorem lockstep_expression (h : T.Lockstep Eq inner inner) :
    T.Lockstep Eq (expression inner) (expression inner) := by
  refine (lockstep_chain h).andThen ?_
  rintro ⟨first, links⟩ ⟨_, links'⟩ ⟨rfl, hl⟩
  exact answers_resolve hl

end Layer

theorem lockstep_expression : T.Lockstep Eq expression expression :=
  .fix Layer.lockstep_expression

theorem lockstep_condition : T.Lockstep Eq condition condition :=
  Layer.lockstep_parenthesized lockstep_expression

theorem lockstep_expressionStatement : T.Lockstep Eq expressionStatement expressionStatement :=
  (lockstep_expression.thenSkip (Lockstep.exactly _)).map (congrArg _)

theorem lockstep_returnStatement : T.Lockstep Eq returnStatement returnStatement :=
  (((Lockstep.exactly _).skipThen lockstep_expression.optional.option_eq).thenSkip
    (Lockstep.exactly _)).map (congrArg _)

theorem lockstep_variableDefinition : T.Lockstep Eq variableDefinition variableDefinition :=
  ((((Lockstep.exactly _).skipThen (Lockstep.identifier.label _)).pair
    ((Lockstep.exactly _).skipThen lockstep_expression).optional.option_eq).thenSkip
      (Lockstep.exactly _)).map fun ⟨hn, hi⟩ => congrArg₂ Definition.var hn hi

theorem lockstep_modifier (word : Keyword) (meaning : Modifiers) :
    T.Lockstep Eq (modifier word meaning) (modifier word meaning) := by
  refine (Lockstep.exactly _).optional.map ?_
  rintro _ _ (_ | _) <;> rfl

theorem lockstep_modifiers : T.Lockstep Eq modifiers modifiers := by
  refine (Lockstep.allOf (List.forall_iff_forall_mem.mp ?_)).map (congrArg _)
  exact ⟨lockstep_modifier _ _, lockstep_modifier _ _⟩

theorem lockstep_parameters : T.Lockstep Eq parameters parameters :=
  ((Lockstep.exactly _).skipThen ((Lockstep.identifier.map id).separated
    (Lockstep.exactly _)).list_eq).thenSkip (Lockstep.exactly _)

namespace Layer

theorem lockstep_ifStatement (hb : T.Lockstep Eq blk blk) (hn : T.Lockstep Eq nest nest) :
    T.Lockstep Eq (ifStatement blk nest) (ifStatement blk nest) := by
  have ho : T.Lockstep Eq (anyOf [nest, .block <$> blk]) (anyOf [nest, .block <$> blk]) := by
    refine .anyOf (List.forall_iff_forall_mem.mp ?_)
    exact ⟨hn, hb.map (congrArg _)⟩
  refine .atomic ((Lockstep.exactly _).bind fun _ => lockstep_condition.bind fun hc =>
    hb.bind fun hi => ((Lockstep.exactly _).skipThen ho).optional.option_eq.bind fun ho => ?_)
  rw [hc, hi, ho]
  exact .pure rfl

theorem lockstep_whileStatement (hb : T.Lockstep Eq blk blk) :
    T.Lockstep Eq (whileStatement blk) (whileStatement blk) :=
  (((Lockstep.exactly _).skipThen lockstep_condition).pair hb).map fun ⟨hc, hi⟩ =>
    congrArg₂ Statement.whileLoop hc hi

theorem lockstep_statement (hb : T.Lockstep Eq blk blk) :
    T.Lockstep Eq (statement blk) (statement blk) := by
  refine .anyOf (List.forall_iff_forall_mem.mp ?_)
  exact ⟨hb.map (congrArg _), .fix (lockstep_ifStatement hb), lockstep_whileStatement hb,
    lockstep_returnStatement, lockstep_expressionStatement⟩

theorem lockstep_functionDefinition (hb : T.Lockstep Eq blk blk) :
    T.Lockstep Eq (functionDefinition blk) (functionDefinition blk) := by
  have ho : T.Lockstep Eq (anyOf [some <$> blk, (fun _ => none) <$> delimiter .semicolon])
      (anyOf [some <$> blk, (fun _ => none) <$> delimiter .semicolon]) := by
    refine .anyOf (List.forall_iff_forall_mem.mp ?_)
    exact ⟨hb.map (congrArg _), (Lockstep.exactly _).map fun _ => rfl⟩
  refine .atomic (lockstep_modifiers.bind fun hm => (Lockstep.exactly _).bind fun _ =>
    (Lockstep.identifier.label _).bind fun hn => lockstep_parameters.bind fun hp =>
      ho.bind fun hbody => ?_)
  rw [hm, hn, hp, hbody]
  exact .pure rfl

theorem lockstep_definition (hb : T.Lockstep Eq blk blk) :
    T.Lockstep Eq (definition blk) (definition blk) := by
  refine .anyOf (List.forall_iff_forall_mem.mp ?_)
  exact ⟨lockstep_variableDefinition, lockstep_functionDefinition hb⟩

theorem lockstep_item (hb : T.Lockstep Eq blk blk) : T.Lockstep Eq (item blk) (item blk) := by
  refine .anyOf (List.forall_iff_forall_mem.mp ?_)
  exact ⟨(lockstep_definition hb).map (congrArg _), (lockstep_statement hb).map (congrArg _)⟩

theorem lockstep_braced (hb : T.Lockstep Eq blk blk) :
    T.Lockstep Eq (braced blk) (braced blk) :=
  .atomic ((Lockstep.exactly _).bind fun _ => (lockstep_item hb).many.list_eq.bind fun hi =>
    (Lockstep.exactly _).bind fun _ => .pure hi)

end Layer

theorem lockstep_block : T.Lockstep Eq block block := .fix Layer.lockstep_braced

/-! Programs. The error that a program ends with is chosen by offset, so the offsets of errors that
are alike have to compare alike. -/

/-- The order of errors in the one run is the order of those in the other. -/
def Comparable (T : Tandem) : Prop :=
  ∀ {e e' d d' : ParseError}, T.Alike e e' → T.Alike d d' →
    (prominence e ≤ prominence d ↔ prominence e' ≤ prominence d')

theorem rel_failure? {p : Parser α} {R : α → α → Prop} (h : T.Lockstep R p p)
    (hc : T.InStep c c') : Option.Rel T.Alike (failure? p c) (failure? p c') := by
  rw [failure?, failure?]
  match p c, p c', h hc with
  | _, _, .ok _ _ => exact .none
  | _, _, .error he _ => exact .some he

theorem forall₂_failures (hc : T.InStep c c') :
    List.Forall₂ T.Alike (failures c) (failures c') := by
  have hb : T.Lockstep Eq block block := lockstep_block
  refine List.rel_filterMap (fun _ _ h => h) ?_
  simp only [List.forall₂_cons, List.forall₂_nil_left_iff, and_true]
  exact ⟨rel_failure? lockstep_variableDefinition hc,
    rel_failure? (Layer.lockstep_functionDefinition hb) hc,
    rel_failure? lockstep_expressionStatement hc, rel_failure? hb hc,
    rel_failure? (.fix (Layer.lockstep_ifStatement hb)) hc,
    rel_failure? (Layer.lockstep_whileStatement hb) hc, rel_failure? lockstep_returnStatement hc⟩

theorem lockstep_finish (hk : Comparable T) (hc : T.InStep c c') :
    T.Lockstep Eq (finish c) (finish c') := by
  intro d d' hd
  have hm : Option.Rel T.Alike (diagnosis c) (diagnosis c') := maxOn?_rel hk (forall₂_failures hc)
  simp only [finish]
  -- Whether there is a diagnosis is the same in both runs, since both have as many failures.
  match endOfInput d, endOfInput d', Lockstep.endOfInput hd with
  | _, _, .ok _ _ => exact .ok rfl hd
  | _, _, .error he _ =>
    refine .error ?_ hd
    match diagnosis c, diagnosis c', hm with
    | _, _, .none => exact he
    | _, _, .some he' => exact he'

theorem lockstep_program (hk : Comparable T) : T.Lockstep Eq program program := by
  refine .atomic ((Layer.lockstep_item lockstep_block).many.list_eq.bind fun hi =>
    Lockstep.get.bind fun hstop => lockstep_expression.optional.option_eq.bind fun hl =>
      (lockstep_finish hk hstop).bind fun _ => ?_)
  rw [hi, hl]
  exact .pure rfl

theorem answers_run {tokens tokens' : List (Located Token)} {R : α → α → Prop} {p : Parser α}
    (h : T.Lockstep R p p) (hf : T.first = .ofTokens tokens) (hs : T.second = .ofTokens tokens') :
    Answers T.Alike R (run p tokens) (run p tokens') := by
  rw [run, run, ← hf, ← hs]
  match p T.first, p T.second, h (.start T) with
  | _, _, .ok hv _ => exact .ok hv
  | _, _, .error he _ => exact .error he

end FrontEnd.Grammar
