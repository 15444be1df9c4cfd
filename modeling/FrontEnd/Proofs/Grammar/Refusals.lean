import FrontEnd.Proofs.Grammar.ExpressionCompleteness

/-! Which operators are refused for their operands, and which of several refusals is reported. The
steps around a leaf are refused from the leaf outwards, and the assignments of a chain from the
right. -/
namespace FrontEnd

def Expression.isVar : Expression → Bool
  | .var _ => true
  | _ => false

def Infix.isAssign : Infix → Bool
  | .binary _ => false
  | .assign _ => true

namespace Grammar

variable {α β : Type} {faults faults' : List Location} {x : Except ParseError α}
  {left right first e : Expression} {bound : Nat} {link next : Link} {links rest : List Link}
  {pending : Infix} {error : ParseError}

/-- The error is a refusal at the first of the faults. -/
inductive Refuses : List Location → ParseError → Prop
  | first (construct : String) (location : Location) (others : List Location) :
      Refuses (location :: others) (.illegal construct location)

theorem Refuses.append (h : Refuses faults error) (faults' : List Location) :
    Refuses (faults ++ faults') error := by
  obtain ⟨construct, location, others⟩ := h
  exact .first construct location (others ++ faults')

/-- A value if there are no faults, and otherwise a refusal at the first of them. -/
inductive Judged : List Location → Except ParseError α → Prop
  | ok (v : α) : Judged [] (.ok v)
  | error {faults : List Location} {error : ParseError} (h : Refuses faults error) :
      Judged faults (.error error)

namespace Judged

/-- What comes first is refused first. -/
theorem bind {f : α → Except ParseError β} (h : Judged faults x)
    (hf : ∀ v, x = .ok v → Judged faults' (f v)) : Judged (faults ++ faults') (x >>= f) := by
  cases h with
  | ok v => exact hf v rfl
  | error h => exact .error (h.append faults')

theorem map (g : α → β) (h : Judged faults x) : Judged faults (g <$> x) := by
  cases h with
  | ok v => exact .ok (g v)
  | error h => exact .error h

theorem exists_ok_iff (h : Judged faults x) : (∃ v, x = .ok v) ↔ faults = [] := by
  cases h with
  | ok v => simp
  | error h =>
    cases h
    simp

theorem of_error (h : Judged faults (.error error : Except ParseError α)) :
    error.isIllegal = true ∧ faults.head? = some error.location := by
  obtain _ | ⟨⟨construct, location, others⟩⟩ := h
  exact ⟨rfl, rfl⟩

theorem mem_of_error (h : Judged faults x) (he : x = .error error) : error.location ∈ faults := by
  subst he
  exact List.mem_of_mem_head? h.of_error.2

end Judged

/-! Steps. -/

def PrefixOp.isStep : PrefixOp → Bool
  | .unary _ => false
  | .step _ => true

/-- The step behind a leaf, if the leaf is no variable. -/
def faultsBehind (leaf : Expression) : Option (Located StepOp) → List Location
  | none => []
  | some op => if leaf.isVar then [] else [op.location]

/-- The steps in front of a leaf that do not stand right before a variable, the nearest first.
`bare` says that the leaf is a variable without a step behind it. -/
def faultsBefore (bare : Bool) : List (Located PrefixOp) → List Location
  | [] => []
  | op :: ops =>
    faultsBefore bare ops ++
      if op.value.isStep && !(bare && ops.isEmpty) then [op.location] else []

def faultsAround (prefixes : List (Located PrefixOp)) (leaf : Expression)
    (behind : Option (Located StepOp)) : List Location :=
  faultsBehind leaf behind ++ faultsBefore (leaf.isVar && behind.isNone) prefixes

section Around

variable {op : Located PrefixOp} {prefixes : List (Located PrefixOp)} {leaf : Expression}
  {behind : Option (Located StepOp)} {location : Location}

theorem mem_of_faultsBefore {bare : Bool} (h : location ∈ faultsBefore bare prefixes) :
    ∃ op ∈ prefixes, op.location = location := by
  induction prefixes with
  | nil => cases h
  | cons op ops ih =>
    rcases List.mem_append.mp h with h | h
    · obtain ⟨op', hm, he⟩ := ih h
      exact ⟨op', List.mem_cons_of_mem op hm, he⟩
    · split at h
      · exact ⟨op, List.mem_cons_self, (List.mem_singleton.mp h).symm⟩
      · cases h

/-- A step is refused where it stands. -/
theorem mem_of_faultsAround (h : location ∈ faultsAround prefixes leaf behind) :
    (∃ op ∈ prefixes, op.location = location) ∨ ∃ op ∈ behind, op.location = location := by
  rcases List.mem_append.mp h with h | h
  · right
    cases behind with
    | none => cases h
    | some op =>
      simp only [faultsBehind] at h
      split at h
      · cases h
      · exact ⟨op, rfl, (List.mem_singleton.mp h).symm⟩
  · exact Or.inl (mem_of_faultsBefore h)

theorem judged_applyStep (op : Located StepOp) (operand : Expression) :
    Judged (if operand.isVar then [] else [op.location]) (applyStep op operand) := by
  cases operand with
  | var target => exact .ok _
  | _ => exact .error (.first _ op.location [])

theorem judged_applyPrefix (op : Located PrefixOp) (operand : Expression) :
    Judged (if op.value.isStep && !operand.isVar then [op.location] else [])
      (applyPrefix op operand) := by
  obtain ⟨op, location⟩ := op
  cases op with
  | unary op => exact .ok _
  | step op =>
    have h := judged_applyStep ⟨op, location⟩ operand
    cases hv : operand.isVar <;> simpa [applyPrefix, PrefixOp.isStep, hv] using h

theorem isVar_of_applyStep {op : Located StepOp} (h : applyStep op left = .ok e) :
    e.isVar = false := by
  cases left <;> cases h
  rfl

theorem isVar_of_applyPrefix (h : applyPrefix op left = .ok e) : e.isVar = false := by
  obtain ⟨op, location⟩ := op
  cases op with
  | unary op =>
    cases h
    rfl
  | step op => exact isVar_of_applyStep h

/-- Only a variable with nothing around it is a variable. -/
theorem isVar_of_applyAround (h : applyAround prefixes leaf behind = .ok e) :
    e.isVar = (prefixes.isEmpty && (leaf.isVar && behind.isNone)) := by
  cases prefixes with
  | nil =>
    cases behind with
    | none =>
      cases h
      simp
    | some op =>
      obtain ⟨y, hy, h⟩ := except_bind_ok_iff.mp h
      cases h
      simp [isVar_of_applyStep hy]
  | cons op ops =>
    rw [applyAround_cons] at h
    obtain ⟨y, -, h⟩ := except_bind_ok_iff.mp h
    simp [isVar_of_applyPrefix h]

theorem judged_applyAround (prefixes : List (Located PrefixOp)) (leaf : Expression)
    (behind : Option (Located StepOp)) :
    Judged (faultsAround prefixes leaf behind) (applyAround prefixes leaf behind) := by
  induction prefixes with
  | nil =>
    cases behind with
    | none => exact .ok leaf
    | some op => simpa [faultsAround, faultsBehind, faultsBefore, applyAround] using
        judged_applyStep op leaf
  | cons op ops ih =>
    rw [applyAround_cons, faultsAround, faultsBefore, ← List.append_assoc]
    refine ih.bind fun y hy => ?_
    have h := judged_applyPrefix op y
    rwa [isVar_of_applyAround hy, Bool.and_comm ops.isEmpty] at h

end Around

/-! Assignments. -/

/-- The assignments among the links that do not stand right behind a variable, the last first;
`previous` is the operand before the links. -/
def untargeted : (previous : Expression) → List Link → List Location
  | _, [] => []
  | previous, link :: links =>
    untargeted link.operand links ++
      if link.op.isAssign && !previous.isVar then [link.location] else []

theorem mem_of_untargeted {location : Location}
    (h : location ∈ untargeted first links) : ∃ link ∈ links, link.location = location := by
  induction links generalizing first with
  | nil => cases h
  | cons link links ih =>
    rcases List.mem_append.mp h with h | h
    · obtain ⟨link', hm, he⟩ := ih h
      exact ⟨link', List.mem_cons_of_mem link hm, he⟩
    · split at h
      · exact ⟨link, List.mem_cons_self, (List.mem_singleton.mp h).symm⟩
      · cases h

/-- A link that waits is no assignment, so that it does not matter what it follows. -/
theorem untargeted_of_waits (h : waitsFor next.op pending = true) (y z : Expression) :
    untargeted y (next :: links) = untargeted z (next :: links) := by
  obtain ⟨op, location, operand⟩ := next
  cases op with
  | binary op => rfl
  | assign op => cases (waitsFor_iff.mp h).1

theorem untargeted_of_join (h : link.join left right = .ok e) :
    untargeted left (link :: links) = untargeted link.operand links := by
  obtain ⟨op, location, operand⟩ := link
  cases op with
  | binary op => simp [untargeted, Infix.isAssign]
  | assign op =>
    cases left <;> cases h
    simp [untargeted, Expression.isVar]

mutual

/-- What a climb takes without an error has no assignment to refuse. -/
theorem Folds.untargeted_eq {left e : Expression} {bound : Nat} {links rest : List Link} :
    Folds left bound links e rest → untargeted left links = untargeted e rest
  | .nil => rfl
  | .stop _ => rfl
  | .take _ hs hj hf => by
    rw [untargeted_of_join hj, hs.untargeted_eq, hf.untargeted_eq]

/-- What the right side of an operator leaves starts with no assignment, and may follow
anything. -/
theorem Sides.untargeted_eq {pending : Infix} {right e : Expression} {links rest : List Link} :
    Sides pending right links e rest → ∀ y, untargeted right links = untargeted y rest
  | .nil, _ => rfl
  | .stop hw, y => untargeted_of_waits hw _ y
  | .take _ hf hs, y => by rw [hf.untargeted_eq, hs.untargeted_eq y]

end

/-- By the time that an assignment is refused nothing is left behind it. -/
theorem refuses_of_join (hs : side link.op link.operand links = .ok (right, rest))
    (h : link.join left right = .error error) : Refuses (untargeted left (link :: links)) error := by
  have hu := (sides_of_side hs).untargeted_eq right
  obtain ⟨op, location, operand⟩ := link
  cases op with
  | binary op => cases h
  | assign op =>
    rw [side_assign] at hs
    obtain rfl := rest_of_fold_loosest hs
    rw [untargeted, hu]
    cases left with
    | var target => cases h
    | _ =>
      cases h
      exact .first _ location []

/-! An error of a climb is about the last assignment without a target, since an assignment is
joined only after all that follows it. -/

mutual

theorem refuses_of_fold {left : Expression} {bound : Nat} {links : List Link} {error : ParseError}
    (h : fold left bound links = .error error) : Refuses (untargeted left links) error := by
  match links with
  | [] => cases h
  | link :: links =>
    by_cases hl : link.op.precedence ≤ bound
    · rw [fold_cons_of_le hl] at h
      obtain hs | ⟨⟨right, mid⟩, hs, h⟩ := except_bind_error_iff.mp h
      · exact (refuses_of_side hs).append _
      · have := (suffix_of_side hs).length_le
        obtain hj | ⟨x, hj, h⟩ := except_bind_error_iff.mp h
        · exact refuses_of_join hs hj
        · rw [untargeted_of_join hj, (sides_of_side hs).untargeted_eq x]
          exact refuses_of_fold h
    · rw [fold_cons_of_lt (Nat.not_le.mp hl)] at h
      cases h
termination_by (links.length, 0)

theorem refuses_of_side {pending : Infix} {right : Expression} {links : List Link}
    {error : ParseError} (h : side pending right links = .error error) :
    Refuses (untargeted right links) error := by
  match links with
  | [] => cases h
  | next :: links =>
    cases hw : waitsFor next.op pending with
    | true =>
      rw [side_cons_of_waits hw] at h
      cases h
    | false =>
      rw [side_cons hw] at h
      obtain hf | ⟨⟨x, mid⟩, hf, h⟩ := except_bind_error_iff.mp h
      · exact refuses_of_fold hf
      · have := (suffix_of_fold_cons (Nat.le_refl _) hf).length_le
        rw [(folds_of_fold hf).untargeted_eq]
        exact refuses_of_side h
termination_by (links.length, 1)

end

/-- A chain has a tree unless some assignment in it has no target, and then it is refused at the
last of those. -/
theorem judged_resolve (first : Expression) (links : List Link) :
    Judged (untargeted first links) (resolve first links) := by
  cases hf : fold first Infix.loosest links with
  | ok folded =>
    obtain ⟨e, rest⟩ := folded
    obtain rfl := rest_of_fold_loosest hf
    rw [resolve_eq, hf, (folds_of_fold hf).untargeted_eq]
    exact .ok e
  | error error =>
    rw [resolve_eq, hf]
    exact .error (refuses_of_fold hf)

end Grammar

end FrontEnd
