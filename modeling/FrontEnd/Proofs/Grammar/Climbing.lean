import FrontEnd.Proofs.Grammar.Groups
import FrontEnd.Proofs.Parser.Metering

/-! Precedence climbing on the tokens themselves, with an allowance: the operands are read while the
tree is built and not before. A call on behalf of the next operator starts in front of that very
operator and takes it, so the climb moves on, and it comes to the tree that the chain stands for. -/
namespace FrontEnd.Grammar

open FrontEnd.Parser

namespace Within

mutual

/-- Folds onto `left` the operators from here on that bind no looser than `bound`, each with its
right side. -/
def climb (operand : Metered Expression) :
    (allowance : Nat) → (left : Expression) → (bound : Nat) → Metered Expression
  | 0, _, _ => .spent
  | allowance + 1, left, bound => fun start =>
    match infixOperator start with
    | .error _ _ => some (.ok left start)
    | .ok op mid =>
      if op.value.precedence ≤ bound then
        (do
          let middle ← operand
          let right ← absorb operand allowance op.value middle
          let joined ← Metered.ofExcept (Link.join ⟨op.value, op.location, middle⟩ left right)
          climb operand allowance joined bound) mid
      else some (.ok left start)

/-- The right side of `pending`: `right` and what the operators from here on make of it, up to one
that waits for `pending`. -/
def absorb (operand : Metered Expression) :
    (allowance : Nat) → (pending : Infix) → (right : Expression) → Metered Expression
  | 0, _, _ => .spent
  | allowance + 1, pending, right => fun start =>
    match infixOperator start with
    | .error _ _ => some (.ok right start)
    | .ok next _ =>
      if waitsFor next.value pending then some (.ok right start)
      else
        (do
          let right ← climb operand allowance right next.value.precedence
          absorb operand allowance pending right) start

end

variable {m : Metered Expression} {n allowance bound : Nat} {left right x : Expression}
  {pending : Infix} {op next : Located Infix} {start mid stop : Cursor}

theorem climb_of_rejects (h : infixOperator.Rejects start) :
    climb m (allowance + 1) left bound start = some (.ok left start) := by
  simp only [climb]
  split
  · rfl
  · next hop => exact (h _ _ hop).elim

theorem climb_of_lt (h : infixOperator start = .ok op mid) (hb : bound < op.value.precedence) :
    climb m (allowance + 1) left bound start = some (.ok left start) := by
  simp only [climb, h, if_neg (Nat.not_le.mpr hb)]

theorem climb_of_le (h : infixOperator start = .ok op mid) (hb : op.value.precedence ≤ bound) :
    climb m (allowance + 1) left bound start = (do
      let middle ← m
      let right ← absorb m allowance op.value middle
      let joined ← Metered.ofExcept (Link.join ⟨op.value, op.location, middle⟩ left right)
      climb m allowance joined bound : Metered Expression) mid := by
  simp only [climb, h, if_pos hb]

theorem absorb_of_rejects (h : infixOperator.Rejects start) :
    absorb m (allowance + 1) pending right start = some (.ok right start) := by
  simp only [absorb]
  split
  · rfl
  · next hop => exact (h _ _ hop).elim

theorem absorb_of_waits (h : infixOperator start = .ok next mid)
    (hw : waitsFor next.value pending = true) :
    absorb m (allowance + 1) pending right start = some (.ok right start) := by
  simp only [absorb, h, if_pos hw]

theorem absorb_of_not_waits (h : infixOperator start = .ok next mid)
    (hw : waitsFor next.value pending = false) :
    absorb m (allowance + 1) pending right start = (do
      let right ← climb m allowance right next.value.precedence
      absorb m allowance pending right : Metered Expression) start := by
  simp only [absorb, h, hw, Bool.false_eq_true, if_false]

mutual

/-- A climb that succeeds, operator by operator. -/
inductive Climbs (m : Metered Expression) :
    Expression → (bound : Nat) → Cursor → Expression → Cursor → Prop
  | stop {left : Expression} {bound : Nat} {start : Cursor}
      (h : ∀ op mid, infixOperator start = .ok op mid → bound < op.value.precedence) :
      Climbs m left bound start left start
  | take {left middle right joined x : Expression} {bound : Nat} {op : Located Infix}
      {start mid next behind stop : Cursor} (ho : infixOperator start = .ok op mid)
      (hb : op.value.precedence ≤ bound) (hx : m mid = some (.ok middle next))
      (ha : Absorbs m op.value middle next right behind)
      (hj : Link.join ⟨op.value, op.location, middle⟩ left right = .ok joined)
      (hc : Climbs m joined bound behind x stop) : Climbs m left bound start x stop

/-- The operators that the right side of `pending` takes. -/
inductive Absorbs (m : Metered Expression) :
    (pending : Infix) → Expression → Cursor → Expression → Cursor → Prop
  | stop {pending : Infix} {right : Expression} {start : Cursor}
      (h : ∀ next mid, infixOperator start = .ok next mid →
        waitsFor next.value pending = true) :
      Absorbs m pending right start right start
  | take {pending : Infix} {right y x : Expression} {next : Located Infix}
      {start mid behind stop : Cursor} (ho : infixOperator start = .ok next mid)
      (hw : waitsFor next.value pending = false)
      (hc : Climbs m right next.value.precedence start y behind)
      (ha : Absorbs m pending y behind x stop) : Absorbs m pending right start x stop

end

theorem climbs_absorbs_of_ok (m : Metered Expression) (allowance : Nat) :
    (∀ left bound start x stop, climb m allowance left bound start = some (.ok x stop) →
      Climbs m left bound start x stop) ∧
    ∀ pending right start x stop, absorb m allowance pending right start = some (.ok x stop) →
      Absorbs m pending right start x stop := by
  induction allowance with
  | zero => constructor <;> intros <;> simp_all [climb, absorb, Metered.spent]
  | succ allowance ih =>
    obtain ⟨ihc, iha⟩ := ih
    constructor
    · intro left bound start x stop h
      cases hop : infixOperator start with
      | error =>
        rw [climb_of_rejects (by simp [Rejects, hop])] at h
        cases h
        exact .stop (by simp [hop])
      | ok op mid =>
        by_cases hb : op.value.precedence ≤ bound
        · rw [climb_of_le hop hb] at h
          obtain ⟨middle, next, hx, h⟩ := Metered.bind_ok_iff.mp h
          obtain ⟨right, behind, ha, h⟩ := Metered.bind_ok_iff.mp h
          obtain ⟨joined, _, hj, hc⟩ := Metered.bind_ok_iff.mp h
          obtain ⟨hj', rfl⟩ := Metered.ofExcept_ok_iff.mp hj
          exact .take hop hb hx (iha _ _ _ _ _ ha) hj' (ihc _ _ _ _ _ hc)
        · rw [climb_of_lt hop (Nat.not_le.mp hb)] at h
          cases h
          refine .stop fun op' mid' hop' => ?_
          obtain ⟨rfl, -⟩ := ok_unique hop hop'
          exact Nat.not_le.mp hb
    · intro pending right start x stop h
      cases hop : infixOperator start with
      | error =>
        rw [absorb_of_rejects (by simp [Rejects, hop])] at h
        cases h
        exact .stop (by simp [hop])
      | ok next mid =>
        cases hw : waitsFor next.value pending with
        | true =>
          rw [absorb_of_waits hop hw] at h
          cases h
          refine .stop fun next' mid' hop' => ?_
          obtain ⟨rfl, -⟩ := ok_unique hop hop'
          exact hw
        | false =>
          rw [absorb_of_not_waits hop hw] at h
          obtain ⟨y, behind, hc, ha⟩ := Metered.bind_ok_iff.mp h
          exact .take hop hw (ihc _ _ _ _ _ hc) (iha _ _ _ _ _ ha)

theorem climbs_of_ok (h : climb m allowance left bound start = some (.ok x stop)) :
    Climbs m left bound start x stop :=
  (climbs_absorbs_of_ok m allowance).1 _ _ _ _ _ h

theorem absorbs_of_ok (h : absorb m allowance pending right start = some (.ok x stop)) :
    Absorbs m pending right start x stop :=
  (climbs_absorbs_of_ok m allowance).2 _ _ _ _ _ h

/-! Where a climb ends. -/

theorem Climbs.bound_stop {left x : Expression} {bound : Nat} {start stop : Cursor} :
    Climbs m left bound start x stop →
      ∀ op mid, infixOperator stop = .ok op mid → bound < op.value.precedence
  | .stop h => h
  | .take _ _ _ _ _ hc => hc.bound_stop

theorem Absorbs.waits_stop {pending : Infix} {right x : Expression} {start stop : Cursor} :
    Absorbs m pending right start x stop →
      ∀ next mid, infixOperator stop = .ok next mid → waitsFor next.value pending = true
  | .stop h => h
  | .take _ _ _ ha => ha.waits_stop

/-- A climb that has taken an operator ends in front of one that waited for it, if in front of any.
So no assignment follows. -/
theorem Climbs.stays_or_left {left x : Expression} {bound : Nat} {start stop : Cursor} :
    Climbs m left bound start x stop →
      stop = start ∨ ∀ op mid, infixOperator stop = .ok op mid → op.value.associativity = .left
  | .stop _ => Or.inl rfl
  | .take _ _ _ ha _ hc => by
    rcases hc.stays_or_left with rfl | hleft
    · refine Or.inr fun op mid hop => ?_
      exact (waitsFor_iff.mp (ha.waits_stop op mid hop)).1
    · exact Or.inr hleft

theorem Climbs.rejects_of_loosest (h : Climbs m left Infix.loosest start x stop) :
    infixOperator.Rejects stop := by
  intro op mid hop
  exact Nat.not_lt.mpr op.value.precedence_le_loosest (h.bound_stop op mid hop)

theorem Absorbs.rejects_of_assign {op : AssignOp} (h : Absorbs m (.assign op) right start x stop) :
    infixOperator.Rejects stop := by
  intro next mid hop
  have hw := h.waits_stop next mid hop
  rw [waitsFor_assign] at hw
  cases hw

theorem advances_operand : Advances operand := sound_operand.advances fun _ _ h => h.start

theorem advances_infixOperator : Advances infixOperator := advances_token _ _

mutual

/-- A climb never goes back, and it moves on from behind the operator it starts in front of unless
that binds looser. -/
theorem Climbs.reads {left x : Expression} {bound : Nat} {start stop : Cursor}
    (hm : Follows n m operand) (hs : start.remaining < n) : Climbs m left bound start x stop →
      (∃ ts, start.Reads ts stop) ∧ ∀ op mid, infixOperator start = .ok op mid →
        op.value.precedence ≤ bound → ∃ ts, mid.Reads ts stop
  | .stop h => by
    refine ⟨⟨[], .refl start⟩, fun op mid hop hb => ?_⟩
    exact (Nat.not_lt.mpr hb (h op mid hop)).elim
  | .take ho _ hx ha _ hc => by
    have hlt := advances_infixOperator.remaining_lt ho
    obtain ⟨ts, hr⟩ := advances_operand.moves ((hm.outcome_iff (by omega)).mp hx)
    have hle := hr.remaining_le
    obtain ⟨us, hr'⟩ := Absorbs.reads hm (by omega) ha
    have hle' := hr'.remaining_le
    obtain ⟨⟨ws, hr''⟩, -⟩ := Climbs.reads hm (by omega) hc
    have hrest := hr.trans (hr'.trans hr'')
    refine ⟨⟨_, (reads_of_infixOperator ho).trans hrest⟩, fun op mid hop _ => ?_⟩
    obtain ⟨-, rfl⟩ := ok_unique ho hop
    exact ⟨_, hrest⟩

theorem Absorbs.reads {right x : Expression} {pending : Infix} {start stop : Cursor}
    (hm : Follows n m operand) (hs : start.remaining < n) :
    Absorbs m pending right start x stop → ∃ ts, start.Reads ts stop
  | .stop _ => ⟨[], .refl start⟩
  | .take _ _ hc ha => by
    obtain ⟨⟨ts, hr⟩, -⟩ := Climbs.reads hm hs hc
    have hle := hr.remaining_le
    obtain ⟨us, hr'⟩ := Absorbs.reads hm (by omega) ha
    exact ⟨ts ++ us, hr.trans hr'⟩

end

/-- A climb on behalf of the operator it starts in front of takes that operator. -/
theorem Climbs.remaining_lt (hm : Follows n m operand) (hs : start.remaining < n)
    (ho : infixOperator start = .ok op mid)
    (h : Climbs m left op.value.precedence start x stop) : stop.remaining < start.remaining := by
  obtain ⟨ts, hr⟩ := (h.reads hm hs).2 op mid ho (Nat.le_refl _)
  have hle := hr.remaining_le
  have hlt := advances_infixOperator.remaining_lt ho
  omega

/-! The tree that a climb comes to. -/

/-- The outcome of a climb beside that of folding the links from its place up to `stop`: the same
tree, with the same links left over, or the same error. -/
inductive Mirrors (stop : Cursor) :
    Option (Trial Expression) → Except ParseError (Expression × List Link) → Prop
  | ok {x : Expression} {mid : Cursor} {rest : List Link}
      (h : Repeats infixOperator.Rejects (Layer.link expression) mid rest stop) :
      Mirrors stop (some (.ok x mid)) (.ok (x, rest))
  | error {e : ParseError} {mid : Cursor} : Mirrors stop (some (.error e mid)) (.error e)

theorem Mirrors.bind {f : Expression → Metered Expression}
    {y : Except ParseError (Expression × List Link)}
    {g : Expression × List Link → Except ParseError (Expression × List Link)}
    (h : Mirrors stop (m start) y)
    (hf : ∀ v mid rest, m start = some (.ok v mid) →
      Repeats infixOperator.Rejects (Layer.link expression) mid rest stop →
        Mirrors stop (f v mid) (g (v, rest))) :
    Mirrors stop ((m >>= f) start) (y >>= g) := by
  generalize hp : m start = outcome at h
  cases h with
  | ok hr =>
    rw [Metered.bind_of_ok hp]
    exact hf _ _ _ hp hr
  | error =>
    rw [Metered.bind_of_error hp]
    exact .error

theorem Mirrors.ofExcept_bind {y : Except ParseError Expression}
    {f : Expression → Metered Expression}
    {g : Expression → Except ParseError (Expression × List Link)}
    (hf : ∀ v, Mirrors stop (f v start) (g v)) :
    Mirrors stop ((Metered.ofExcept y >>= f) start) (y >>= g) := by
  cases y with
  | ok v => exact hf v
  | error => exact .error

/-- An allowance of more than the tokens that remain is enough where the links are complete. The
right side of an operator needs one more than a climb does: before it reads anything it hands on to
one. -/
theorem mirrors_climb_absorb (hm : Follows n m operand) (allowance : Nat) :
    (∀ start left bound links stop, start.remaining < n → start.remaining ≤ allowance →
      0 < allowance → Repeats infixOperator.Rejects (Layer.link expression) start links stop →
        Mirrors stop (climb m allowance left bound start) (fold left bound links)) ∧
    ∀ start pending right links stop, start.remaining < n → start.remaining < allowance →
      Repeats infixOperator.Rejects (Layer.link expression) start links stop →
        Mirrors stop (absorb m allowance pending right start) (side pending right links) := by
  induction allowance with
  | zero => exact ⟨fun _ _ _ _ _ _ _ h => by omega, fun _ _ _ _ _ _ h => by omega⟩
  | succ allowance ih =>
    obtain ⟨ihc, iha⟩ := ih
    constructor
    · intro start left bound links stop hs hle _ hl
      cases hl with
      | nil hno =>
        rw [climb_of_rejects hno]
        exact .ok (.nil hno)
      | @cons _ next _ link links hlink hrest =>
        obtain ⟨mid, hop, hx⟩ := Layer.link_ok_iff.mp hlink
        have hlt := advances_infixOperator.remaining_lt hop
        have hlt' := advances_operand.remaining_lt hx
        by_cases hb : link.op.precedence ≤ bound
        · rw [climb_of_le hop hb, fold_cons_of_le hb,
            Metered.bind_of_ok ((hm.outcome_iff (by omega)).mpr hx)]
          -- two tokens are read, the operator and one of its operand, so both calls have enough
          refine (iha next link.op link.operand links stop (by omega) (by omega) hrest).bind ?_
          intro right behind rest ha hrest'
          obtain ⟨ts, hr⟩ := (absorbs_of_ok ha).reads hm (by omega)
          have hle' := hr.remaining_le
          refine Mirrors.ofExcept_bind fun joined => ?_
          exact ihc behind joined bound rest stop (by omega) (by omega) (by omega) hrest'
        · rw [climb_of_lt hop (Nat.not_le.mp hb), fold_cons_of_lt (Nat.not_le.mp hb)]
          exact .ok (.cons hlink hrest)
    · intro start pending right links stop hs hlt hl
      cases hl with
      | nil hno =>
        rw [absorb_of_rejects hno]
        exact .ok (.nil hno)
      | @cons _ _ _ next links hlink hrest =>
        obtain ⟨mid, hop, hx⟩ := Layer.link_ok_iff.mp hlink
        have hlt' := advances_infixOperator.remaining_lt hop
        cases hw : waitsFor next.op pending with
        | true =>
          rw [absorb_of_waits hop hw, side_cons_of_waits hw]
          exact .ok (.cons hlink hrest)
        | false =>
          rw [absorb_of_not_waits hop hw, side_cons hw]
          refine (ihc start right _ _ stop hs (by omega) (by omega) (.cons hlink hrest)).bind ?_
          intro y behind rest hc hrest'
          -- the climb was for the sake of `next` and has taken it
          have hlt'' := (climbs_of_ok hc).remaining_lt hm hs hop
          exact iha behind pending y rest stop (by omega) (by omega) hrest'

/-- The outcome of a climb over links that break off with the error `e`: this error, or a place
from which they still do. -/
inductive Stumbles (e : ParseError) : Option (Trial Expression) → Prop
  | ok {x : Expression} {mid stop : Cursor} {links : List Link}
      (h : Repeats (BreaksOff e) (Layer.link expression) mid links stop) :
      Stumbles e (some (.ok x mid))
  | error {mid : Cursor} : Stumbles e (some (.error e mid))

theorem Stumbles.bind {e : ParseError} {f : Expression → Metered Expression}
    (h : Stumbles e (m start))
    (hf : ∀ v mid links stop, m start = some (.ok v mid) →
      Repeats (BreaksOff e) (Layer.link expression) mid links stop → Stumbles e (f v mid)) :
    Stumbles e ((m >>= f) start) := by
  generalize hp : m start = outcome at h
  cases h with
  | ok hr =>
    rw [Metered.bind_of_ok hp]
    exact hf _ _ _ _ hp hr
  | error =>
    rw [Metered.bind_of_error hp]
    exact .error

theorem exists_infix_of_breaksOff {e : ParseError} {links : List Link}
    (h : Repeats (BreaksOff e) (Layer.link expression) start links stop) :
    ∃ op mid, infixOperator start = .ok op mid ∧
      (operand.Fails mid e ∨ ∃ x next rest, operand mid = .ok x next ∧
        Repeats (BreaksOff e) (Layer.link expression) next rest stop) := by
  cases h with
  | nil hb =>
    obtain ⟨op, mid, hop, hf⟩ := hb
    exact ⟨op, mid, hop, Or.inl hf⟩
  | cons hlink hrest =>
    obtain ⟨mid, hop, hx⟩ := Layer.link_ok_iff.mp hlink
    exact ⟨_, mid, hop, Or.inr ⟨_, _, _, hx, hrest⟩⟩

/-- No sides fail to join before the links break off: a binary operator joins any two, and an
assignment takes operators until none follows, so it comes to the break itself. -/
theorem stumbles_climb_absorb (hm : Follows n m operand) (e : ParseError) (allowance : Nat) :
    (∀ start left bound links stop, start.remaining < n → start.remaining ≤ allowance →
      0 < allowance → Repeats (BreaksOff e) (Layer.link expression) start links stop →
        Stumbles e (climb m allowance left bound start)) ∧
    ∀ start pending right links stop, start.remaining < n → start.remaining < allowance →
      Repeats (BreaksOff e) (Layer.link expression) start links stop →
        Stumbles e (absorb m allowance pending right start) := by
  induction allowance with
  | zero => exact ⟨fun _ _ _ _ _ _ _ h => by omega, fun _ _ _ _ _ _ h => by omega⟩
  | succ allowance ih =>
    obtain ⟨ihc, iha⟩ := ih
    constructor
    · intro start left bound links stop hs hle _ hl
      obtain ⟨op, mid, hop, hx⟩ := exists_infix_of_breaksOff hl
      have hlt := advances_infixOperator.remaining_lt hop
      by_cases hb : op.value.precedence ≤ bound
      · rw [climb_of_le hop hb]
        rcases hx with ⟨behind, hx⟩ | ⟨middle, next, rest, hx, hrest⟩
        · rw [Metered.bind_of_error ((hm.outcome_iff (by omega)).mpr hx)]
          exact .error
        have hlt' := advances_operand.remaining_lt hx
        rw [Metered.bind_of_ok ((hm.outcome_iff (by omega)).mpr hx)]
        refine (iha next op.value middle rest stop (by omega) (by omega) hrest).bind ?_
        intro right behind rest' stop' ha hrest'
        have hab := absorbs_of_ok ha
        obtain ⟨ts, hr⟩ := hab.reads hm (by omega)
        have hle' := hr.remaining_le
        obtain ⟨op', mid', hop', -⟩ := exists_infix_of_breaksOff hrest'
        cases hv : op.value with
        | binary =>
          simp only [Link.join]
          exact ihc behind _ bound rest' stop' (by omega) (by omega) (by omega) hrest'
        | assign =>
          -- an assignment would have gone on to the operator that is still there
          exact ((hv ▸ hab).rejects_of_assign op' mid' hop').elim
      · rw [climb_of_lt hop (Nat.not_le.mp hb)]
        exact .ok hl
    · intro start pending right links stop hs hlt hl
      obtain ⟨next, mid, hop, -⟩ := exists_infix_of_breaksOff hl
      have hlt' := advances_infixOperator.remaining_lt hop
      cases hw : waitsFor next.value pending with
      | true =>
        rw [absorb_of_waits hop hw]
        exact .ok hl
      | false =>
        rw [absorb_of_not_waits hop hw]
        refine (ihc start right _ links stop hs (by omega) (by omega) hl).bind ?_
        intro y behind rest stop' hc hrest
        have hlt'' := (climbs_of_ok hc).remaining_lt hm hs hop
        exact iha behind pending y rest stop' (by omega) (by omega) hrest

theorem Mirrors.exists_trial {outcome : Option (Trial Expression)}
    {y : Except ParseError (Expression × List Link)} (h : Mirrors stop outcome y) :
    ∃ trial, outcome = some trial := by
  cases h <;> exact ⟨_, rfl⟩

theorem Stumbles.exists_trial {e : ParseError} {outcome : Option (Trial Expression)}
    (h : Stumbles e outcome) : ∃ trial, outcome = some trial := by
  cases h <;> exact ⟨_, rfl⟩

/-- The links from any place are complete or break off. -/
theorem exists_links (start : Cursor) : ∃ links stop,
    Repeats infixOperator.Rejects (Layer.link expression) start links stop ∨
      ∃ e, Repeats (BreaksOff e) (Layer.link expression) start links stop := by
  let finish (op : Located Infix) : Parser Link :=
    (fun x => ⟨op.value, op.location, x⟩) <$> operand
  cases h : committed infixOperator finish start with
  | ok links stop =>
    have hl := (committed_ok_iff advances_infixOperator (Layer.moves_link moves_expression)).mp h
    exact ⟨links, stop, Or.inl hl⟩
  | error e stop =>
    obtain ⟨links, stop, op, next, hl, hop, hx⟩ := exists_rounds_of_fails_committed ⟨stop, h⟩
    exact ⟨links, stop, Or.inr ⟨e, hl.ending ⟨op, next, hop, (fails_map_iff _).mp hx⟩⟩⟩

/-- No climb runs out of an allowance of more than the tokens that remain. -/
theorem exists_climb (hm : Follows n m operand) (hs : start.remaining < n)
    (ha : start.remaining < allowance) (left : Expression) (bound : Nat) :
    ∃ trial, climb m allowance left bound start = some trial := by
  have hpos : 0 < allowance := by omega
  obtain ⟨links, stop, hl | ⟨e, hl⟩⟩ := exists_links start
  · have h := (mirrors_climb_absorb hm allowance).1
    exact (h start left bound links stop hs (Nat.le_of_lt ha) hpos hl).exists_trial
  · have h := (stumbles_climb_absorb hm e allowance).1
    exact (h start left bound links stop hs (Nat.le_of_lt ha) hpos hl).exists_trial

theorem exists_absorb (hm : Follows n m operand) (hs : start.remaining < n)
    (ha : start.remaining < allowance) (pending : Infix) (right : Expression) :
    ∃ trial, absorb m allowance pending right start = some trial := by
  obtain ⟨links, stop, hl | ⟨e, hl⟩⟩ := exists_links start
  · have h := (mirrors_climb_absorb hm allowance).2
    exact (h start pending right links stop hs ha hl).exists_trial
  · have h := (stumbles_climb_absorb hm e allowance).2
    exact (h start pending right links stop hs ha hl).exists_trial

theorem climb_of_resolve {links : List Link} (hm : Follows n m operand) (hs : start.remaining < n)
    (hl : Repeats infixOperator.Rejects (Layer.link expression) start links stop)
    (hx : resolve left links = .ok x) :
    climb m n left Infix.loosest start = some (.ok x stop) := by
  have h := (mirrors_climb_absorb hm n).1 start left Infix.loosest links stop hs
    (Nat.le_of_lt hs) (by omega) hl
  cases hf : fold left Infix.loosest links with
  | error => simp [resolve_eq, hf, Functor.map, Except.map] at hx
  | ok folded =>
    obtain ⟨y, rest⟩ := folded
    obtain rfl := rest_of_fold_loosest hf
    obtain rfl : y = x := by simpa [resolve_eq, hf, Functor.map, Except.map] using hx
    rw [hf] at h
    generalize hc : climb m n left Infix.loosest start = outcome at h
    cases h with
    | ok hr =>
      cases hr
      rfl

theorem climb_of_resolve_error {links : List Link} {e : ParseError} (hm : Follows n m operand)
    (hs : start.remaining < n)
    (hl : Repeats infixOperator.Rejects (Layer.link expression) start links stop)
    (he : resolve left links = .error e) :
    ∃ mid, climb m n left Infix.loosest start = some (.error e mid) := by
  have h := (mirrors_climb_absorb hm n).1 start left Infix.loosest links stop hs
    (Nat.le_of_lt hs) (by omega) hl
  obtain hf : fold left Infix.loosest links = .error e := by
    rw [resolve_eq] at he
    cases hf : fold left Infix.loosest links <;> simp_all [Functor.map, Except.map]
  rw [hf] at h
  generalize hc : climb m n left Infix.loosest start = outcome at h
  cases h with
  | error => exact ⟨_, rfl⟩

theorem climb_of_breaksOff {links : List Link} {e : ParseError} (hm : Follows n m operand)
    (hs : start.remaining < n)
    (hl : Repeats (BreaksOff e) (Layer.link expression) start links stop) :
    ∃ mid, climb m n left Infix.loosest start = some (.error e mid) := by
  have h := (stumbles_climb_absorb hm e n).1 start left Infix.loosest links stop hs
    (Nat.le_of_lt hs) (by omega) hl
  generalize hc : climb m n left Infix.loosest start = outcome at h
  cases h with
  | ok hr =>
    -- the climb has ended, so no operator is left to break off behind
    obtain ⟨op, mid, hop, -⟩ := exists_infix_of_breaksOff hr
    exact ((climbs_of_ok hc).rejects_of_loosest op mid hop).elim
  | error => exact ⟨_, rfl⟩

/-- An operand and the climb behind it read an expression, without the detour by way of a chain. -/
theorem follows_climb (hm : Follows n m operand) :
    Follows n (Metered.atomic do climb m n (← m) Infix.loosest) expression := by
  intro start hs
  have hr : Restores expression := expression_eq ▸ restores_atomic _
  refine Follows.atomic_at hr (fun x stop h => ?_) fun e h => ?_
  · rw [expression_eq] at h
    obtain ⟨first, mid, links, hf, hl, hx⟩ := (Layer.expression_ok_iff moves_expression).mp h
    have hlt := advances_operand.remaining_lt hf
    rw [Metered.bind_of_ok ((hm.outcome_iff hs).mpr hf)]
    exact climb_of_resolve hm (by omega) hl hx
  · rcases cases_of_fails_expression h with ⟨stop, hf⟩ | ⟨first, mid, links, stop, hf, hl⟩
    · exact ⟨stop, Metered.bind_of_error ((hm.outcome_iff hs).mpr hf) _⟩
    have hlt := advances_operand.remaining_lt hf
    rw [Metered.bind_of_ok ((hm.outcome_iff hs).mpr hf)]
    rcases hl with hl | ⟨hl, he⟩
    · exact climb_of_breaksOff hm (by omega) hl
    · exact climb_of_resolve_error hm (by omega) hl he

end Within

end FrontEnd.Grammar
