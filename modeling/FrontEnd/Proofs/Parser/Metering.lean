import FrontEnd.Proofs.Parser.Failure
import Mathlib.Data.List.Forall2

/-! Parsers with an allowance. Each round of a loop and each entry into a rule that contains itself
takes from it, and where none is left there is no outcome at all, neither a success nor a failure.
So a parser that always comes to an outcome ends by itself and not at a bound. -/
namespace FrontEnd

open FrontEnd.Parser

/-- A parser that may run out of its allowance; then it has no outcome. -/
def Metered (α : Type) : Type := Cursor → Option (Trial α)

namespace Metered

variable {α β : Type}

instance : Monad Metered where
  pure v := fun start => some (.ok v start)
  bind m f := fun start =>
    match m start with
    | none => none
    | some (.ok a mid) => f a mid
    | some (.error error stop) => some (.error error stop)

theorem bind_ok_iff {m : Metered α} {f : α → Metered β} {v : β} {start stop : Cursor} :
    (m >>= f) start = some (.ok v stop) ↔
      ∃ a mid, m start = some (.ok a mid) ∧ f a mid = some (.ok v stop) := by
  simp only [bind]
  split <;> simp_all

theorem bind_of_ok {m : Metered α} {a : α} {start mid : Cursor} (h : m start = some (.ok a mid))
    (f : α → Metered β) : (m >>= f) start = f a mid := by
  simp only [bind, h]

theorem bind_of_error {m : Metered α} {e : ParseError} {start stop : Cursor}
    (h : m start = some (.error e stop)) (f : α → Metered β) :
    (m >>= f) start = some (.error e stop) := by
  simp only [bind, h]

/-- No allowance is left. -/
def spent : Metered α := fun _ => none

/-- A parser that takes nothing from the allowance. -/
def free (p : Parser α) : Metered α := fun start => some (p start)

def ofExcept : Except ParseError α → Metered α
  | .ok value => pure value
  | .error error => fun start => some (.error error start)

theorem ofExcept_ok_iff {x : Except ParseError α} {v : α} {start stop : Cursor} :
    ofExcept x start = some (.ok v stop) ↔ x = .ok v ∧ stop = start := by
  cases x <;> simp [ofExcept, pure, eq_comm]

/-- A combinator that looks at nothing but the outcome of the parser it is given. -/
def through (combinator : Parser α → Parser β) (m : Metered α) : Metered β := fun start =>
  (m start).map fun trial => combinator (fun _ => trial) start

def atomic (m : Metered α) : Metered α := m.through Parser.atomic

def pair (m : Metered α) (r : Metered β) : Metered (α × β) :=
  atomic do return (← m, ← r)

def thenSkip (m : Metered α) (r : Metered β) : Metered α :=
  atomic do
    let value ← m
    let _ ← r
    return value

def skipThen (m : Metered α) (r : Metered β) : Metered β :=
  atomic do
    let _ ← m
    r

def orElse (m r : Metered α) : Metered α := fun start =>
  match m start with
  | some (.error _ _) => r start
  | outcome => outcome

def optional (m : Metered α) : Metered (Option α) :=
  orElse (some <$> m) (pure none)

/-- Every alternative has to come to an outcome. -/
def anyOf (alternatives : List (Metered α)) : Metered α := fun start =>
  (alternatives.mapM fun m : Metered α => m start).map fun trials =>
    Parser.anyOf (trials.map fun trial _ => trial) start

/-- Every attempt takes one from the allowance, the failing one too. -/
def many (m : Metered α) : (allowance : Nat) → Metered (List α)
  | 0 => spent
  | allowance + 1 => do
    let start ← free get
    let some value ← optional m | return []
    if (← free get).readSince start.index = 0 then return [value]
    return value :: (← many m allowance)

/-- The elements after the first, one from the allowance for each of them and one more for the end. -/
def separatedRounds (element : Metered α) (separator : Metered β) :
    (allowance : Nat) → Metered (List α)
  | 0 => spent
  | allowance + 1 => do
    let some _ ← optional separator | return []
    let some value ← optional element | return []
    return value :: (← separatedRounds element separator allowance)

def separated (element : Metered α) (separator : Metered β) (allowance : Nat) :
    Metered (List α) := do
  let some first ← optional element | return []
  return first :: (← separatedRounds element separator allowance)

end Metered

namespace Parser

variable {α β : Type} {n k : Nat} {m m' : Metered α} {p p' : Parser α} {f : α → Parser β}
  {g : α → Metered β} {s : Metered β} {r : Parser β} {start : Cursor}

/-- Where fewer than `n` tokens remain the metered parser comes to an outcome, the one of `p`. -/
def Follows (n : Nat) (m : Metered α) (p : Parser α) : Prop :=
  ∀ start : Cursor, start.remaining < n → m start = some (p start)

namespace Follows

theorem zero (m : Metered α) (p : Parser α) : Follows 0 m p :=
  fun _ h => (Nat.not_lt_zero _ h).elim

theorem mono (h : Follows n m p) (hk : k ≤ n) : Follows k m p :=
  fun start hs => h start (Nat.lt_of_lt_of_le hs hk)

theorem outcome_iff {trial : Trial α} (h : Follows n m p) (hs : start.remaining < n) :
    m start = some trial ↔ p start = trial := by
  rw [h start hs, Option.some.injEq]

theorem free (n : Nat) (p : Parser α) : Follows n (.free p) p := fun _ _ => rfl

theorem pure (n : Nat) (v : α) : Follows n (pure v) (pure v) := fun _ _ => rfl

theorem bind_at (hm : m start = some (p start))
    (hg : ∀ a mid, p start = .ok a mid → g a mid = some (f a mid)) :
    (m >>= g) start = some ((p >>= f) start) := by
  simp only [Bind.bind, EStateM.bind, hm]
  cases hp : p start with
  | ok a mid => exact hg a mid hp
  | error => rfl

theorem bind (hm : Follows n m p) (hp : Moves p) (hg : ∀ a, Follows n (g a) (f a)) :
    Follows n (m >>= g) (p >>= f) := by
  intro start hs
  refine bind_at (hm start hs) fun a mid ha => ?_
  exact hg a mid (Nat.lt_of_le_of_lt (hp.remaining_le ha) hs)

/-- Behind a token one more may remain. -/
theorem bind_of_advances (hm : Follows (n + 1) m p) (hp : Advances p)
    (hg : ∀ a, Follows n (g a) (f a)) : Follows (n + 1) (m >>= g) (p >>= f) := by
  intro start hs
  refine bind_at (hm start hs) fun a mid ha => ?_
  have hlt := hp.remaining_lt ha
  exact hg a mid (by omega)

theorem map (g : α → β) (hm : Follows n m p) : Follows n (g <$> m) (g <$> p) := by
  intro start hs
  change (m >>= fun a => Pure.pure (g a)) start = _
  simp only [Bind.bind, hm start hs, Functor.map, EStateM.map]
  cases p start <;> rfl

theorem through {combinator : Parser α → Parser β} (hm : Follows n m p)
    (hc : ∀ start, combinator (fun _ => p start) start = combinator p start) :
    Follows n (m.through combinator) (combinator p) := by
  intro start hs
  rw [Metered.through, hm start hs, Option.map_some, hc]

theorem atomic (hm : Follows n m p) : Follows n m.atomic (atomic p) := hm.through fun _ => rfl

/-- Where a failure puts the cursor back, the place it is left at before makes no difference. -/
theorem atomic_at (hp : Restores p)
    (hok : ∀ v stop, p start = .ok v stop → m start = some (.ok v stop))
    (herror : ∀ e, p.Fails start e → ∃ stop, m start = some (.error e stop)) :
    m.atomic start = some (p start) := by
  rw [Metered.atomic, Metered.through]
  cases h : p start with
  | ok v stop =>
    rw [hok v stop h]
    rfl
  | error e stop =>
    obtain ⟨stop', h'⟩ := herror e ⟨stop, h⟩
    rw [h', hp h]
    rfl

theorem label (hm : Follows n m p) (name : String) :
    Follows n (m.through (·.label name)) (p.label name) :=
  hm.through fun _ => rfl

theorem andThen (hm : Follows n m p) (step : α → Except ParseError β) :
    Follows n (m.through (·.andThen step)) (p.andThen step) := by
  refine hm.through fun start => ?_
  simp only [Parser.andThen, Parser.atomic, Bind.bind, EStateM.bind]

theorem pair (hm : Follows n m p) (hp : Moves p) (hs : Follows n s r) (hr : Moves r) :
    Follows n (m.pair s) (p.pair r) :=
  atomic (hm.bind hp fun _ => hs.bind hr fun _ => pure n _)

theorem thenSkip (hm : Follows n m p) (hp : Moves p) (hs : Follows n s r) (hr : Moves r) :
    Follows n (m.thenSkip s) (p.thenSkip r) :=
  atomic (hm.bind hp fun _ => hs.bind hr fun _ => pure n _)

theorem skipThen (hm : Follows (n + 1) m p) (hp : Advances p) (hs : Follows n s r) :
    Follows (n + 1) (m.skipThen s) (p.skipThen r) :=
  atomic (hm.bind_of_advances hp fun _ => hs)

theorem orElse (hm : Follows n m p) (hm' : Follows n m' p') :
    Follows n (m.orElse m') (p.orElse p') := by
  intro start hs
  simp only [Metered.orElse, Parser.orElse, hm start hs]
  cases p start with
  | ok => rfl
  | error => exact hm' start hs

theorem optional (hm : Follows n m p) : Follows n m.optional (optional p) :=
  (hm.map some).orElse (pure n none)

theorem mapM_trials {ms : List (Metered α)} {ps : List (Parser α)}
    (h : List.Forall₂ (Follows n) ms ps) (hs : start.remaining < n) :
    ms.mapM (fun m : Metered α => m start) = some (trials ps start) := by
  induction h with
  | nil => rfl
  | cons hm _ ih => simp [List.mapM_cons, hm start hs, ih, trials]

theorem anyOf {ms : List (Metered α)} {ps : List (Parser α)} (h : List.Forall₂ (Follows n) ms ps) :
    Follows n (.anyOf ms) (anyOf ps) := by
  intro start hs
  have ht : trials ((trials ps start).map fun trial _ => trial) start = trials ps start :=
    (List.map_map ..).trans (List.map_id _)
  rw [Metered.anyOf, mapM_trials h hs, Option.map_some]
  simp only [Parser.anyOf, Parser.atomic, ht]

/-- A repetition ends by itself if its allowance is more than the tokens that remain: each round
but the last reads one. -/
theorem many_at {allowance bound : Nat} (hm : Follows n m p) (hp : Moves p)
    (hs : start.remaining < n) (ha : start.remaining < allowance) (hb : start.remaining < bound) :
    m.many allowance start = some (manyUpTo p bound start) := by
  induction allowance generalizing start bound with
  | zero => omega
  | succ allowance ih =>
    obtain ⟨bound, rfl⟩ : ∃ i, bound = i + 1 := ⟨bound - 1, by omega⟩
    refine bind_at rfl fun start' _ hstart => ?_
    obtain ⟨rfl, rfl⟩ := get_ok_iff.mp hstart
    refine bind_at (hm.optional _ hs) fun found mid hfound => ?_
    cases found with
    | none => rfl
    | some v =>
      refine bind_at rfl fun mid' _ hmid => ?_
      obtain ⟨rfl, rfl⟩ := get_ok_iff.mp hmid
      split
      · rfl
      · next hread =>
        obtain ⟨ts, hr⟩ := hp.optional hfound
        have hts : ts ≠ [] := by
          rintro rfl
          simp [Cursor.readSince, hr.index] at hread
        have hlt := hr.remaining_lt hts
        exact bind_at (ih (by omega) (by omega) (by omega)) fun _ _ _ => rfl

theorem many {allowance : Nat} (hm : Follows n m p) (hp : Moves p) (ha : n ≤ allowance) :
    Follows n (m.many allowance) (many p) :=
  fun _ hs => many_at hm hp hs (Nat.lt_of_lt_of_le hs ha) (Nat.lt_succ_self _)

theorem separatedRounds_at {allowance bound : Nat} (hm : Follows n m p) (hp : Moves p)
    (hs : Follows n s r) (hr : Advances r) (hn : start.remaining < n)
    (ha : start.remaining < allowance) (hb : start.remaining < bound) :
    m.separatedRounds s allowance start = some (separatedUpTo p r bound start) := by
  induction allowance generalizing start bound with
  | zero => omega
  | succ allowance ih =>
    obtain ⟨bound, rfl⟩ : ∃ i, bound = i + 1 := ⟨bound - 1, by omega⟩
    refine bind_at (hs.optional start hn) fun found mid hfound => ?_
    cases found with
    | none => rfl
    | some w =>
      obtain ⟨w', ⟨⟩, hw⟩ | ⟨-, ⟨⟩, -⟩ := optional_ok_iff.mp hfound
      have hlt := hr.remaining_lt hw
      refine bind_at (hm.optional mid (by omega)) fun found next hnext => ?_
      cases found with
      | none => rfl
      | some v =>
        have hle := hp.optional.remaining_le hnext
        exact bind_at (ih (by omega) (by omega) (by omega)) fun _ _ _ => rfl

theorem separated {allowance : Nat} (hm : Follows n m p) (hp : Moves p) (hs : Follows n s r)
    (hr : Advances r) (ha : n ≤ allowance) :
    Follows n (m.separated s allowance) (separated p r) := by
  intro start hn
  refine bind_at (hm.optional start hn) fun found mid hfound => ?_
  cases found with
  | none => rfl
  | some v =>
    have hle := hp.optional.remaining_le hfound
    refine bind_at (separatedRounds_at hm hp hs hr ?_ ?_ (Nat.lt_succ_self _)) fun _ _ _ => rfl
    all_goals omega

end Follows

end Parser

end FrontEnd
