import FrontEnd.Proofs.Parser.Rewinding

/-! When each combinator fails, and with which error. -/
namespace FrontEnd.Parser

variable {α β : Type} {p q : Parser α} {r : Parser β} {f : α → Parser β} {start mid stop : Cursor}
  {e : ParseError}

/-- A failure at `start` with the error `e`, wherever the cursor is left. -/
def Fails (p : Parser α) (start : Cursor) (e : ParseError) : Prop := ∃ stop, p start = .error e stop

theorem Fails.rejects (h : p.Fails start e) : p.Rejects start := by
  obtain ⟨stop, h⟩ := h
  intro v stop' hv
  cases h.symm.trans hv

theorem Rejects.exists_fails (h : p.Rejects start) : ∃ e, p.Fails start e := by
  cases hp : p start with
  | ok v stop => exact (h v stop hp).elim
  | error e stop => exact ⟨e, stop, hp⟩

theorem NeverFails.not_fails (h : NeverFails p) : ¬ p.Fails start e := by
  intro hf
  obtain ⟨v, stop, hp⟩ := h start
  exact hf.rejects v stop hp

theorem fails_bind_iff : (p >>= f).Fails start e ↔
    p.Fails start e ∨ ∃ v mid, p start = .ok v mid ∧ (f v).Fails mid e := by
  simp only [Fails, Bind.bind, EStateM.bind]
  cases hp : p start with
  | ok v mid =>
    constructor
    · intro h
      exact Or.inr ⟨v, mid, rfl, h⟩
    · rintro (⟨stop, ⟨⟩⟩ | ⟨v', mid', ⟨⟩, h⟩)
      exact h
  | error e' stop => simp

theorem fails_map_iff (g : α → β) : (g <$> p).Fails start e ↔ p.Fails start e := by
  simp only [Fails, Functor.map, EStateM.map]
  cases hp : p start <;> simp

theorem rejects_map_iff (g : α → β) : (g <$> p).Rejects start ↔ p.Rejects start := by
  simp only [Rejects, Functor.map, EStateM.map]
  cases hp : p start <;> simp

theorem fails_atomic_iff : (atomic p).Fails start e ↔ p.Fails start e := by
  simp only [Fails, atomic]
  cases hp : p start <;> simp

theorem fails_label_iff {name : String} : (p.label name).Fails start e ↔
    ∃ e', p.Fails start e' ∧ e'.expecting name = e := by
  simp only [Fails, label]
  cases hp : p start <;> simp

theorem fails_andThen_iff {step : α → Except ParseError β} : (p.andThen step).Fails start e ↔
    p.Fails start e ∨ ∃ v stop, p start = .ok v stop ∧ step v = .error e := by
  rw [andThen, fails_atomic_iff, fails_bind_iff]
  refine or_congr_right (exists_congr fun v => exists_congr fun stop => and_congr_right fun _ => ?_)
  cases step v with
  | ok w => simp [Fails, pure, EStateM.pure]
  | error e' =>
    constructor
    · rintro ⟨stop, ⟨⟩⟩
      rfl
    · rintro ⟨⟩
      exact ⟨stop, rfl⟩

theorem not_fails_pure (v : α) : ¬ (pure v : Parser α).Fails start e := (NeverFails.pure v).not_fails

theorem fails_thenSkip_iff : (p.thenSkip r).Fails start e ↔
    p.Fails start e ∨ ∃ v mid, p start = .ok v mid ∧ r.Fails mid e := by
  rw [thenSkip, fails_atomic_iff, fails_bind_iff]
  simp only [fails_bind_iff, not_fails_pure, and_false, exists_false, or_false]

theorem fails_token {expected : String} {select : Token → Option α}
    (h : (token expected select).Fails start e) : e = start.expecting expected := by
  obtain ⟨stop, h⟩ := h
  simp only [token] at h
  split at h
  · split at h <;> cases h
    rfl
  · cases h
    rfl

theorem fails_exactly {t : Token} (h : (exactly t).Fails start e) :
    e = start.expecting t.describe :=
  fails_token ((fails_map_iff _).mp h)

theorem location_of_fails_endOfInput (h : endOfInput.Fails start e) :
    e.location = start.location := by
  obtain ⟨stop, h⟩ := h
  simp only [endOfInput] at h
  split at h
  · cases h
  · next hp =>
    cases h
    rw [Cursor.location, hp]
    rfl

theorem location_expecting (cursor : Cursor) (expected : String) :
    (cursor.expecting expected).location = cursor.location := by
  rw [Cursor.expecting, Cursor.location]
  cases cursor.peek? <;> rfl

/-- The rounds before the one that does not finish, and where that one fails. -/
theorem exists_rounds_of_fails_committedUpTo {bound : Nat}
    (h : (committedUpTo p f bound).Fails start e) :
    ∃ vs mid v next, Repeats (fun _ => True) (p >>= f) start vs mid ∧ p mid = .ok v next ∧
      (f v).Fails next e := by
  induction bound generalizing start with
  | zero => exact (not_fails_pure [] h).elim
  | succ bound ih =>
    rcases fails_bind_iff.mp h with hp | ⟨found, mid, ho, hround⟩
    · exact ((NeverFails.optional p).not_fails hp).elim
    obtain ⟨v, rfl, hv⟩ | ⟨-, rfl, rfl⟩ := optional_ok_iff.mp ho
    · rcases fails_bind_iff.mp hround with hf | ⟨w, next, hw, hrest⟩
      · exact ⟨[], start, v, mid, .nil trivial, hv, hf⟩
      rcases fails_bind_iff.mp hrest with hrest | ⟨ws, _, -, hpure⟩
      · obtain ⟨vs, mid', v', next', hr, hv', hf⟩ := ih hrest
        exact ⟨w :: vs, mid', v', next', .cons (bind_ok_iff.mpr ⟨v, mid, hv, hw⟩) hr, hv', hf⟩
      · exact (not_fails_pure _ hpure).elim
    · exact (not_fails_pure [] hround).elim

theorem exists_rounds_of_fails_committed (h : (committed p f).Fails start e) :
    ∃ vs mid v next, Repeats (fun _ => True) (p >>= f) start vs mid ∧ p mid = .ok v next ∧
      (f v).Fails next e := by
  rcases fails_bind_iff.mp h with hg | ⟨cursor, mid, hg, hrounds⟩
  · exact (NeverFails.get.not_fails hg).elim
  · obtain ⟨rfl, rfl⟩ := get_ok_iff.mp hg
    exact exists_rounds_of_fails_committedUpTo hrounds

/-! Choices. -/

theorem reach_eq_zero_iff : reach (p start) = 0 ↔ p.Rejects start := by
  rw [Rejects]
  cases p start <;> simp [reach]

theorem reach_le_of_rejects {ps : List (Parser α)} (hr : ∀ q ∈ ps, q.Rejects start) (n : Nat) :
    ∀ trial ∈ trials ps start, reach trial ≤ n := by
  intro trial ht
  obtain ⟨q, hq, rfl⟩ := List.mem_map.mp ht
  rw [reach_eq_zero_iff.mpr (hr q hq)]
  exact Nat.zero_le n

/-- When all alternatives fail, the failure of the first stands. -/
theorem fails_anyOf_iff {ps : List (Parser α)} : (anyOf (p :: ps)).Fails start e ↔
    p.Fails start e ∧ ∀ q ∈ ps, q.Rejects start := by
  apply fails_atomic_iff.trans
  constructor
  · rintro ⟨stop, h⟩
    cases hm : (trials (p :: ps) start).maxOn? reach with
    | none => simp [trials, List.maxOn?_cons] at hm
    | some best =>
      obtain rfl : best = .error e stop := by simpa [hm] using h
      obtain ⟨before, after, ht, hb, ha⟩ := exists_first_of_maxOn? hm
      cases before with
      | cons trial before => cases hb trial List.mem_cons_self
      | nil =>
        obtain ⟨hp, rfl⟩ := List.cons.inj ht
        refine ⟨⟨stop, hp⟩, fun q hq => reach_eq_zero_iff.mp ?_⟩
        exact Nat.le_zero.mp (ha (q start) (List.mem_map_of_mem hq))
  · rintro ⟨⟨stop, hp⟩, hr⟩
    refine ⟨stop, ?_⟩
    have hm : (trials (p :: ps) start).maxOn? reach = some (p start) :=
      maxOn?_cons_of_le (reach_le_of_rejects hr _)
    simp [hm, hp]

theorem rejects_of_anyOf {ps : List (Parser α)} (h : (anyOf ps).Rejects start) :
    ∀ p ∈ ps, p.Rejects start := by
  cases ps with
  | nil => simp
  | cons p ps =>
    obtain ⟨e, he⟩ := h.exists_fails
    obtain ⟨hp, hps⟩ := fails_anyOf_iff.mp he
    exact List.forall_mem_cons.mpr ⟨hp.rejects, hps⟩

theorem NeverFails.map (g : α → β) (h : NeverFails p) : NeverFails (g <$> p) := by
  intro start
  obtain ⟨v, stop, hp⟩ := h start
  exact ⟨g v, stop, map_ok_iff.mpr ⟨v, hp, rfl⟩⟩

theorem NeverFails.allOfRounds {rounds : Nat} {ps : List (Parser α)} (h : ∀ p ∈ ps, NeverFails p) :
    NeverFails (allOfRounds rounds ps) := by
  induction rounds generalizing ps with
  | zero => exact .pure []
  | succ rounds ih =>
    intro start
    simp only [Parser.allOfRounds]
    split
    · exact ⟨[], start, rfl⟩
    · next e stop i hm =>
      -- the winner is among the trials, and those all succeed
      have ht := List.fst_mem_of_mem_zipIdx (List.maxOn?_mem hm)
      obtain ⟨p, hp, hpe⟩ := List.mem_map.mp ht
      exact (h p hp).not_fails ⟨stop, hpe⟩ |>.elim
    · next v mid i hm => exact (ih fun p hp => h p (List.mem_of_mem_eraseIdx hp)).map _ mid

theorem NeverFails.allOf {ps : List (Parser α)} (h : ∀ p ∈ ps, NeverFails p) :
    NeverFails (allOf ps) := by
  intro start
  obtain ⟨vs, stop, hv⟩ : ∃ vs stop, Parser.allOfRounds ps.length ps start = .ok vs stop :=
    NeverFails.allOfRounds h start
  exact ⟨vs, stop, atomic_ok_iff.mpr hv⟩

/-! Failures for want of something. -/

/-- No failure of `p` complains of tokens that are left over. -/
def Wants (p : Parser α) : Prop :=
  ∀ ⦃start : Cursor⦄ ⦃e : ParseError⦄, p.Fails start e → ∀ found, e.kind ≠ .trailingInput found

theorem kind_expecting (cursor : Cursor) (expected found : String) :
    (cursor.expecting expected).kind ≠ .trailingInput found := by
  rw [Cursor.expecting]
  cases cursor.peek? <;> nofun

theorem NeverFails.wants (h : NeverFails p) : Wants p := fun _ _ hf => (h.not_fails hf).elim

namespace Wants

theorem token (expected : String) (select : Token → Option α) : Wants (token expected select) := by
  intro start e h
  rw [fails_token h]
  exact kind_expecting start expected

theorem map (g : α → β) (h : Wants p) : Wants (g <$> p) :=
  fun _ _ hf => h ((fails_map_iff g).mp hf)

theorem exactly (t : Token) : Wants (exactly t) := (token _ _).map _

theorem bind (hp : Wants p) (hf : ∀ v, Wants (f v)) : Wants (p >>= f) := by
  intro start e h
  rcases fails_bind_iff.mp h with h | ⟨v, mid, -, h⟩
  · exact hp h
  · exact hf v h

theorem pure (v : α) : Wants (pure v : Parser α) := (NeverFails.pure v).wants

theorem atomic (h : Wants p) : Wants (atomic p) := fun _ _ hf => h (fails_atomic_iff.mp hf)

theorem label (h : Wants p) (name : String) : Wants (p.label name) := by
  intro start e hf found
  obtain ⟨e', he, rfl⟩ := fails_label_iff.mp hf
  have hn := h he found
  rw [ParseError.expecting]
  split
  · simp
  · simp
  · exact hn

theorem andThen {step : α → Except ParseError β} (h : Wants p)
    (hs : ∀ v e, step v = .error e → ∀ found, e.kind ≠ .trailingInput found) :
    Wants (p.andThen step) := by
  intro start e hf
  rcases fails_andThen_iff.mp hf with hf | ⟨v, stop, -, hv⟩
  · exact h hf
  · exact hs v e hv

theorem pair (hp : Wants p) (hr : Wants r) : Wants (p.pair r) :=
  atomic (hp.bind fun _ => hr.bind fun _ => pure _)

theorem thenSkip (hp : Wants p) (hr : Wants r) : Wants (p.thenSkip r) :=
  atomic (hp.bind fun _ => hr.bind fun _ => pure _)

theorem skipThen (hp : Wants p) (hr : Wants r) : Wants (p.skipThen r) :=
  atomic (hp.bind fun _ => hr)

/-- Of the alternatives only the first matters. -/
theorem anyOf (h : Wants p) (ps : List (Parser α)) : Wants (anyOf (p :: ps)) :=
  fun _ _ hf => h (fails_anyOf_iff.mp hf).1

theorem committedUpTo (p : Parser α) (hf : ∀ v, Wants (f v)) :
    ∀ bound, Wants (committedUpTo p f bound)
  | 0 => pure []
  | bound + 1 => by
    refine (NeverFails.optional p).wants.bind fun found => ?_
    cases found with
    | none => exact pure []
    | some v => exact (hf v).bind fun _ => (committedUpTo p hf bound).bind fun _ => pure _

theorem committed (p : Parser α) (hf : ∀ v, Wants (f v)) : Wants (committed p f) :=
  NeverFails.get.wants.bind fun _ => committedUpTo p hf _

end Wants

end FrontEnd.Parser
