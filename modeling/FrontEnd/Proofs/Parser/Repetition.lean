import FrontEnd.Proofs.Parser.Rewinding

/-! Repetitions of any parser that keeps its promises. A repetition makes one attempt more than
tokens remain at most, because a success that reads nothing is its last; a list with separators
ends because a separator and an element together read something. -/
namespace FrontEnd

namespace Cursor

variable {start stop : Cursor}

theorem Onward.remaining_lt (h : start.Onward stop) (hlt : start.index < stop.index) :
    stop.remaining < start.remaining := by
  obtain ⟨ts, hr⟩ := onward_iff.mp h
  refine hr.remaining_lt ?_
  rintro rfl
  rw [hr.index, List.length_nil] at hlt
  omega

theorem Onward.eq_of_index_le (h : start.Onward stop) (hle : stop.index ≤ start.index) :
    stop = start := by
  obtain ⟨ts, hr⟩ := onward_iff.mp h
  have hts : ts = [] := by
    rw [hr.index] at hle
    exact List.length_eq_zero_iff.mp (by omega)
  subst hts
  exact hr.stop_eq (.refl start)

end Cursor

namespace Parser

variable {α β : Type} {p element : Parser α} {separator : Parser β} {start mid stop : Cursor}

/-- Every success at a place that can be reached from `start` reads a token. -/
def AdvancesFrom (start : Cursor) (p : Parser α) : Prop :=
  ∀ ⦃cursor : Cursor⦄, start.Onward cursor → ∀ v stop, p cursor = .ok v stop →
    cursor.index < stop.index

theorem AdvancesFrom.mono (h : AdvancesFrom start p) (hs : start.Onward mid) :
    AdvancesFrom mid p :=
  fun _ hc => h (hs.trans hc)

theorem ContractFrom.onward {v : α} (h : ContractFrom start p) (hp : p start = .ok v stop) :
    start.Onward stop :=
  (h (.refl start)).2 v stop hp

theorem ContractFrom.onward_bind {f : α → Parser β} {w : β} (hp : ContractFrom start p)
    (hf : ∀ a, ContractFrom start (f a)) (h : (p >>= f) start = .ok w stop) :
    start.Onward stop := by
  obtain ⟨a, mid, ha, hw⟩ := bind_ok_iff.mp h
  have hm := hp.onward ha
  exact hm.trans (((hf a).mono hm).onward hw)

/-! Repetition. -/

/-- The attempts of a repetition: `count` of them, each where the one before it ended. The last is
a failure, or a success that reads nothing; all others read a token. -/
inductive Attempts (p : Parser α) : (start : Cursor) → (values : List α) → (stop : Cursor) →
    (count : Nat) → Prop
  | failure {start : Cursor} (h : p.Rejects start) : Attempts p start [] start 1
  | idle {start : Cursor} {v : α} (h : p start = .ok v start) : Attempts p start [v] start 1
  | round {start mid stop : Cursor} {v : α} {vs : List α} {count : Nat} (h : p start = .ok v mid)
      (hlt : start.index < mid.index) (hs : Attempts p mid vs stop count) :
      Attempts p start (v :: vs) stop (count + 1)

theorem attempts_of_manyUpTo {bound : Nat} {vs : List α} (hc : ContractFrom start p)
    (hb : start.remaining < bound) (h : manyUpTo p bound start = .ok vs stop) :
    ∃ count ≤ start.remaining + 1, Attempts p start vs stop count := by
  induction bound generalizing start vs with
  | zero => omega
  | succ bound ih =>
    simp only [manyUpTo, bind_ok_iff, get_ok_iff, optional_ok_iff] at h
    obtain ⟨_, _, ⟨rfl, rfl⟩, _, mid, ⟨v, rfl, hp⟩ | ⟨hr, rfl, rfl⟩, h⟩ := h
    · simp only [bind_ok_iff, get_ok_iff] at h
      obtain ⟨_, _, ⟨rfl, rfl⟩, h⟩ := h
      have ho := hc.onward hp
      split at h
      · next hz =>
        obtain ⟨rfl, rfl⟩ := pure_ok_iff.mp h
        obtain rfl := ho.eq_of_index_le (Nat.sub_eq_zero_iff_le.mp hz)
        exact ⟨1, Nat.le_add_left _ _, .idle hp⟩
      · next hz =>
        have hlt : start.index < mid.index := Nat.lt_of_sub_ne_zero hz
        have hrem := ho.remaining_lt hlt
        simp only [bind_ok_iff, pure_ok_iff] at h
        obtain ⟨vs, _, hm, rfl, rfl⟩ := h
        obtain ⟨count, hle, ha⟩ := ih (hc.mono ho) (by omega) hm
        exact ⟨count + 1, by omega, .round hp hlt ha⟩
    · obtain ⟨rfl, rfl⟩ := pure_ok_iff.mp h
      exact ⟨1, Nat.le_add_left _ _, .failure hr⟩

theorem attempts_of_many {vs : List α} (hc : ContractFrom start p)
    (h : many p start = .ok vs stop) : ∃ count ≤ start.remaining + 1, Attempts p start vs stop count :=
  attempts_of_manyUpTo hc (Nat.lt_succ_self _) h

theorem many_of_rejects (h : p.Rejects start) : many p start = .ok [] start := by
  simp only [many, manyUpTo, bind_ok_iff, get_ok_iff]
  exact ⟨_, _, ⟨rfl, rfl⟩, none, _, optional_of_rejects h, by simp⟩

/-- A parser that always reads something has failed where a repetition of it ends. -/
theorem Attempts.rejects_stop {vs : List α} {count : Nat} (h : Attempts p start vs stop count)
    (hc : ContractFrom start p) (ha : AdvancesFrom start p) : p.Rejects stop := by
  induction h with
  | failure h => exact h
  | idle h => exact (Nat.lt_irrefl _ (ha (.refl _) _ _ h)).elim
  | round h _ _ ih => exact ih (hc.mono (hc.onward h)) (ha.mono (hc.onward h))

/-- A repetition never fails and makes one attempt more than tokens remain at most. If no success
reads nothing, a second repetition where it ended finds nothing more. -/
theorem many_maximal {α : Type} (p : Parser α) (start : Cursor) (hc : ContractFrom start p) :
    (∃ vs stop count, many p start = .ok vs stop ∧ Attempts p start vs stop count ∧
      count ≤ start.remaining + 1) ∧
    (AdvancesFrom start p → ∀ vs stop, many p start = .ok vs stop → many p stop = .ok [] stop) := by
  constructor
  · obtain ⟨vs, stop, h⟩ := NeverFails.many p start
    obtain ⟨count, hle, ha⟩ := attempts_of_many hc h
    exact ⟨vs, stop, count, h, ha, hle⟩
  · intro ha vs stop h
    obtain ⟨count, -, hs⟩ := attempts_of_many hc h
    exact many_of_rejects (hs.rejects_stop hc ha)

/-- Of two names and a comma a repetition of names takes the names and makes three attempts, of
four that the tokens allow. -/
theorem many_maximal_names :
    let located (token : Token) : Located Token := ⟨token, .origin⟩
    let start := Cursor.ofTokens
      [located (.identifier "a"), located (.identifier "b"), located (.delimiter .comma)]
    let name : Parser String := Located.value <$> identifier
    ContractFrom start name ∧ AdvancesFrom start name ∧
      (∃ count ≤ 4, Attempts name start ["a", "b"] (start.moveTo 2) count) ∧
      many name (start.moveTo 2) = .ok [] (start.moveTo 2) := by
  intro located start name
  have hb : Built name := .map _ .identifier
  have hc : ContractFrom start name := hb.contract.contractFrom (Nat.zero_le _)
  have ha : AdvancesFrom start name := by
    intro cursor _ v stop hv
    obtain ⟨t, ts, hr⟩ := (advances_token _ _).map Located.value hv
    rw [hr.index, List.length_cons]
    omega
  have h : many name start = .ok ["a", "b"] (start.moveTo 2) := rfl
  obtain ⟨⟨vs, stop, count, hv, hs, hle⟩, hagain⟩ := many_maximal name start hc
  obtain ⟨rfl, rfl⟩ := ok_unique h hv
  exact ⟨hc, ha, ⟨count, hle, hs⟩, hagain ha _ _ h⟩

/-! Lists with separators. -/

/-- Where a list ends whose last element ends at `last`: there, if no separator follows, and else
behind the separator, if no element follows that. -/
def EndsList (element : Parser α) (separator : Parser β) (last stop : Cursor) : Prop :=
  stop = last ∧ separator.Rejects last ∨ ∃ w, separator last = .ok w stop ∧ element.Rejects stop

theorem repeats_of_separatedUpTo {bound : Nat} {vs : List α} (he : ContractFrom start element)
    (hs : ContractFrom start separator)
    (ha : AdvancesFrom start (separator >>= fun _ => element)) (hb : start.remaining < bound)
    (h : separatedUpTo element separator bound start = .ok vs stop) :
    ∃ last, Repeats (fun _ => True) (separator >>= fun _ => element) start vs last ∧
      EndsList element separator last stop := by
  induction bound generalizing start vs with
  | zero => omega
  | succ bound ih =>
    simp only [separatedUpTo, bind_ok_iff, optional_ok_iff] at h
    obtain ⟨_, mid, ⟨w, rfl, hw⟩ | ⟨hr, rfl, rfl⟩, h⟩ := h
    · simp only [bind_ok_iff, optional_ok_iff] at h
      obtain ⟨_, next, ⟨v, rfl, hv⟩ | ⟨hr, rfl, rfl⟩, h⟩ := h
      · simp only [bind_ok_iff, pure_ok_iff] at h
        obtain ⟨vs, _, ht, rfl, rfl⟩ := h
        have hround : (separator >>= fun _ => element) start = .ok v next :=
          bind_ok_iff.mpr ⟨w, mid, hw, hv⟩
        have ho := hs.onward_bind (fun _ => he) hround
        have hrem := ho.remaining_lt (ha (.refl start) v next hround)
        obtain ⟨last, hl, hend⟩ := ih (he.mono ho) (hs.mono ho) (ha.mono ho) (by omega) ht
        exact ⟨last, .cons hround hl, hend⟩
      · obtain ⟨rfl, rfl⟩ := pure_ok_iff.mp h
        exact ⟨start, .nil trivial, Or.inr ⟨w, hw, hr⟩⟩
    · obtain ⟨rfl, rfl⟩ := pure_ok_iff.mp h
      exact ⟨_, .nil trivial, Or.inl ⟨rfl, hr⟩⟩

/-- Each round of a separator and an element reads a token. -/
theorem Repeats.length_le_remaining {vs : List α} (he : ContractFrom start element)
    (hs : ContractFrom start separator)
    (ha : AdvancesFrom start (separator >>= fun _ => element))
    (h : Repeats (fun _ => True) (separator >>= fun _ => element) start vs stop) :
    vs.length ≤ start.remaining := by
  induction h with
  | nil => exact Nat.zero_le _
  | @cons start mid stop v vs hround _ ih =>
    have ho := hs.onward_bind (fun _ => he) hround
    have hrem := ho.remaining_lt (ha (.refl start) v mid hround)
    have hle := ih (he.mono ho) (hs.mono ho) (ha.mono ho)
    rw [List.length_cons]
    omega

theorem separated_of_rejects (h : element.Rejects start) :
    separated element separator start = .ok [] start := by
  simp only [separated, bind_ok_iff]
  exact ⟨none, start, optional_of_rejects h, by simp⟩

theorem separated_of_ok {v : α} (hv : element start = .ok v mid) (he : ContractFrom mid element)
    (hs : ContractFrom mid separator) (ha : AdvancesFrom mid (separator >>= fun _ => element)) :
    ∃ vs last stop, separated element separator start = .ok (v :: vs) stop ∧
      Repeats (fun _ => True) (separator >>= fun _ => element) mid vs last ∧
      EndsList element separator last stop := by
  obtain ⟨vs, stop, hrounds⟩ :=
    NeverFails.separatedUpTo element separator (mid.remaining + 1) mid
  obtain ⟨last, hl, hend⟩ := repeats_of_separatedUpTo he hs ha (Nat.lt_succ_self _) hrounds
  refine ⟨vs, last, stop, ?_, hl, hend⟩
  simp only [separated, bind_ok_iff]
  refine ⟨some v, mid, optional_of_ok hv, ?_⟩
  simp only [bind_ok_iff, get_ok_iff, pure_ok_iff]
  exact ⟨mid, mid, ⟨rfl, rfl⟩, vs, stop, hrounds, rfl, rfl⟩

end Parser

end FrontEnd
