import FrontEnd.Proofs.Parser.Outcome

/-! Repetitions as relations. The bound on the number of rounds is out of the way once every round
is known to read a token. -/
namespace FrontEnd.Parser

variable {α β : Type} {p element : Parser α} {separator : Parser β} {start mid stop : Cursor}

/-- Every success reads a token. -/
def Advances (p : Parser α) : Prop :=
  ∀ ⦃start : Cursor⦄ ⦃v : α⦄ ⦃stop : Cursor⦄, p start = .ok v stop →
    ∃ t ts, start.Reads (t :: ts) stop

/-- No success goes back. -/
def Moves (p : Parser α) : Prop :=
  ∀ ⦃start : Cursor⦄ ⦃v : α⦄ ⦃stop : Cursor⦄, p start = .ok v stop → ∃ ts, start.Reads ts stop

theorem Advances.moves (h : Advances p) : Moves p := by
  intro start v stop hp
  obtain ⟨t, ts, hr⟩ := h hp
  exact ⟨t :: ts, hr⟩

theorem Advances.remaining_lt {v : α} (h : Advances p) (hp : p start = .ok v stop) :
    stop.remaining < start.remaining := by
  obtain ⟨t, ts, hr⟩ := h hp
  exact hr.remaining_lt (List.cons_ne_nil t ts)

theorem Moves.remaining_le {v : α} (h : Moves p) (hp : p start = .ok v stop) :
    stop.remaining ≤ start.remaining := by
  obtain ⟨ts, hr⟩ := h hp
  exact hr.remaining_le

/-- Rounds of `p`, one after the other, up to a place that `ends` holds of. -/
inductive Repeats (ends : Cursor → Prop) (p : Parser α) : Cursor → List α → Cursor → Prop
  | nil {start : Cursor} (h : ends start) : Repeats ends p start [] start
  | cons {start mid stop : Cursor} {v : α} {vs : List α} (h : p start = .ok v mid)
      (hs : Repeats ends p mid vs stop) : Repeats ends p start (v :: vs) stop

theorem Repeats.ends_stop {ends : Cursor → Prop} {vs : List α} (h : Repeats ends p start vs stop) :
    ends stop := by
  induction h with
  | nil h => exact h
  | cons _ _ ih => exact ih

/-- The same rounds end wherever they stop. -/
theorem Repeats.ending {ends ends' : Cursor → Prop} {vs : List α}
    (h : Repeats ends p start vs stop) (he : ends' stop) : Repeats ends' p start vs stop := by
  induction h with
  | nil => exact .nil he
  | cons hv _ ih => exact .cons hv (ih he)

theorem optional_of_rejects (h : p.Rejects start) : optional p start = .ok none start :=
  optional_ok_iff.mpr (Or.inr ⟨h, rfl, rfl⟩)

theorem optional_of_ok {v : α} (h : p start = .ok v stop) :
    optional p start = .ok (some v) stop :=
  optional_ok_iff.mpr (Or.inl ⟨v, rfl, h⟩)

theorem Advances.readSince_ne_zero {v : α} (ha : Advances p) (hp : p start = .ok v stop) :
    stop.readSince start.index ≠ 0 := by
  obtain ⟨t, ts, hr⟩ := ha hp
  rw [Cursor.readSince, hr.index, List.length_cons]
  omega

theorem repeats_of_manyUpTo (ha : Advances p) {bound : Nat} {vs : List α}
    (hb : start.remaining < bound) (h : manyUpTo p bound start = .ok vs stop) :
    Repeats p.Rejects p start vs stop := by
  induction bound generalizing start vs with
  | zero => omega
  | succ bound ih =>
    simp only [manyUpTo, bind_ok_iff, get_ok_iff, optional_ok_iff] at h
    obtain ⟨_, _, ⟨rfl, rfl⟩, _, mid, ⟨v, rfl, hp⟩ | ⟨hr, rfl, rfl⟩, h⟩ := h
    · simp only [bind_ok_iff, get_ok_iff] at h
      obtain ⟨_, _, ⟨rfl, rfl⟩, h⟩ := h
      rw [if_neg (ha.readSince_ne_zero hp)] at h
      simp only [bind_ok_iff, pure_ok_iff] at h
      obtain ⟨vs, _, hm, rfl, rfl⟩ := h
      have := ha.remaining_lt hp
      exact .cons hp (ih (by omega) hm)
    · obtain ⟨rfl, rfl⟩ := pure_ok_iff.mp h
      exact .nil hr

theorem manyUpTo_of_repeats (ha : Advances p) {bound : Nat} {vs : List α}
    (hb : start.remaining < bound) (h : Repeats p.Rejects p start vs stop) :
    manyUpTo p bound start = .ok vs stop := by
  induction h generalizing bound with
  | nil hr =>
    obtain ⟨bound, rfl⟩ : ∃ n, bound = n + 1 := ⟨bound - 1, by omega⟩
    simp only [manyUpTo, bind_ok_iff, get_ok_iff]
    exact ⟨_, _, ⟨rfl, rfl⟩, none, _, optional_of_rejects hr, by simp⟩
  | @cons start mid stop v vs hp _ ih =>
    obtain ⟨bound, rfl⟩ : ∃ n, bound = n + 1 := ⟨bound - 1, by omega⟩
    have := ha.remaining_lt hp
    have hm : manyUpTo p bound mid = .ok vs stop := ih (by omega)
    simp only [manyUpTo, bind_ok_iff, get_ok_iff]
    refine ⟨_, _, ⟨rfl, rfl⟩, some v, mid, optional_of_ok hp, ?_⟩
    simp only [bind_ok_iff, get_ok_iff]
    refine ⟨_, _, ⟨rfl, rfl⟩, ?_⟩
    rw [if_neg (ha.readSince_ne_zero hp)]
    simp only [bind_ok_iff, pure_ok_iff]
    exact ⟨vs, stop, hm, rfl, rfl⟩

theorem many_ok_iff (ha : Advances p) {vs : List α} :
    many p start = .ok vs stop ↔ Repeats p.Rejects p start vs stop :=
  ⟨repeats_of_manyUpTo ha (Nat.lt_succ_self _), manyUpTo_of_repeats ha (Nat.lt_succ_self _)⟩

/-! Rounds that must finish. -/

section Committed

variable {opening : Parser α} {finish : α → Parser β}

theorem repeats_of_committedUpTo (ha : Advances opening) (hf : ∀ a, Moves (finish a)) {bound : Nat}
    {vs : List β} (hb : start.remaining < bound)
    (h : committedUpTo opening finish bound start = .ok vs stop) :
    Repeats opening.Rejects (opening >>= finish) start vs stop := by
  induction bound generalizing start vs with
  | zero => omega
  | succ bound ih =>
    simp only [committedUpTo, bind_ok_iff, optional_ok_iff] at h
    obtain ⟨_, mid, ⟨a, rfl, ho⟩ | ⟨hr, rfl, rfl⟩, h⟩ := h
    · simp only [bind_ok_iff, pure_ok_iff] at h
      obtain ⟨v, next, hv, vs, _, hm, rfl, rfl⟩ := h
      have := ha.remaining_lt ho
      have := (hf a).remaining_le hv
      exact .cons (bind_ok_iff.mpr ⟨a, mid, ho, hv⟩) (ih (by omega) hm)
    · obtain ⟨rfl, rfl⟩ := pure_ok_iff.mp h
      exact .nil hr

theorem committedUpTo_of_repeats (ha : Advances opening) (hf : ∀ a, Moves (finish a))
    {bound : Nat} {vs : List β} (hb : start.remaining < bound)
    (h : Repeats opening.Rejects (opening >>= finish) start vs stop) :
    committedUpTo opening finish bound start = .ok vs stop := by
  induction h generalizing bound with
  | nil hr =>
    obtain ⟨bound, rfl⟩ : ∃ n, bound = n + 1 := ⟨bound - 1, by omega⟩
    simp only [committedUpTo, bind_ok_iff]
    exact ⟨none, _, optional_of_rejects hr, by simp⟩
  | @cons start next stop v vs hp _ ih =>
    obtain ⟨bound, rfl⟩ : ∃ n, bound = n + 1 := ⟨bound - 1, by omega⟩
    obtain ⟨a, mid, ho, hv⟩ := bind_ok_iff.mp hp
    have := ha.remaining_lt ho
    have := (hf a).remaining_le hv
    have hm : committedUpTo opening finish bound next = .ok vs stop := ih (by omega)
    simp only [committedUpTo, bind_ok_iff]
    refine ⟨some a, mid, optional_of_ok ho, ?_⟩
    simp only [bind_ok_iff, pure_ok_iff]
    exact ⟨v, next, hv, vs, stop, hm, rfl, rfl⟩

theorem committed_ok_iff (ha : Advances opening) (hf : ∀ a, Moves (finish a)) {vs : List β} :
    committed opening finish start = .ok vs stop ↔
      Repeats opening.Rejects (opening >>= finish) start vs stop := by
  simp only [committed, bind_ok_iff, get_ok_iff]
  constructor
  · rintro ⟨_, _, ⟨rfl, rfl⟩, h⟩
    exact repeats_of_committedUpTo ha hf (Nat.lt_succ_self _) h
  · intro h
    exact ⟨start, start, ⟨rfl, rfl⟩, committedUpTo_of_repeats ha hf (Nat.lt_succ_self _) h⟩

end Committed

/-! Lists with separators. -/

/-- Elements with separators between them, as far as they go; the last element may be followed by
a separator. -/
inductive Lists (element : Parser α) (separator : Parser β) : Cursor → List α → Cursor → Prop
  | nil {start : Cursor} (h : element.Rejects start) : Lists element separator start [] start
  | last {start stop : Cursor} {v : α} (h : element start = .ok v stop)
      (hs : separator.Rejects stop) : Lists element separator start [v] stop
  | cons {start mid next stop : Cursor} {v : α} {w : β} {vs : List α}
      (h : element start = .ok v mid) (hs : separator mid = .ok w next)
      (ht : Lists element separator next vs stop) : Lists element separator start (v :: vs) stop

theorem lists_of_separatedUpTo (he : Moves element) (ha : Advances separator) {bound : Nat}
    {v : α} {vs : List α} (hv : element start = .ok v mid) (hb : mid.remaining < bound)
    (h : separatedUpTo element separator bound mid = .ok vs stop) :
    Lists element separator start (v :: vs) stop := by
  induction bound generalizing start mid v vs with
  | zero => omega
  | succ bound ih =>
    simp only [separatedUpTo, bind_ok_iff, optional_ok_iff] at h
    obtain ⟨_, next, ⟨w, rfl, hs⟩ | ⟨hr, rfl, rfl⟩, h⟩ := h
    · have := ha.remaining_lt hs
      simp only [bind_ok_iff, optional_ok_iff] at h
      obtain ⟨_, mid', ⟨v', rfl, hv'⟩ | ⟨hr, rfl, rfl⟩, h⟩ := h
      · simp only [bind_ok_iff, pure_ok_iff] at h
        obtain ⟨vs, _, ht, rfl, rfl⟩ := h
        have := he.remaining_le hv'
        exact .cons hv hs (ih hv' (by omega) ht)
      · obtain ⟨rfl, rfl⟩ := pure_ok_iff.mp h
        exact .cons hv hs (.nil hr)
    · obtain ⟨rfl, rfl⟩ := pure_ok_iff.mp h
      exact .last hv hr

theorem separatedUpTo_of_lists (he : Moves element) (ha : Advances separator) {bound : Nat}
    {w : β} {vs : List α} (hs : separator mid = .ok w start) (hb : mid.remaining < bound)
    (h : Lists element separator start vs stop) :
    separatedUpTo element separator bound mid = .ok vs stop := by
  obtain ⟨bound, rfl⟩ : ∃ n, bound = n + 1 := ⟨bound - 1, by omega⟩
  have := ha.remaining_lt hs
  simp only [separatedUpTo, bind_ok_iff]
  refine ⟨some w, start, optional_of_ok hs, ?_⟩
  simp only [bind_ok_iff]
  induction h generalizing mid w bound with
  | nil hr => exact ⟨none, _, optional_of_rejects hr, by simp⟩
  | @last start stop v hv hr =>
    refine ⟨some v, stop, optional_of_ok hv, ?_⟩
    have := he.remaining_le hv
    obtain ⟨bound, rfl⟩ : ∃ n, bound = n + 1 := ⟨bound - 1, by omega⟩
    simp only [separatedUpTo, bind_ok_iff, pure_ok_iff]
    exact ⟨[], stop, ⟨none, stop, optional_of_rejects hr, by simp⟩, rfl, rfl⟩
  | @cons start mid' next stop v w' vs hv hs' _ ih =>
    refine ⟨some v, mid', optional_of_ok hv, ?_⟩
    have := he.remaining_le hv
    have := ha.remaining_lt hs'
    obtain ⟨bound, rfl⟩ : ∃ n, bound = n + 1 := ⟨bound - 1, by omega⟩
    have ht := ih hs' bound (by omega) (by omega)
    simp only [separatedUpTo, bind_ok_iff, pure_ok_iff]
    refine ⟨vs, stop, ⟨some w', next, optional_of_ok hs', ?_⟩, rfl, rfl⟩
    simpa only [bind_ok_iff] using ht

theorem separated_ok_iff (he : Moves element) (ha : Advances separator) {vs : List α} :
    separated element separator start = .ok vs stop ↔ Lists element separator start vs stop := by
  simp only [separated, bind_ok_iff, optional_ok_iff]
  constructor
  · rintro ⟨_, mid, ⟨v, rfl, hv⟩ | ⟨hr, rfl, rfl⟩, h⟩
    · simp only [bind_ok_iff, get_ok_iff, pure_ok_iff] at h
      obtain ⟨_, _, ⟨rfl, rfl⟩, vs, _, ht, rfl, rfl⟩ := h
      exact lists_of_separatedUpTo he ha hv (Nat.lt_succ_self _) ht
    · obtain ⟨rfl, rfl⟩ := pure_ok_iff.mp h
      exact .nil hr
  · intro h
    cases h with
    | nil hr => exact ⟨none, start, Or.inr ⟨hr, rfl, rfl⟩, by simp⟩
    | @last _ _ v hv hr =>
      refine ⟨some v, stop, Or.inl ⟨v, rfl, hv⟩, ?_⟩
      simp only [bind_ok_iff, get_ok_iff, pure_ok_iff, separatedUpTo]
      exact ⟨stop, stop, ⟨rfl, rfl⟩, [], stop, ⟨none, stop, optional_of_rejects hr, by simp⟩,
        rfl, rfl⟩
    | @cons _ mid next _ v w vs hv hs ht =>
      refine ⟨some v, mid, Or.inl ⟨v, rfl, hv⟩, ?_⟩
      simp only [bind_ok_iff, get_ok_iff, pure_ok_iff]
      exact ⟨mid, mid, ⟨rfl, rfl⟩, vs, stop,
        separatedUpTo_of_lists he ha hs (Nat.lt_succ_self _) ht, rfl, rfl⟩

end FrontEnd.Parser
