import FrontEnd.Proofs.Parser.Failure

/-! The longest match. A choice keeps the alternative that reads furthest and the first of them on
a tie, so a choice among choices is the choice among all their alternatives. Parsers that match in
any order are such choices one after the other, each among the parsers that are still pending. -/
namespace FrontEnd.Parser

variable {α : Type} {p : Parser α} {ps qs before after : List (Parser α)}
  {start mid stop : Cursor} {e : ParseError} {v : α} {vs ws : List α}

/-- The success of `p`, which stands between `before` and `after`, is the one that is kept: none of
the others reads further, and none of those before it reads as far. -/
structure Furthest (before : List (Parser α)) (p : Parser α) (after : List (Parser α))
    (start : Cursor) (v : α) (stop : Cursor) : Prop where
  ok : p start = .ok v stop
  lt_of_before : ∀ q ∈ before, ∀ w stop', q start = .ok w stop' → stop'.index < stop.index
  le_of_after : ∀ q ∈ after, ∀ w stop', q start = .ok w stop' → stop'.index ≤ stop.index

namespace Furthest

theorem reach_lt (h : Furthest before p after start v stop) :
    ∀ trial ∈ trials before start, reach trial < reach (p start) := by
  intro trial ht
  obtain ⟨q, hq, rfl⟩ := List.mem_map.mp ht
  exact reach_lt_of_ok h.ok (h.lt_of_before q hq)

theorem reach_le (h : Furthest before p after start v stop) :
    ∀ trial ∈ trials after start, reach trial ≤ reach (p start) := by
  intro trial ht
  obtain ⟨q, hq, rfl⟩ := List.mem_map.mp ht
  exact reach_le_of_ok h.ok (h.le_of_after q hq)

theorem of_reach (hp : p start = .ok v stop)
    (hb : ∀ trial ∈ trials before start, reach trial < reach (p start))
    (ha : ∀ trial ∈ trials after start, reach trial ≤ reach (p start)) :
    Furthest before p after start v stop := by
  rw [hp] at hb ha
  refine ⟨hp, fun q hq w stop' hw => ?_, fun q hq w stop' hw => ?_⟩
  · have hlt := hb (q start) (List.mem_map_of_mem hq)
    rw [hw] at hlt
    exact Nat.lt_of_succ_lt_succ hlt
  · have hle := ha (q start) (List.mem_map_of_mem hq)
    rw [hw] at hle
    exact Nat.le_of_succ_le_succ hle

end Furthest

/-! One choice. -/

theorem anyOf_ok_iff_furthest : anyOf ps start = .ok v stop ↔
    ∃ before p after, ps = before ++ p :: after ∧ Furthest before p after start v stop := by
  rw [anyOf_ok_iff, maxOn?_eq_some_iff]
  constructor
  · rintro ⟨tb, ta, ht, hb, ha⟩
    obtain ⟨before, rest, rfl, rfl, hr⟩ := List.map_eq_append_iff.mp ht
    obtain ⟨p, after, rfl, hp, rfl⟩ := List.map_eq_cons_iff.mp hr
    rw [← hp] at hb ha
    exact ⟨before, p, after, rfl, .of_reach hp hb ha⟩
  · rintro ⟨before, p, after, rfl, h⟩
    refine ⟨trials before start, trials after start, ?_, ?_, ?_⟩
    · simp [trials, h.ok]
    · rw [← h.ok]
      exact h.reach_lt
    · rw [← h.ok]
      exact h.reach_le

theorem exists_anyOf_ok_iff :
    (∃ v stop, anyOf ps start = .ok v stop) ↔ ∃ p ∈ ps, ∃ v stop, p start = .ok v stop := by
  constructor
  · rintro ⟨v, stop, h⟩
    obtain ⟨p, hm, hp⟩ := exists_of_anyOf h
    exact ⟨p, hm, v, stop, hp⟩
  · rintro ⟨p, hm, v, stop, hp⟩
    cases h : anyOf ps start with
    | ok v' stop' => exact ⟨v', stop', rfl⟩
    | error e stop' => exact (rejects_of_anyOf (Fails.rejects ⟨stop', h⟩) p hm v stop hp).elim

theorem restores_anyOf (ps : List (Parser α)) : Restores (anyOf ps) := restores_atomic _

theorem anyOf_error_iff : anyOf (p :: ps) start = .error e stop ↔
    stop = start ∧ p.Fails start e ∧ ∀ q ∈ ps, q.Rejects start := by
  rw [← fails_anyOf_iff]
  constructor
  · intro h
    exact ⟨restores_anyOf _ h, stop, h⟩
  · rintro ⟨rfl, stop', h⟩
    obtain rfl : stop' = stop := restores_anyOf _ h
    exact h

/-! A choice among choices. -/

theorem atomic_eq_self (h : Restores p) : atomic p = p := by
  funext start
  rw [atomic]
  cases hp : p start with
  | ok v stop => rfl
  | error e stop => rw [h hp]

theorem reach_atomic (trial : Trial α) (start : Cursor) :
    reach (atomic (fun _ => trial) start) = reach trial := by
  cases trial <;> rfl

theorem anyOf_of_maxOn? {trial : Trial α} (h : (trials ps start).maxOn? reach = some trial) :
    anyOf ps start = atomic (fun _ => trial) start := by
  simp only [anyOf, atomic, h, Option.getD_some]

theorem anyOf_singleton (h : Restores p) : anyOf [p] = p := by
  funext start
  have ht : (trials [p] start).maxOn? reach = some (p start) := maxOn?_cons_of_le (by simp)
  calc anyOf [p] start = atomic p start := anyOf_of_maxOn? ht
    _ = p start := by rw [atomic_eq_self h]

theorem anyOf_append (hn : ps ≠ []) (qs : List (Parser α)) (start : Cursor) :
    anyOf (ps ++ qs) start = maxOn reach (anyOf ps start) (anyOf qs start) := by
  cases qs with
  | nil =>
    rw [List.append_nil, maxOn_eq_left]
    exact Nat.zero_le _
  | cons q qs =>
    obtain ⟨p, ps, rfl⟩ := List.exists_cons_of_ne_nil hn
    obtain ⟨t, ht⟩ : ∃ t, (trials (p :: ps) start).maxOn? reach = some t := ⟨_, List.maxOn?_cons⟩
    obtain ⟨u, hu⟩ : ∃ u, (trials (q :: qs) start).maxOn? reach = some u := ⟨_, List.maxOn?_cons⟩
    have ha : (trials (p :: ps ++ q :: qs) start).maxOn? reach = some (maxOn reach t u) := by
      rw [trials, List.map_append, List.maxOn?_append, ← trials, ← trials, ht, hu]
      rfl
    rw [anyOf_of_maxOn? ha, anyOf_of_maxOn? ht, anyOf_of_maxOn? hu]
    by_cases hle : reach u ≤ reach t
    · rw [maxOn_eq_left hle, maxOn_eq_left]
      simpa only [reach_atomic] using hle
    · rw [maxOn_eq_right hle, maxOn_eq_right]
      simpa only [reach_atomic] using hle

/-- A choice among choices is one choice among all their alternatives. -/
theorem anyOf_anyOf (hn : ps ≠ []) (qs : List (Parser α)) :
    anyOf [anyOf ps, anyOf qs] = anyOf (ps ++ qs) := by
  funext start
  rw [← List.singleton_append, anyOf_append (List.cons_ne_nil _ []), anyOf_append hn,
    anyOf_singleton (restores_anyOf ps), anyOf_singleton (restores_anyOf qs)]

/-! The order of the alternatives. -/

/-- Where both succeed, they end at different places. -/
def EndApart (start : Cursor) (p q : Parser α) : Prop :=
  ∀ v mid w stop, p start = .ok v mid → q start = .ok w stop → mid.index ≠ stop.index

theorem anyOf_of_perm (hp : ps.Perm qs) (ha : ps.Pairwise (EndApart start))
    (h : anyOf ps start = .ok v stop) : anyOf qs start = .ok v stop := by
  obtain ⟨before, p, after, rfl, hf⟩ := anyOf_ok_iff_furthest.mp h
  refine anyOf_of_best (hp.mem_iff.mp (by simp)) hf.ok ?_
  intro q hq w stop' hw
  rcases List.mem_append.mp (hp.mem_iff.mpr hq) with hq | hq
  · exact Or.inr (hf.lt_of_before q hq w stop' hw)
  rcases List.mem_cons.mp hq with rfl | hq
  · obtain ⟨rfl, rfl⟩ := ok_unique hf.ok hw
    exact Or.inl ⟨rfl, rfl⟩
  · have hle := hf.le_of_after q hq w stop' hw
    have hpq : EndApart start p q :=
      List.rel_of_pairwise_cons (List.pairwise_append.mp ha).2.1 hq
    have hne := hpq v stop w stop' hf.ok hw
    exact Or.inr (by omega)

theorem anyOf_perm_iff (hp : ps.Perm qs) (ha : ps.Pairwise (EndApart start)) :
    anyOf ps start = .ok v stop ↔ anyOf qs start = .ok v stop := by
  refine ⟨anyOf_of_perm hp ha, fun h => ?_⟩
  -- Some alternative succeeds, so the choice among `ps` does, and it cannot give anything else.
  obtain ⟨q, hq, hv⟩ := exists_anyOf_ok_iff.mp ⟨v, stop, h⟩
  obtain ⟨v', stop', h'⟩ := exists_anyOf_ok_iff.mpr ⟨q, hp.mem_iff.mpr hq, hv⟩
  obtain ⟨rfl, rfl⟩ := ok_unique h (anyOf_of_perm hp ha h')
  exact h'

/-- A choice succeeds where an alternative does, with the longest match and the first of them on a
tie; where none does it fails in place, as its first alternative. Alternatives that are choices
themselves may be listed in their stead, and the order matters for ties only. -/
theorem anyOf_longest_match {α : Type} (p : Parser α) (ps : List (Parser α)) :
    (∀ start, (∃ v stop, anyOf (p :: ps) start = .ok v stop) ↔
      ∃ q ∈ p :: ps, ∃ v stop, q start = .ok v stop) ∧
    (∀ start v stop, anyOf (p :: ps) start = .ok v stop ↔
      ∃ before q after, p :: ps = before ++ q :: after ∧ Furthest before q after start v stop) ∧
    (∀ start e stop, anyOf (p :: ps) start = .error e stop ↔
      stop = start ∧ p.Fails start e ∧ ∀ q ∈ ps, q.Rejects start) ∧
    (∀ qs, anyOf [anyOf (p :: ps), anyOf qs] = anyOf (p :: ps ++ qs)) ∧
    ∀ start qs, (p :: ps).Perm qs → (p :: ps).Pairwise (EndApart start) →
      ∀ v stop, anyOf (p :: ps) start = .ok v stop ↔ anyOf qs start = .ok v stop := by
  refine ⟨?_, ?_, ?_, ?_, ?_⟩
  · intro start
    exact exists_anyOf_ok_iff
  · intro start v stop
    exact anyOf_ok_iff_furthest
  · intro start e stop
    exact anyOf_error_iff
  · intro qs
    exact anyOf_anyOf (List.cons_ne_nil p ps) qs
  · intro start qs hp ha v stop
    exact anyOf_perm_iff hp ha

/-- Of two names a choice takes both, whether it has the pair as its second alternative or as its
first. -/
theorem anyOf_longest_match_either_order :
    let name (text : String) (offset : Nat) : Located Token :=
      ⟨.identifier text, ⟨⟨0⟩, offset, 1⟩⟩
    let one : Parser (List String) := (fun found => [found.value]) <$> identifier
    let two : Parser (List String) :=
      (fun found => found.map Located.value) <$> sequence [identifier, identifier]
    let start := Cursor.ofTokens [name "a" 0, name "b" 2]
    [one, two].Perm [two, one] ∧ [one, two].Pairwise (EndApart start) ∧
      anyOf [one, two] start = .ok ["a", "b"] (start.moveTo 2) ∧
      anyOf [two, one] start = .ok ["a", "b"] (start.moveTo 2) := by
  intro name one two start
  have hone : one start = .ok ["a"] (start.moveTo 1) := rfl
  have htwo : two start = .ok ["a", "b"] (start.moveTo 2) := rfl
  have hperm : [one, two].Perm [two, one] := .swap two one []
  have hapart : [one, two].Pairwise (EndApart start) := by
    refine List.pairwise_pair.mpr ?_
    intro v mid w stop hv hw
    obtain ⟨-, rfl⟩ := ok_unique hone hv
    obtain ⟨-, rfl⟩ := ok_unique htwo hw
    decide
  have h : anyOf [one, two] start = .ok ["a", "b"] (start.moveTo 2) := rfl
  have hlast := (anyOf_longest_match one [two]).2.2.2.2 start [two, one] hperm hapart
  exact ⟨hperm, hapart, h, (hlast _ _).mp h⟩

/-! Every parser once. -/

/-- The rounds from `start` to `stop`. Each commits the pending parser that reads furthest, and the
next goes on where that one ended, with the others. In `order` stand the values, each with the place
of its parser, as they were committed; the parsers in `left` were not. -/
inductive Commits : (pending : List (Parser α × Nat)) → (start : Cursor) →
    (order : List (α × Nat)) → (stop : Cursor) → (left : List (Parser α × Nat)) → Prop
  | done (pending : List (Parser α × Nat)) (start : Cursor) :
      Commits pending start [] start pending
  | round {before after left : List (Parser α × Nat)} {p : Parser α} {place : Nat}
      {start mid stop : Cursor} {v : α} {order : List (α × Nat)}
      (h : Furthest (before.map Prod.fst) p (after.map Prod.fst) start v mid)
      (hle : start.index ≤ mid.index) (hs : Commits (before ++ after) mid order stop left) :
      Commits (before ++ (p, place) :: after) start ((v, place) :: order) stop left

section Rounds

variable {pending left : List (Parser α × Nat)} {order : List (α × Nat)}

theorem allOfRounds_of_furthest (h : Furthest before p after start v mid) (rounds : Nat) :
    allOfRounds (rounds + 1) (before ++ p :: after) start =
      ((·.insertIdx before.length v) <$> allOfRounds rounds (before ++ after)) mid := by
  have hm : (trials (before ++ p :: after) start).zipIdx.maxOn? (fun trial => reach trial.1) =
      some (.ok v mid, before.length) := by
    have hf := zipIdx_maxOn?_of_first h.reach_lt h.reach_le
    rw [h.ok] at hf
    simpa [trials, h.ok] using hf
  have he : (before ++ p :: after).eraseIdx before.length = before ++ after := by
    simp [List.eraseIdx_append_of_length_le]
  simp only [allOfRounds, hm, he]

theorem fails_allOfRounds_of_rejects (h : p.Fails start e) (hr : ∀ q ∈ ps, q.Rejects start)
    (rounds : Nat) : (allOfRounds (rounds + 1) (p :: ps)).Fails start e := by
  obtain ⟨stop, hp⟩ := h
  have hm : (trials (p :: ps) start).zipIdx.maxOn? (fun trial => reach trial.1) =
      some (p start, 0) :=
    zipIdx_maxOn?_of_first (List.forall_mem_nil _) (reach_le_of_rejects hr _)
  refine ⟨stop, ?_⟩
  simp only [allOfRounds, hm, hp]

/-- A round commits a parser, or all that are pending fail. -/
theorem exists_furthest_or_rejects (pending : List (Parser α × Nat)) (start : Cursor) :
    (∃ before p place after v mid, pending = before ++ (p, place) :: after ∧
      Furthest (before.map Prod.fst) p (after.map Prod.fst) start v mid) ∨
    ∀ q ∈ pending, q.1.Rejects start := by
  cases h : anyOf (pending.map Prod.fst) start with
  | ok v mid =>
    obtain ⟨_, _, _, hl, hf⟩ := anyOf_ok_iff_furthest.mp h
    obtain ⟨before, rest, rfl, rfl, hrest⟩ := List.map_eq_append_iff.mp hl
    obtain ⟨⟨p, place⟩, after, rfl, rfl, rfl⟩ := List.map_eq_cons_iff.mp hrest
    exact Or.inl ⟨before, p, place, after, v, mid, rfl, hf⟩
  | error e stop =>
    refine Or.inr fun q hq => ?_
    exact rejects_of_anyOf (Fails.rejects ⟨stop, h⟩) q.1 (List.mem_map_of_mem hq)

/-- The rounds go on until no pending parser succeeds. -/
theorem exists_commits (hc : ∀ q ∈ pending, ContractFrom start q.1) :
    ∃ order mid left, Commits pending start order mid left ∧ ∀ q ∈ left, q.1.Rejects mid := by
  -- Each round takes one parser away and starts where the contract still holds.
  induction hn : pending.length generalizing pending start with
  | zero =>
    obtain rfl := List.length_eq_zero_iff.mp hn
    exact ⟨[], start, [], .done [] start, by simp⟩
  | succ n ih =>
    rcases exists_furthest_or_rejects pending start with
      ⟨before, p, place, after, v, mid, rfl, hf⟩ | hr
    · have hs : start.Onward mid := (hc (p, place) (by simp) (.refl start)).2 v mid hf.ok
      have hsub := (List.sublist_cons_self (p, place) after).append_left before
      have hlen : (before ++ after).length = n := by
        simp only [List.length_append, List.length_cons] at hn ⊢
        omega
      obtain ⟨order, stop, left, hrun, hleft⟩ :=
        ih (fun q hq => (hc q (hsub.subset hq)).mono hs) hlen
      obtain ⟨ts, hr⟩ := Cursor.onward_iff.mp hs
      exact ⟨(v, place) :: order, stop, left, .round hf hr.index_le hrun, hleft⟩
    · exact ⟨[], start, pending, .done pending start, hr⟩

theorem insertIdx_length_append (vs ws : List α) (v : α) :
    (vs ++ ws).insertIdx vs.length v = vs ++ v :: ws := by
  induction vs with
  | nil => rfl
  | cons a vs ih => exact congrArg (a :: ·) ih

/-- All rounds for parsers that carry their places. -/
def placedRounds (pending : List (Parser α × Nat)) : Parser (List α) :=
  allOfRounds pending.length (pending.map Prod.fst)

theorem placedRounds_zipIdx (ps : List (Parser α)) :
    placedRounds ps.zipIdx = allOfRounds ps.length ps := by
  rw [placedRounds, List.length_zipIdx, List.zipIdx_map_fst]

theorem placedRounds_of_furthest {before after : List (Parser α × Nat)} {place : Nat}
    (h : Furthest (before.map Prod.fst) p (after.map Prod.fst) start v mid) :
    placedRounds (before ++ (p, place) :: after) start =
      ((·.insertIdx before.length v) <$> placedRounds (before ++ after)) mid := by
  have hr := allOfRounds_of_furthest h (before ++ after).length
  rw [List.length_map, ← List.map_append] at hr
  simpa [placedRounds, Nat.add_assoc] using hr

namespace Commits

theorem sublist (h : Commits pending start order stop left) : left.Sublist pending := by
  induction h with
  | done pending start => exact .refl pending
  | round _ _ _ ih => exact ih.trans ((List.sublist_cons_self _ _).append_left _)

/-- What fails behind the rounds fails before them. -/
theorem fails (h : Commits pending start order mid left) (hf : (placedRounds left).Fails mid e) :
    (placedRounds pending).Fails start e := by
  induction h with
  | done => exact hf
  | round h _ _ ih =>
    rw [Fails, placedRounds_of_furthest h]
    exact (fails_map_iff _).mpr (ih hf)

/-- Where no parser is left, the values stand at the places of their parsers. -/
theorem exists_values (h : Commits pending start order stop left) (hl : left = []) :
    ∃ vs, placedRounds pending start = .ok vs stop ∧ vs.length = pending.length ∧
      order.Perm (vs.zip (pending.map Prod.snd)) := by
  induction h with
  | done =>
    subst hl
    exact ⟨[], rfl, rfl, .nil⟩
  | @round before after left p place start mid stop v order h _ _ ih =>
    obtain ⟨vs, hv, hlen, hperm⟩ := ih hl
    -- The values of the others part where this one goes in, as the parsers do.
    obtain ⟨us, ws, rfl, hus⟩ : ∃ us ws, vs = us ++ ws ∧ us.length = before.length := by
      refine ⟨vs.take before.length, vs.drop before.length, (List.take_append_drop _ _).symm, ?_⟩
      rw [List.length_take, hlen, List.length_append]
      omega
    refine ⟨us ++ v :: ws, ?_, ?_, ?_⟩
    · rw [placedRounds_of_furthest h, ← hus]
      exact map_ok_iff.mpr ⟨us ++ ws, hv, insertIdx_length_append us ws v⟩
    · simp only [List.length_append, List.length_cons] at hlen ⊢
      omega
    · have hplaces : us.length = (before.map Prod.snd).length := by rw [hus, List.length_map]
      rw [List.map_append, List.zip_append hplaces] at hperm
      rw [List.map_append, List.zip_append hplaces, List.map_cons, List.zip_cons_cons]
      exact (hperm.cons (v, place)).trans List.perm_middle.symm

end Commits

theorem eq_of_zipIdx_perm (h : vs.zipIdx.Perm ws.zipIdx) : vs = ws := by
  apply List.ext_getElem?
  intro i
  apply Option.ext
  intro v
  rw [← List.mk_mem_zipIdx_iff_getElem?, ← List.mk_mem_zipIdx_iff_getElem?, h.mem_iff]

theorem pairwise_zipIdx (ps : List (Parser α)) : ps.zipIdx.Pairwise fun q r => q.2 < r.2 := by
  have h : (ps.zipIdx.map Prod.snd).Pairwise (· < ·) := by
    rw [List.zipIdx_map_snd]
    exact List.pairwise_lt_range'
  exact List.pairwise_map.mp h

theorem exists_values_of_commits (h : Commits ps.zipIdx start order stop []) :
    ∃ vs, allOf ps start = .ok vs stop ∧ vs.length = ps.length ∧ order.Perm vs.zipIdx := by
  obtain ⟨vs, hv, hlen, hperm⟩ := h.exists_values rfl
  rw [placedRounds_zipIdx] at hv
  rw [List.length_zipIdx] at hlen
  rw [List.zipIdx_map_snd, ← hlen, ← List.zipIdx_eq_zip_range'] at hperm
  exact ⟨vs, atomic_ok_iff.mpr hv, hlen, hperm⟩

theorem fails_of_commits {q : Parser α × Nat} (h : Commits ps.zipIdx start order mid (q :: left))
    (hq : q.1.Fails mid e) (hl : ∀ r ∈ left, r.1.Rejects mid) : (allOf ps).Fails start e := by
  have hr := h.fails (fails_allOfRounds_of_rejects hq (by simpa using hl) _)
  rw [placedRounds_zipIdx] at hr
  exact fails_atomic_iff.mpr hr

/-- The rounds commit every parser, or come to one in which the first that is left fails with all
the others. -/
theorem exists_commits_all_or_stuck (hc : ∀ p ∈ ps, ContractFrom start p) :
    (∃ order stop, Commits ps.zipIdx start order stop []) ∨
    ∃ order mid p place left e, Commits ps.zipIdx start order mid ((p, place) :: left) ∧
      p.Fails mid e ∧ ∀ q ∈ left, place < q.2 ∧ q.1.Rejects mid := by
  have hz : ∀ q ∈ ps.zipIdx, ContractFrom start q.1 :=
    fun q hq => hc q.1 (List.fst_mem_of_mem_zipIdx hq)
  obtain ⟨order, mid, left, hrun, hl⟩ := exists_commits hz
  cases left with
  | nil => exact Or.inl ⟨order, mid, hrun⟩
  | cons q left =>
    obtain ⟨p, place⟩ := q
    obtain ⟨hp, hrest⟩ := List.forall_mem_cons.mp hl
    obtain ⟨e, he⟩ := hp.exists_fails
    obtain ⟨hfirst, -⟩ := List.pairwise_cons.mp ((pairwise_zipIdx ps).sublist hrun.sublist)
    exact Or.inr ⟨order, mid, p, place, left, e, hrun, he, fun q hq => ⟨hfirst q hq, hrest q hq⟩⟩

theorem allOf_ok_iff_commits (hc : ∀ p ∈ ps, ContractFrom start p) :
    allOf ps start = .ok vs stop ↔ ∃ order, Commits ps.zipIdx start order stop [] ∧
      vs.length = ps.length ∧ order.Perm vs.zipIdx := by
  constructor
  · intro h
    rcases exists_commits_all_or_stuck hc with
      ⟨order, stop', hrun⟩ | ⟨order, mid, p, place, left, e, hrun, hp, hl⟩
    · obtain ⟨ws, hw, hlen, hperm⟩ := exists_values_of_commits hrun
      obtain ⟨rfl, rfl⟩ := ok_unique h hw
      exact ⟨order, hrun, hlen, hperm⟩
    · have hf := fails_of_commits hrun hp fun q hq => (hl q hq).2
      exact (hf.rejects vs stop h).elim
  · rintro ⟨order, hrun, -, hperm⟩
    obtain ⟨ws, hw, -, hperm'⟩ := exists_values_of_commits hrun
    obtain rfl := eq_of_zipIdx_perm (hperm.symm.trans hperm')
    exact hw

theorem allOf_error_iff_commits (hc : ∀ p ∈ ps, ContractFrom start p) :
    allOf ps start = .error e stop ↔ stop = start ∧ ∃ order mid p place left,
      Commits ps.zipIdx start order mid ((p, place) :: left) ∧ p.Fails mid e ∧
      ∀ q ∈ left, place < q.2 ∧ q.1.Rejects mid := by
  constructor
  · intro h
    refine ⟨restores_atomic _ h, ?_⟩
    rcases exists_commits_all_or_stuck hc with
      ⟨order, stop', hrun⟩ | ⟨order, mid, p, place, left, e', hrun, hp, hl⟩
    · obtain ⟨vs, hv, -⟩ := exists_values_of_commits hrun
      cases h.symm.trans hv
    · obtain ⟨_, hf⟩ := fails_of_commits hrun hp fun q hq => (hl q hq).2
      cases h.symm.trans hf
      exact ⟨order, mid, p, place, left, hrun, hp, hl⟩
  · rintro ⟨rfl, order, mid, p, place, left, hrun, hp, hl⟩
    obtain ⟨stop', hf⟩ := fails_of_commits hrun hp fun q hq => (hl q hq).2
    obtain rfl : stop' = stop := restores_atomic _ hf
    exact hf

end Rounds

/-- Parsers that match in any order succeed together exactly where the rounds commit all of them,
and then each value is at the place of its parser. They fail in place exactly where the rounds come
to one in which all that are left fail, with the failure of the first of these. -/
theorem allOf_commits {α : Type} (ps : List (Parser α)) (start : Cursor)
    (hc : ∀ p ∈ ps, ContractFrom start p) :
    (∀ vs stop, allOf ps start = .ok vs stop ↔
      ∃ order, Commits ps.zipIdx start order stop [] ∧ vs.length = ps.length ∧
        order.Perm vs.zipIdx) ∧
    ∀ e stop, allOf ps start = .error e stop ↔
      stop = start ∧ ∃ order mid p place left,
        Commits ps.zipIdx start order mid ((p, place) :: left) ∧ p.Fails mid e ∧
        ∀ q ∈ left, place < q.2 ∧ q.1.Rejects mid :=
  ⟨fun _ _ => allOf_ok_iff_commits hc, fun _ _ => allOf_error_iff_commits hc⟩

/-- A name and a pair of names: of three names the pair takes the first two although it is listed
second, and of two names it leaves none. -/
theorem allOf_commits_name_and_pair :
    let name (text : String) (offset : Nat) : Located Token :=
      ⟨.identifier text, ⟨⟨0⟩, offset, 1⟩⟩
    let one : Parser (List String) := (fun found => [found.value]) <$> identifier
    let two : Parser (List String) :=
      (fun found => found.map Located.value) <$> sequence [identifier, identifier]
    let three := Cursor.ofTokens [name "a" 0, name "b" 2, name "c" 4]
    let short := Cursor.ofTokens [name "a" 0, name "b" 2]
    (∀ p ∈ [one, two], ContractFrom three p ∧ ContractFrom short p) ∧
    (∃ order, Commits [one, two].zipIdx three order (three.moveTo 3) [] ∧
      order.Perm [(["c"], 0), (["a", "b"], 1)]) ∧
    ∃ order mid p place left, Commits [one, two].zipIdx short order mid ((p, place) :: left) ∧
      p.Fails mid (.endOfStream "identifier" ⟨⟨0⟩, 3, 0⟩) ∧
      ∀ q ∈ left, place < q.2 ∧ q.1.Rejects mid := by
  intro name one two three short
  have hb : ∀ p ∈ [one, two], Contract p := by
    have hone : Built one := .map _ .identifier
    have htwo : Built two := .map _ (.sequence (by simp [Built.identifier]))
    simp [hone.contract, htwo.contract]
  have hthree : ∀ p ∈ [one, two], ContractFrom three p :=
    fun p hp => (hb p hp).contractFrom (Nat.zero_le _)
  have hshort : ∀ p ∈ [one, two], ContractFrom short p :=
    fun p hp => (hb p hp).contractFrom (Nat.zero_le _)
  refine ⟨fun p hp => ⟨hthree p hp, hshort p hp⟩, ?_, ?_⟩
  · obtain ⟨order, hrun, -, hperm⟩ :=
      ((allOf_commits [one, two] three hthree).1 [["c"], ["a", "b"]] _).mp rfl
    exact ⟨order, hrun, hperm⟩
  · exact (((allOf_commits [one, two] short hshort).2 _ short).mp rfl).2

end FrontEnd.Parser
