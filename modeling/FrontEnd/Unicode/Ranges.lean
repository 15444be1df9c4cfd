/-! Sets of code points given by ascending, disjoint, inclusive ranges. -/

namespace FrontEnd.Unicode

/-- Whether each range is not empty and starts above the one before it. -/
def ascending : List (Nat × Nat) → Bool
  | [] => true
  | [(first, last)] => first ≤ last
  | (first, last) :: (next, last') :: rest =>
    first ≤ last && last < next && ascending ((next, last') :: rest)

/-- Whether `code` lies in one of the ranges. The ranges ascend, so the search ends at the first
range that starts above `code`. -/
def inRanges : List (Nat × Nat) → Nat → Bool
  | [], _ => false
  | (first, last) :: rest, code =>
    if code < first then false else code ≤ last || inRanges rest code

theorem ascending_tail {range : Nat × Nat} {ranges : List (Nat × Nat)}
    (h : ascending (range :: ranges) = true) : ascending ranges = true := by
  cases ranges with
  | nil => rfl
  | cons next rest =>
    simp only [ascending, Bool.and_eq_true] at h
    exact h.2

/-- Every later range starts above the first. -/
theorem lt_of_ascending {range later : Nat × Nat} {ranges : List (Nat × Nat)}
    (h : ascending (range :: ranges) = true) (hl : later ∈ ranges) : range.1 < later.1 := by
  induction ranges generalizing range with
  | nil => cases hl
  | cons next rest ih =>
    have hn : range.1 < next.1 := by
      simp only [ascending, Bool.and_eq_true, decide_eq_true_eq] at h
      omega
    obtain rfl | hr := List.mem_cons.mp hl
    · exact hn
    · exact Nat.lt_trans hn (ih (ascending_tail h) hr)

/-- The search that stops early misses nothing. -/
theorem inRanges_iff {ranges : List (Nat × Nat)} (h : ascending ranges = true) (code : Nat) :
    inRanges ranges code = true ↔ ∃ range ∈ ranges, range.1 ≤ code ∧ code ≤ range.2 := by
  induction ranges with
  | nil => simp [inRanges]
  | cons range rest ih =>
    have hr := ih (ascending_tail h)
    by_cases hc : code < range.1
    · simp only [inRanges, hc, if_true, Bool.false_eq_true, false_iff, not_exists, not_and]
      intro later hl hle
      obtain rfl | hl := List.mem_cons.mp hl
      · omega
      · have := lt_of_ascending h hl
        omega
    · simp only [inRanges, hc, if_false, Bool.or_eq_true, decide_eq_true_eq, hr, List.mem_cons,
        exists_eq_or_imp]
      exact or_congr_left (by omega)

/-- A set of code points, as ranges that ascend. -/
structure RangeTable where
  ranges : List (Nat × Nat)
  ascending : Unicode.ascending ranges = true := by decide +kernel

namespace RangeTable

def contains (table : RangeTable) (code : Nat) : Bool := inRanges table.ranges code

theorem contains_iff (table : RangeTable) (code : Nat) : table.contains code = true ↔
    ∃ range ∈ table.ranges, range.1 ≤ code ∧ code ≤ range.2 :=
  inRanges_iff table.ascending code

end RangeTable

end FrontEnd.Unicode
