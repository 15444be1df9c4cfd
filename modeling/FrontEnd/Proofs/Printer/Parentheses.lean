import FrontEnd.Proofs.Grammar.Targets
import FrontEnd.Proofs.RoundTrip

/-! Which parentheses of the printer reading back could do without: those around an assignment on
the right of a binary operator, and no others. -/
namespace FrontEnd

open Grammar

namespace Printer

inductive Side where
  | left | right
deriving DecidableEq

variable (op : BinaryOp) (left right : Expression)

/-- Whether the operand on a side of `op` is printed in parentheses. -/
def grouping : Side → Bool
  | .left => operandNeeds (.binary op) left .right
  | .right => operandNeeds (.binary op) right .left

/-- The operands around `op`, with parentheses on the sides that `groups` names. -/
def binaryText (groups : Side → Bool) : String :=
  around (.binary op) (parenthesized (groups .left) (expression left))
    (parenthesized (groups .right) (expression right))

/-- The printed form has the parentheses that `grouping` names. -/
theorem expression_binary :
    expression (.binary op left right) = binaryText op left right (grouping op left right) := by
  rw [expression]
  rfl

/-- The printed form without the parentheses on one side. -/
def withoutPair (side : Side) : String :=
  binaryText op left right fun other => other ≠ side && grouping op left right other

end Printer

namespace Grammar

variable {ts us : List Token} {e x y left right : Expression} {bound : Nat} {op op' : BinaryOp}

theorem ExpressionOf.unique (h : ExpressionOf ts x) (h' : ExpressionOf ts y) : x = y := by
  let tokens : List (Located Token) := ts.map fun t => ⟨t, .origin⟩
  have ht : tokens.map Located.value = ts := by simp [tokens, Function.comp_def]
  have hx : parseExpression tokens = .ok x := parseExpression_ok_iff.mpr (ht.symm ▸ h)
  have hy : parseExpression tokens = .ok y := parseExpression_ok_iff.mpr (ht.symm ▸ h')
  exact Except.ok.inj (hx.symm.trans hy)

namespace Spine

/-- Two chains with a binary operator between them are one chain, of whatever tree. -/
theorem exists_join (op : BinaryOp) (hl : Spine bound ts left) (hr : Spine bound us right)
    (hop : (Infix.binary op).precedence < bound) :
    ∃ x, Spine bound (ts ++ .operator op.operator :: us) x := by
  obtain @⟨ts, ts', first, _, links, hf, hls, hb, he⟩ := hl
  obtain @⟨us, us', first', _, links', hf', hls', hb', he'⟩ := hr
  have ht : Targeted first links := (folds_of_fold he).targeted fun _ => trivial
  have ht' : Targeted first' links' := (folds_of_fold he').targeted fun _ => trivial
  obtain ⟨x, rest, hx, -⟩ := (ht.append op .origin ht').exists_folds Infix.loosest
  obtain rfl := rest_of_fold_loosest hx.fold_eq
  rw [List.append_assoc]
  refine ⟨x, .mk hf (hls.append (.cons (.binary op) .origin hf' hls')) ?_ hx.fold_eq⟩
  intro link hm
  rcases List.mem_append.mp hm with hm | hm
  · exact hb link hm
  · rcases List.mem_cons.mp hm with rfl | hm
    · exact hop
    · exact hb' link hm

/-- Without parentheses, an assignment on the right of an operator is still its operand. -/
theorem binary_assign (hl : Spine ((Infix.binary op).precedence + 1) ts left) (a : AssignOp)
    (target : String) (hv : Spine bound us e) :
    ExpressionOf (ts ++ .operator op.operator :: .identifier target :: .operator a.operator :: us)
      (.binary op left (.assign a target e)) := by
  obtain @⟨ts, ts', first, _, links, hf, hls, hb, he⟩ := hl
  obtain @⟨us, us', first', _, links', hf', hls', -, he'⟩ := hv
  let next : Link := ⟨.binary op, .origin, .var target⟩
  let assigning : Link := ⟨.assign a, .origin, first'⟩
  have hlinks := hls.append (.cons (.binary op) .origin (.leaf (.var target))
    (.cons (.assign a) .origin hf' hls'))
  have hw : ∀ l ∈ links, waitsFor next.op l.op = true := fun l hl =>
    waitsFor_iff.mpr ⟨rfl, Nat.le_of_lt_succ (hb l hl)⟩
  have hside : side next.op next.operand (assigning :: links') =
      .ok (.assign a target e, []) := by
    rw [side_cons rfl, fold_cons_of_le (Nat.le_refl _), side_assign, he']
    rfl
  rw [List.append_assoc]
  refine .chain hf hlinks ?_
  rw [resolve_eq, fold_append hw he, if_pos rfl, fold_cons_of_le (Infix.precedence_le_loosest _),
    hside]
  rfl

end Spine

/-! What a chain is read as when the parentheses around one operand of its root are missing. -/

theorem not_expressionOf_bare_left (hneeds : Printer.operandNeeds (.binary op) left .right = true)
    (hr : Spine (Infix.binary op).precedence us right) :
    ¬ ExpressionOf (left.tokens ++ .operator op.operator :: us) (.binary op left right) := by
  intro h
  cases left with
  | binary op' l r =>
    have hlt : (Infix.binary op).precedence < (Infix.binary op').precedence := by
      simpa [Printer.operandNeeds, Expression.root?, Infix.associativity] using hneeds
    -- the looser operator takes all that follows it, `op` included
    obtain ⟨x, hx⟩ := (r.spine.grouped level_le_of_right).exists_join op
      (hr.mono (Nat.le_of_lt hlt)) hlt
    have hroot := ((l.spine.grouped level_le_of_left).binary hx).expressionOf
    rw [Expression.tokens, List.append_assoc] at h
    cases h.unique hroot
  | assign a target value =>
    have hv : Spine (Infix.loosest + 1)
        (Printer.grouped (Printer.operandNeeds (.assign a) value .left) value.tokens) value :=
      value.spine.grouped fun _ => value.level_le_loosest
    obtain ⟨x, hx⟩ := hv.exists_join op
      (hr.mono (Nat.le_succ_of_le (Infix.precedence_le_loosest _)))
      (Nat.lt_succ_of_le (Infix.precedence_le_loosest _))
    cases h.unique (hx.assign a target).expressionOf
  | _ => cases hneeds

theorem expressionOf_bare_right_iff
    (hneeds : Printer.operandNeeds (.binary op) right .left = true)
    (hl : Spine ((Infix.binary op).precedence + 1) ts left) :
    ExpressionOf (ts ++ .operator op.operator :: right.tokens) (.binary op left right) ↔
      ∃ a target value, right = .assign a target value := by
  cases right with
  | binary op' l r =>
    have hle : (Infix.binary op).precedence ≤ (Infix.binary op').precedence := by
      simp [Printer.operandNeeds, Expression.root?, Infix.associativity] at hneeds
      omega
    refine ⟨fun h => ?_, by simp⟩
    obtain ⟨x, hx⟩ := (hl.mono (Nat.succ_le_succ hle)).exists_join op
      (l.spine.grouped level_le_of_left) (Nat.lt_succ_of_le hle)
    have hroot := (hx.binary (r.spine.grouped level_le_of_right)).expressionOf
    rw [List.append_assoc, List.cons_append] at hroot
    cases h.unique hroot
  | assign a target value =>
    refine ⟨fun _ => ⟨a, target, value, rfl⟩, fun _ => ?_⟩
    exact hl.binary_assign a target (value.spine.grouped fun _ => Nat.le_refl _)
  | _ => cases hneeds

end Grammar

namespace Printer

variable {op : BinaryOp} {left right : Expression}

/-- The tokens of `binaryText`. -/
def binaryTokens (op : BinaryOp) (left right : Expression) (groups : Side → Bool) : List Token :=
  grouped (groups .left) left.tokens ++
    .operator op.operator :: grouped (groups .right) right.tokens

theorem spelled_binaryText (h : (Expression.binary op left right).WellFormed)
    (groups : Side → Bool) : Spelled (binaryText op left right groups).toList
      (binaryTokens op left right groups) := by
  have hl := (left.prints h.1).parenthesized (groups .left)
  have hr := (right.prints h.2).parenthesized (groups .right)
  exact (hl.around hr (.binary op)).spelled

end Printer

namespace Source

open Printer

variable {op : BinaryOp} {left right : Expression}

theorem parseExpression_of_spelled {source : String} {ts : List Token} {e : Expression}
    (h : Spelled source.toList ts) : parseExpression source = .ok e ↔ ExpressionOf ts e := by
  obtain ⟨tokens, ht, rfl⟩ := tokenize_of_spelled h ⟨0⟩
  rw [parseExpression, read_ok_iff, ← parseExpression_ok_iff]
  constructor
  · rintro ⟨tokens', ht', hp⟩
    cases ht.symm.trans ht'
    exact hp
  · intro hp
    exact ⟨tokens, ht, hp⟩

/-- The printed form of a binary expression without one pair of its operands' parentheses is read
as the same expression only if what stood in them was an assignment on the right. -/
theorem parseExpression_withoutPair_iff (h : (Expression.binary op left right).WellFormed)
    (side : Side) (hg : grouping op left right side = true) :
    parseExpression (withoutPair op left right side) = .ok (.binary op left right) ↔
      side = .right ∧ ∃ a target value, right = .assign a target value := by
  rw [withoutPair, parseExpression_of_spelled (spelled_binaryText h _)]
  cases side with
  | left =>
    have hn := not_expressionOf_bare_left hg (right.spine.grouped level_le_of_right)
    simpa [binaryTokens, grouped, grouping] using hn
  | right =>
    have hi := expressionOf_bare_right_iff hg (left.spine.grouped level_le_of_left)
    simpa [binaryTokens, grouped, grouping] using hi

/-- Of `a - (b - c)` and `a * (x = b + c)` only the second can do without the parentheses. -/
theorem parseExpression_withoutPair_iff_twice :
    let difference : Expression := .binary .subtract (.var "b") (.var "c")
    let assignment : Expression := .assign .assign "x" (.binary .add (.var "b") (.var "c"))
    parseExpression "a - b - c" ≠ .ok (.binary .subtract (.var "a") difference) ∧
      parseExpression "a * x = b + c" = .ok (.binary .multiply (.var "a") assignment) := by
  intro difference assignment
  have hd : withoutPair .subtract (.var "a") difference .right = "a - b - c" := by decide
  have ha : withoutPair .multiply (.var "a") assignment .right = "a * x = b + c" := by decide
  have hd' : (Expression.binary .subtract (.var "a") difference).WellFormed := by decide
  have ha' : (Expression.binary .multiply (.var "a") assignment).WellFormed := by decide
  constructor
  · intro h
    rw [← hd, parseExpression_withoutPair_iff hd' .right rfl] at h
    obtain ⟨-, a, target, value, hr⟩ := h
    simp [difference] at hr
  · rw [← ha, parseExpression_withoutPair_iff ha' .right rfl]
    exact ⟨rfl, _, _, _, rfl⟩

end Source

end FrontEnd
