import FrontEnd.Proofs.Grammar.ExpressionCompleteness
import FrontEnd.Syntax.Equality

/-! The tree that a chain of operands and infix operators stands for, said without climbing: the
first assignment takes all that follows it, and a chain without assignments is split at the
rightmost of its loosest operators. Climbing gives that tree for every chain. -/
namespace FrontEnd.Grammar

open FrontEnd.Parser

/-- An operand and the infix operator behind it. In front of an assignment stands a variable. -/
inductive Turn where
  | binary (operand : Expression) (op : BinaryOp)
  | assign (target : String) (op : AssignOp)

namespace Turn

def operand : Turn → Expression
  | binary operand _ => operand
  | assign target _ => .var target

def op : Turn → Infix
  | binary _ op => .binary op
  | assign _ op => .assign op

def ofBinary (turn : Expression × BinaryOp) : Turn := .binary turn.1 turn.2

end Turn

/-- How loosely the operator of a turn binds. -/
def looseness (turn : Expression × BinaryOp) : Nat := (Infix.binary turn.2).precedence

/-- The turns in front of the rightmost of the loosest, that one, and those behind it. -/
def cutLoosest : List (Expression × BinaryOp) →
    Option (List (Expression × BinaryOp) × (Expression × BinaryOp) × List (Expression × BinaryOp))
  | [] => none
  | turn :: turns =>
    match cutLoosest turns with
    | none => some ([], turn, [])
    | some (front, loosest, behind) =>
      if looseness loosest < looseness turn then some ([], turn, turns)
      else some (turn :: front, loosest, behind)

section Cut

variable {turns front behind : List (Expression × BinaryOp)} {loosest : Expression × BinaryOp}

theorem eq_nil_of_cutLoosest (h : cutLoosest turns = none) : turns = [] := by
  cases turns with
  | nil => rfl
  | cons turn turns =>
    rw [cutLoosest] at h
    split at h
    · cases h
    · split at h <;> cases h

theorem eq_append_of_cutLoosest (h : cutLoosest turns = some (front, loosest, behind)) :
    turns = front ++ loosest :: behind := by
  induction turns generalizing front with
  | nil => cases h
  | cons turn turns ih =>
    rw [cutLoosest] at h
    split at h
    · next hn =>
      cases h
      rw [eq_nil_of_cutLoosest hn]
      rfl
    · next front' loosest' behind' hs =>
      split at h
      · cases h
        rfl
      · cases h
        rw [ih hs]
        rfl

theorem length_lt_of_cutLoosest (h : cutLoosest turns = some (front, loosest, behind)) :
    front.length < turns.length ∧ behind.length < turns.length := by
  rw [eq_append_of_cutLoosest h, List.length_append, List.length_cons]
  omega

/-- Nothing in front of the cut binds looser, and everything behind it binds tighter. -/
theorem looseness_of_cutLoosest (h : cutLoosest turns = some (front, loosest, behind)) :
    (∀ turn ∈ front, looseness turn ≤ looseness loosest) ∧
      ∀ turn ∈ behind, looseness turn < looseness loosest := by
  induction turns generalizing front loosest behind with
  | nil => cases h
  | cons turn turns ih =>
    rw [cutLoosest] at h
    split at h
    · cases h
      simp
    · next front' loosest' behind' hs =>
      obtain ⟨hfront, hbehind⟩ := ih hs
      split at h
      · next hlt =>
        cases h
        refine ⟨by simp, fun other hm => ?_⟩
        rw [eq_append_of_cutLoosest hs] at hm
        rcases List.mem_append.mp hm with hm | hm
        · exact Nat.lt_of_le_of_lt (hfront other hm) hlt
        · rcases List.mem_cons.mp hm with rfl | hm
          · exact hlt
          · exact Nat.lt_trans (hbehind other hm) hlt
      · next hle =>
        cases h
        refine ⟨fun other hm => ?_, hbehind⟩
        rcases List.mem_cons.mp hm with rfl | hm
        · exact Nat.not_lt.mp hle
        · exact hfront other hm

end Cut

/-- The tree of a chain without assignments. -/
def binaryTree (turns : List (Expression × BinaryOp)) (last : Expression) : Expression :=
  match h : cutLoosest turns with
  | none => last
  | some (front, (operand, op), behind) =>
    have := length_lt_of_cutLoosest h
    .binary op (binaryTree front operand) (binaryTree behind last)
termination_by turns.length

/-- The tree of a chain that starts with `front`, in which there is no assignment. The first
assignment is the last operand of the chain in front of it. -/
def treeFrom (front : List (Expression × BinaryOp)) : List Turn → (last : Expression) → Expression
  | [], last => binaryTree front last
  | .binary operand op :: turns, last => treeFrom (front ++ [(operand, op)]) turns last
  | .assign target op :: turns, last =>
    binaryTree front (.assign op target (treeFrom [] turns last))

/-- The tree of a chain. -/
def tree (turns : List Turn) (last : Expression) : Expression := treeFrom [] turns last

/-! The chain as it is climbed: its first operand, and links behind that. -/

variable {turns front behind : List Turn} {turn : Turn} {last e x left right : Expression}
  {target : String} {link : Link}

def firstOperand : List Turn → (last : Expression) → Expression
  | [], last => last
  | turn :: _, _ => turn.operand

/-- Where the operators stand is left open, since it plays no part. -/
def linksBehind : List Turn → (last : Expression) → List Link
  | [], _ => []
  | turn :: turns, last => ⟨turn.op, .origin, firstOperand turns last⟩ :: linksBehind turns last

theorem firstOperand_append :
    firstOperand (front ++ turn :: behind) last = firstOperand front turn.operand := by
  cases front <;> rfl

theorem linksBehind_append : linksBehind (front ++ turn :: behind) last =
    linksBehind front turn.operand ++
      ⟨turn.op, .origin, firstOperand behind last⟩ :: linksBehind behind last := by
  induction front with
  | nil => rfl
  | cons other front ih =>
    rw [List.cons_append, linksBehind, linksBehind, ih, firstOperand_append, List.cons_append]

theorem exists_turn_of_mem (h : link ∈ linksBehind turns last) :
    ∃ turn ∈ turns, link.op = turn.op := by
  induction turns with
  | nil => cases h
  | cons turn turns ih =>
    rcases List.mem_cons.mp h with rfl | h
    · exact ⟨turn, List.mem_cons_self, rfl⟩
    · obtain ⟨other, hm, ho⟩ := ih h
      exact ⟨other, List.mem_cons_of_mem turn hm, ho⟩

/-- Climbing the chain gives the tree and leaves nothing over. -/
def ResolvesTo (turns : List Turn) (last e : Expression) : Prop :=
  Folds (firstOperand turns last) Infix.loosest (linksBehind turns last) e []

/-- An operator that waits for all in front of it, and that nothing behind it waits for, is the
root. -/
theorem ResolvesTo.binary {op : BinaryOp}
    (hf : ∀ other ∈ front, waitsFor (.binary op) other.op = true)
    (hb : ∀ other ∈ behind, waitsFor other.op (.binary op) = false)
    (hl : ResolvesTo front x left) (hr : ResolvesTo behind last right) :
    ResolvesTo (front ++ .binary x op :: behind) last (.binary op left right) := by
  have hwait : ∀ link ∈ linksBehind front x, waitsFor (.binary op) link.op = true := by
    intro link hm
    obtain ⟨other, ho, he⟩ := exists_turn_of_mem hm
    exact he ▸ hf other ho
  have hfree : ∀ link ∈ linksBehind behind last, waitsFor link.op (.binary op) = false := by
    intro link hm
    obtain ⟨other, ho, he⟩ := exists_turn_of_mem hm
    exact he ▸ hb other ho
  have hside : Sides (.binary op) (firstOperand behind last) (linksBehind behind last) right [] :=
    sides_of_side ((side_eq_fold hfree _).trans hr.fold_eq)
  have hroot : Folds left Infix.loosest
      (⟨.binary op, .origin, firstOperand behind last⟩ :: linksBehind behind last)
      (.binary op left right) [] :=
    .take (Infix.precedence_le_loosest _) hside rfl .nil
  apply folds_of_fold
  rw [firstOperand_append, linksBehind_append]
  exact (fold_append hwait hl.fold_eq _).trans hroot.fold_eq

theorem resolvesTo_binaryTree (turns : List (Expression × BinaryOp)) (last : Expression) :
    ResolvesTo (turns.map .ofBinary) last (binaryTree turns last) := by
  fun_induction binaryTree turns last with
  | case1 turns last h =>
    rw [eq_nil_of_cutLoosest h]
    exact .nil
  | case2 turns last front operand op behind h _ ihfront ihbehind =>
    obtain ⟨hfront, hbehind⟩ := looseness_of_cutLoosest h
    rw [eq_append_of_cutLoosest h, List.map_append, List.map_cons]
    refine ResolvesTo.binary ?_ ?_ ihfront ihbehind
    · intro turn hm
      obtain ⟨other, ho, rfl⟩ := List.mem_map.mp hm
      exact waitsFor_iff.mpr ⟨rfl, hfront other ho⟩
    · intro turn hm
      obtain ⟨other, ho, rfl⟩ := List.mem_map.mp hm
      cases hw : waitsFor (Turn.ofBinary other).op (.binary op) with
      | false => rfl
      | true => exact (Nat.not_lt.mpr (waitsFor_iff.mp hw).2 (hbehind other ho)).elim

/-! An assignment as the last operand of the chain in front of it. -/

/-- The second list has `operand` and `more` where the first one ends with `whole`, unless that
end has been taken. -/
inductive Expands (whole operand : Expression) (more : List Link) : List Link → List Link → Prop
  | nil : Expands whole operand more [] []
  | last (op : Infix) (location : Location) :
      Expands whole operand more [⟨op, location, whole⟩] (⟨op, location, operand⟩ :: more)
  | cons {short long : List Link} (link : Link) (h : Expands whole operand more short long) :
      Expands whole operand more (link :: short) (link :: long)

section Expands

variable {whole operand : Expression} {more : List Link}

mutual

/-- If every right side that starts with `operand` takes `more` and comes to `whole`, then a climb
cannot tell the two lists apart. -/
theorem Folds.expand (hm : ∀ pending, Sides pending operand more whole []) {left e : Expression}
    {bound : Nat} {short long rest : List Link} :
    Folds left bound short e rest → Expands whole operand more short long →
      ∃ rest', Folds left bound long e rest' ∧ Expands whole operand more rest rest'
  | .nil, .nil => ⟨[], .nil, .nil⟩
  | .stop hl, hx => by
    cases hx with
    | last op location => exact ⟨_, .stop hl, .last op location⟩
    | cons _ h => exact ⟨_, .stop hl, .cons _ h⟩
  | .take hl hs hj hf, hx => by
    cases hx with
    | last op location =>
      cases hs
      cases hf
      exact ⟨[], .take hl (hm op) hj .nil, .nil⟩
    | cons _ h =>
      obtain ⟨mid, hs', hmid⟩ := hs.expand hm h
      obtain ⟨rest, hf', hr⟩ := hf.expand hm hmid
      exact ⟨rest, .take hl hs' hj hf', hr⟩

theorem Sides.expand (hm : ∀ pending, Sides pending operand more whole []) {pending : Infix}
    {right e : Expression} {short long rest : List Link} :
    Sides pending right short e rest → Expands whole operand more short long →
      ∃ rest', Sides pending right long e rest' ∧ Expands whole operand more rest rest'
  | .nil, .nil => ⟨[], .nil, .nil⟩
  | .stop hw, hx => by
    cases hx with
    | last op location => exact ⟨_, .stop hw, .last op location⟩
    | cons _ h => exact ⟨_, .stop hw, .cons _ h⟩
  | .take hw hf hs, hx => by
    obtain ⟨mid, hf', hmid⟩ := hf.expand hm hx
    obtain ⟨rest, hs', hr⟩ := hs.expand hm hmid
    cases hx with
    | last op location => exact ⟨rest, .take hw hf' hs', hr⟩
    | cons _ h => exact ⟨rest, .take hw hf' hs', hr⟩

end

end Expands

theorem expands_linksBehind (turn : Turn) (turns behind : List Turn) (whole last : Expression) :
    Expands whole (firstOperand behind last) (linksBehind behind last)
      (linksBehind (turn :: turns) whole) (linksBehind (turn :: turns ++ behind) last) := by
  induction turns generalizing turn with
  | nil => exact .last turn.op .origin
  | cons other turns ih => exact .cons ⟨turn.op, .origin, other.operand⟩ (ih other)

/-- An assignment takes the rest of the chain. -/
theorem ResolvesTo.assign {op : AssignOp} (h : ResolvesTo behind last e) :
    ResolvesTo (.assign target op :: behind) last (.assign op target e) := by
  have hside : Sides (.assign op) (firstOperand behind last) (linksBehind behind last) e [] :=
    sides_of_side ((side_assign op _ _).trans h.fold_eq)
  exact .take (Nat.le_refl _) hside rfl .nil

/-- No operator makes an assignment wait, so it is done before all in front of it. -/
theorem ResolvesTo.append_assign {op : AssignOp} {value : Expression}
    (hv : ResolvesTo behind last value) (h : ResolvesTo front (.assign op target value) e) :
    ResolvesTo (front ++ .assign target op :: behind) last e := by
  have ha : ResolvesTo (.assign target op :: behind) last (.assign op target value) := hv.assign
  cases front with
  | nil =>
    cases h
    exact ha
  | cons turn front =>
    have hm (pending : Infix) : Sides pending (.var target)
        (linksBehind (.assign target op :: behind) last) (.assign op target value) [] :=
      .take rfl ha .nil
    have hx := expands_linksBehind turn front (.assign target op :: behind)
      (.assign op target value) last
    obtain ⟨rest, hf, hr⟩ := Folds.expand hm h hx
    cases hr
    exact hf

theorem resolvesTo_treeFrom (front : List (Expression × BinaryOp)) (turns : List Turn)
    (last : Expression) :
    ResolvesTo (front.map .ofBinary ++ turns) last (treeFrom front turns last) := by
  induction turns generalizing front with
  | nil =>
    rw [List.append_nil]
    exact resolvesTo_binaryTree front last
  | cons turn turns ih =>
    cases turn with
    | binary operand op =>
      have h := ih (front ++ [(operand, op)])
      rw [List.map_append, List.append_assoc] at h
      exact h
    | assign target op => exact (ih []).append_assign (resolvesTo_binaryTree front _)

/-! Chains of tokens. -/

/-- From the one place to the other, operands and infix operators take turns. No infix operator
follows the last operand. -/
inductive ChainAt : Cursor → List Turn → Expression → Cursor → Prop
  | last {start stop : Cursor} {e : Expression} (he : operand start = .ok e stop)
      (hn : stop.NextIs fun t => ∀ op : Infix, t ≠ .operator op.operator) : ChainAt start [] e stop
  | turn {start mid next stop : Cursor} {turn : Turn} {turns : List Turn} {last : Expression}
      (he : operand start = .ok turn.operand mid)
      (ho : mid.Reads [.operator turn.op.operator] next) (h : ChainAt next turns last stop) :
      ChainAt start (turn :: turns) last stop

variable {start stop : Cursor}

theorem ChainAt.exists_links (h : ChainAt start turns last stop) :
    ∃ mid links, operand start = .ok (firstOperand turns last) mid ∧
      Repeats infixOperator.Rejects (Layer.link expression) mid links stop ∧
      (linksBehind turns last).map Link.bare = links.map Link.bare := by
  induction h with
  | @last start stop e he hn =>
    refine ⟨stop, [], he, .nil ?_, rfl⟩
    intro op next hop
    have hr := reads_of_infixOperator hop
    exact hn _ (by simp [hr.ahead]) op.value rfl
  | @turn start mid next stop turn turns last he ho _ ih =>
    obtain ⟨mid', links, hf, hl, hb⟩ := ih
    obtain ⟨location, hop⟩ := infixOperator_of_reads turn.op ho
    refine ⟨mid, ⟨turn.op, location, firstOperand turns last⟩ :: links, he, .cons ?_ hl, ?_⟩
    · exact Layer.link_ok_iff.mpr ⟨next, hop, hf⟩
    · rw [linksBehind, List.map_cons, List.map_cons, hb]
      rfl

/-- Whatever the operators of a chain, it is read to its end and as its tree. -/
theorem expression_of_chainAt (h : ChainAt start turns last stop) :
    expression start = .ok (tree turns last) stop := by
  obtain ⟨mid, links, hf, hl, hb⟩ := h.exists_links
  have hr := resolve_of_bare hb (resolve_ok_iff.mpr (resolvesTo_treeFrom [] turns last))
  rw [expression_eq]
  exact (Layer.expression_ok_iff moves_expression).mpr ⟨_, mid, links, hf, hl, hr⟩

/-- Differences go to the left, and the assignment takes the rest of `a - b - c = d && e`. -/
theorem expression_of_chainAt_differences :
    let tokens : List Token := [.identifier "a", .operator .minus, .identifier "b",
      .operator .minus, .identifier "c", .operator .assign, .identifier "d", .operator .andAnd,
      .identifier "e", .delimiter .semicolon]
    let start := Cursor.ofTokens (tokens.map (⟨·, .origin⟩))
    ChainAt start [.binary (.var "a") .subtract, .binary (.var "b") .subtract, .assign "c" .assign,
        .binary (.var "d") .and] (.var "e") (start.moveTo 9) ∧
      expression start = .ok (.binary .subtract (.binary .subtract (.var "a") (.var "b"))
        (.assign .assign "c" (.binary .and (.var "d") (.var "e")))) (start.moveTo 9) := by
  intro tokens start
  have hname {turn : Turn} {turns : List Turn} (k : Nat) (name : String)
      (hx : turn.operand = .var name)
      (hr : (start.moveTo k).Reads [.identifier name, .operator turn.op.operator]
        (start.moveTo (k + 2)))
      (h : ChainAt (start.moveTo (k + 2)) turns (.var "e") (start.moveTo 9)) :
      ChainAt (start.moveTo k) (turn :: turns) (.var "e") (start.moveTo 9) := by
    obtain ⟨mid, hn, ho⟩ := hr.uncons
    refine .turn ?_ ho h
    rw [hx]
    exact (OperandOf.leaf (.var name)).complete hn (nextIs_of_reads ho (Or.inr ⟨turn.op, rfl⟩))
  have hlast : ChainAt (start.moveTo 8) [] (.var "e") (start.moveTo 9) := by
    refine .last ((OperandOf.leaf (.var "e")).complete ⟨rfl, rfl, rfl⟩ ?_) ?_
    · rintro t ⟨⟩
      exact Or.inl (Or.inr (Or.inr rfl))
    · rintro t ⟨⟩ op
      simp
  have hc : ChainAt start [.binary (.var "a") .subtract, .binary (.var "b") .subtract,
      .assign "c" .assign, .binary (.var "d") .and] (.var "e") (start.moveTo 9) :=
    hname 0 "a" rfl ⟨rfl, rfl, rfl⟩ (hname 2 "b" rfl ⟨rfl, rfl, rfl⟩
      (hname 4 "c" rfl ⟨rfl, rfl, rfl⟩ (hname 6 "d" rfl ⟨rfl, rfl, rfl⟩ hlast)))
  have ht : tree [.binary (.var "a") .subtract, .binary (.var "b") .subtract,
      .assign "c" .assign, .binary (.var "d") .and] (.var "e") =
      .binary .subtract (.binary .subtract (.var "a") (.var "b"))
        (.assign .assign "c" (.binary .and (.var "d") (.var "e"))) := by
    decide +kernel
  exact ⟨hc, ht ▸ expression_of_chainAt hc⟩

end FrontEnd.Grammar
