import FrontEnd.Parser.Error
import FrontEnd.Syntax.Tree

/-! Chains of operands with infix operators between them, and the tree that such a chain stands
for. -/

namespace FrontEnd.Grammar

/-- An infix operator with the operand to its right. -/
structure Link where
  op : Infix
  location : Location
  operand : Expression

/-- The operator of `link` over two finished sides. An assignment wants a variable on its left. -/
def Link.join (link : Link) (left right : Expression) : Except ParseError Expression :=
  match link.op, left with
  | .binary op, _ => .ok (.binary op left right)
  | .assign op, .var target => .ok (.assign op target right)
  | .assign op, _ =>
    .error (.illegal ("'" ++ op.operator.text ++ "' requires a variable on its left") link.location)

/-- Whether `next` waits until `pending` has taken its right side: it associates to the left and
binds no tighter. An assignment never waits, so `a + b = c` is `a + (b = c)`. -/
def waitsFor (next pending : Infix) : Bool :=
  next.associativity = .left && pending.precedence ≤ next.precedence

mutual

/-- Folds onto `left` the links that bind no looser than `bound`, and gives those that are left
over. Every call takes a link or hands on to one that does, so `fuel` of one more than twice their
number is enough. -/
def climb : (fuel : Nat) → (left : Expression) → (bound : Nat) → List Link →
    Except ParseError (Expression × List Link)
  | 0, left, _, links => .ok (left, links)
  | _ + 1, left, _, [] => .ok (left, [])
  | fuel + 1, left, bound, link :: links =>
    if link.op.precedence ≤ bound then do
      let (right, rest) ← absorb fuel link.op link.operand links
      climb fuel (← link.join left right) bound rest
    else .ok (left, link :: links)

/-- The right side of `pending`: `right` with every link folded onto it that does not wait for
`pending`. -/
def absorb : (fuel : Nat) → (pending : Infix) → (right : Expression) → List Link →
    Except ParseError (Expression × List Link)
  | 0, _, right, links => .ok (right, links)
  | _ + 1, _, right, [] => .ok (right, [])
  | fuel + 1, pending, right, next :: links =>
    if waitsFor next.op pending then .ok (right, next :: links)
    else do
      let (right, rest) ← climb fuel right next.op.precedence (next :: links)
      absorb fuel pending right rest

end

/-- The tree of a whole chain. -/
def resolve (first : Expression) (links : List Link) : Except ParseError Expression :=
  Prod.fst <$> climb (2 * links.length + 1) first Infix.loosest links

end FrontEnd.Grammar
