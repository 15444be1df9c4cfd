import FrontEnd.Parser.Choice

/-! Repetition and recursion. Each round of a loop reads a token at least, or is the last, so the
number of tokens that remain bounds the number of rounds. Rounds that would go on without reading
anything end at the bound. A rule that contains itself reads a token before it comes to itself
again, and the same number bounds how deep it goes. -/

namespace FrontEnd.Parser

variable {α β : Type}

/-- Like `many`, for `bound` rounds at most. -/
def manyUpTo (p : Parser α) : (bound : Nat) → Parser (List α)
  | 0 => pure []
  | bound + 1 => do
    let start ← get
    let some value ← optional p | return []
    if (← get).readSince start.index = 0 then return [value]
    return value :: (← manyUpTo p bound)

/-- Repeats `p` as often as it matches. A match that reads nothing is the last. -/
def many (p : Parser α) : Parser (List α) := fun start =>
  manyUpTo p (start.remaining + 1) start

/-- The elements after the first, for `bound` rounds at most. -/
def separatedUpTo (element : Parser α) (separator : Parser β) : (bound : Nat) → Parser (List α)
  | 0 => pure []
  | bound + 1 => do
    let some _ ← optional separator | return []
    let some value ← optional element | return []
    return value :: (← separatedUpTo element separator bound)

/-- Elements with separators between them, possibly none. A separator after the last element is
read too. -/
def separated (element : Parser α) (separator : Parser β) : Parser (List α) := do
  let some first ← optional element | return []
  let cursor ← get
  return first :: (← separatedUpTo element separator (cursor.remaining + 1))

/-- Like `committed`, for `bound` rounds at most. -/
def committedUpTo (start : Parser α) (finish : α → Parser β) : (bound : Nat) → Parser (List β)
  | 0 => pure []
  | bound + 1 => do
    let some opening ← optional start | return []
    let value ← finish opening
    return value :: (← committedUpTo start finish bound)

/-- Rounds of `start` and `finish` for as long as `start` matches. A round that has started must
finish. -/
def committed (start : Parser α) (finish : α → Parser β) : Parser (List β) := do
  let cursor ← get
  committedUpTo start finish (cursor.remaining + 1)

/-! Rules that contain themselves. -/

/-- Nests `layer` in itself `depth` times; below that nothing matches. -/
def nested (layer : Parser α → Parser α) : (depth : Nat) → Parser α
  | 0 => anyOf []
  | depth + 1 => fun start => layer (nested layer depth) start

/-- The rule that `layer` describes in terms of itself. A rule reads a token before it comes to
itself again, so no more layers are entered than tokens remain. -/
def fix (layer : Parser α → Parser α) : Parser α := fun start =>
  nested layer (start.remaining + 1) start

end FrontEnd.Parser
