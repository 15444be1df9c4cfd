import FrontEnd.Parser.Basic

/-! Choices that try every alternative and keep the one that reads furthest. -/

namespace FrontEnd.Parser

variable {α : Type}

/-- How a run of a parser ended. -/
abbrev Trial := EStateM.Result ParseError Cursor

/-- How far a trial got: a failure nowhere, a success past its last token. -/
def reach : Trial α → Nat
  | .ok _ cursor => cursor.index + 1
  | .error _ _ => 0

/-- Each of the parsers, run from the same place. -/
def trials (parsers : List (Parser α)) (start : Cursor) : List (Trial α) :=
  parsers.map (· start)

/-- The alternative that reads furthest from here, the first of them on a tie. No failure reaches
further than another, so when all fail the first failure stands. -/
def anyOf (alternatives : List (Parser α)) : Parser α :=
  atomic fun start =>
    ((trials alternatives start).maxOn? reach).getD
      (.error (start.expecting "an alternative") start)

/-- Every pending parser once: the one that reads furthest, then the others from where it ended.
The values come in the order of the parsers, whatever order they matched in. -/
def allOfRounds : (rounds : Nat) → (pending : List (Parser α)) → Parser (List α)
  | 0, _ => pure []
  | rounds + 1, pending => fun start =>
    match (trials pending start).zipIdx.maxOn? (reach ·.1) with
    | none => .ok [] start
    | some (.error error cursor, _) => .error error cursor
    | some (.ok value cursor, i) =>
      ((·.insertIdx i value) <$> allOfRounds rounds (pending.eraseIdx i)) cursor

/-- Every parser once, in whatever order the tokens have them. -/
def allOf (parsers : List (Parser α)) : Parser (List α) :=
  atomic (allOfRounds parsers.length parsers)

end FrontEnd.Parser
