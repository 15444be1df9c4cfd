import FrontEnd.Proofs.Grammar.StatementCompleteness
import FrontEnd.Proofs.Printer.Derivation
import FrontEnd.Proofs.Printer.Spelling
import FrontEnd.Source

/-! What is printed is read back as what was printed. -/
namespace FrontEnd

open Grammar

theorem except_mapError_ok_iff {ε ε' α : Type} {x : Except ε α} {f : ε → ε'} {a : α} :
    x.mapError f = .ok a ↔ x = .ok a := by
  cases x with
  | error => exact ⟨nofun, nofun⟩
  | ok =>
    constructor <;>
    · intro h
      cases h
      rfl

namespace Source

variable {α : Type} {parse : List (Located Token) → Except ParseError α} {source : String}
  {file : FileId} {result : α} {ts : List Token} {nodes : List Node} {e : Expression}

theorem read_ok_iff : read parse source file = .ok result ↔
    ∃ tokens, tokenize source file = .ok tokens ∧ parse tokens = .ok result := by
  simp only [read, except_bind_ok_iff, except_mapError_ok_iff]

/-- A text that spells tokens is read as they are, wherever they stand. -/
theorem read_of_spelled (h : Spelled source.toList ts) (file : FileId)
    (hp : ∀ tokens, tokens.map Located.value = ts → parse tokens = .ok result) :
    read parse source file = .ok result := by
  obtain ⟨tokens, ht, hv⟩ := tokenize_of_spelled h file
  exact read_ok_iff.mpr ⟨tokens, ht, hp tokens hv⟩

theorem read_program (h : WellFormedProgram nodes) (file : FileId) :
    read Grammar.parseProgram (Printer.program nodes) file = .ok nodes := by
  refine read_of_spelled h.spelled file fun tokens ht => ?_
  rw [parseProgram_ok_iff, ht]
  exact programOf_tokens nodes h

/-- A well-formed program is read back from its printed form. -/
theorem parseProgram_program (h : WellFormedProgram nodes) :
    parseProgram (Printer.program nodes) = .ok nodes := read_program h ⟨0⟩

/-- Names that are empty, a keyword or hold a blank, and a branch without items. -/
theorem parseProgram_program_branches :
    let nodes : List Node :=
      [.definition (.function "if" ⟨true, true⟩ ["", "a b"] (some
        [.statement (.ifElse (.binary .subtract (.var "a") (.step .preDecrement "b"))
          [.statement (.ret (some (.textual "\"\n\\" (some "mm"))))]
          (some (.ifElse (.boolean true) [] (some (.block [])))))])),
      .expression (.call "f" [.positional (.assign .add "x" (.numeric "1.5" none)),
        .named "y" (.unary .minus (.unary .minus (.var "z")))])]
    parseProgram (Printer.program nodes) = .ok nodes :=
  parseProgram_program (by decide)

/-- An expression of any depth is read back from its printed form, all by itself. -/
theorem parseExpression_expression (h : e.WellFormed) :
    parseExpression (Printer.expression e) = .ok e := by
  refine read_of_spelled h.spelled ⟨0⟩ fun tokens ht => ?_
  rw [parseExpression_ok_iff, ht]
  exact e.expressionOf_tokens

/-- Two signs in a row, a number with a unit, and an assignment within a product. -/
theorem parseExpression_expression_signs :
    let e : Expression := .binary .multiply (.unary .minus (.step .preDecrement "a"))
      (.binary .add (.numeric "10" (some "km")) (.assign .assign "while" (.unary .minus
        (.unary .minus (.textual "\t" none)))))
    parseExpression (Printer.expression e) = .ok e :=
  parseExpression_expression (by decide)

end Source

end FrontEnd
