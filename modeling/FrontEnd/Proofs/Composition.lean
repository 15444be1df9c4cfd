import FrontEnd.Proofs.RoundTrip
import FrontEnd.Proofs.Token.Seam
import FrontEnd.Syntax.Equality
import Mathlib.Control.Monad.Basic

/-! Programs one after the other, on lines of their own, are one program. -/
namespace FrontEnd

namespace Grammar

variable {ts us : List Token} {items nodes : List Node}

/-- Without an expression at its end, a program is nothing but items. -/
theorem ProgramOf.itemsOf (h : ProgramOf ts nodes)
    (hn : ∀ e, nodes.getLast? ≠ some (.expression e)) : ItemsOf ts nodes := by
  cases h with
  | items hi => exact hi
  | @tail _ _ _ e _ _ => exact (hn e (by simp)).elim

theorem ItemsOf.append_program (h' : ProgramOf us nodes) :
    {ts : List Token} → {items : List Node} → ItemsOf ts items → ProgramOf (ts ++ us) (items ++ nodes)
  | _, _, .nil => h'
  | _, _, .cons hi his => by
    rw [List.append_assoc]
    exact .cons hi (his.append_program h')

end Grammar

open Grammar

variable {first second : String} {nodes nodes' : List Node}

/-- The items of one source and the program of another make up the program of both, with a line
feed between them. -/
theorem Source.parseProgram_append (h : parseProgram first = .ok nodes)
    (hn : ∀ e, nodes.getLast? ≠ some (.expression e))
    (hb : second.toList.head? ≠ some '\uFEFF') (h' : parseProgram second = .ok nodes') :
    parseProgram (first ++ "\n" ++ second) = .ok (nodes ++ nodes') := by
  obtain ⟨tokens, ht, hp⟩ := read_ok_iff.mp h
  obtain ⟨tokens', ht', hp'⟩ := read_ok_iff.mp h'
  have hu := unitTokensOf_tokenize first ⟨0⟩
  have hu' := unitTokensOf_tokenize second ⟨0⟩
  rw [ht] at hu
  rw [ht'] at hu'
  have hall := hu.append_newline hb hu'
  have htext : (first ++ "\n" ++ second).toList = first.toList ++ '\n' :: second.toList := by simp
  refine read_ok_iff.mpr ⟨_, tokenize_of_unitTokensOf (htext ▸ hall), ?_⟩
  have hitems := (parseProgram_ok_iff.mp hp).itemsOf hn
  have hprogram := hitems.append_program (parseProgram_ok_iff.mp hp')
  rw [parseProgram_ok_iff]
  simpa [Function.comp_def] using hprogram

/-- A branch at the end of the first source and a number at the end of the second. -/
theorem Source.parseProgram_append_branch :
    parseProgram ("if (a) \x7b\x7d // b" ++ "\n" ++ "-1") =
      .ok [.statement (.ifElse (.var "a") [] none),
        .expression (.unary .minus (.numeric "1" none))] := by
  have h : parseProgram "if (a) \x7b\x7d // b" =
      .ok [.statement (.ifElse (.var "a") [] none)] := by decide +kernel
  have h' : parseProgram "-1" = .ok [.expression (.unary .minus (.numeric "1" none))] := by
    decide +kernel
  exact parseProgram_append h (by simp) (by decide) h'

end FrontEnd
