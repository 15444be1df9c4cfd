import FrontEnd.Proofs.Printer.Skeleton
import FrontEnd.Proofs.Syntax.WellFormed

/-! What is read from tokens that have a spelling is well formed. -/
namespace FrontEnd

open Printer

variable {ts us : List Token}

theorem legible_of_ungrouped_eq (h : ungrouped ts = ungrouped us) (ht : ∀ t ∈ ts, t.Legible) :
    ∀ t ∈ ungrouped us, t.Legible := by
  intro t hm
  rw [← h] at hm
  exact ht t (mem_of_mem_ungrouped hm)

mutual

theorem Expression.wellFormed_of_legible :
    (e : Expression) → (∀ t ∈ ungrouped e.tokens, t.Legible) → e.WellFormed
  | .boolean _, _ => trivial
  | .numeric value unit, h => h (.numeric value unit) (by simp [Expression.tokens])
  | .textual value unit, h => h (.textual value unit) (by simp [Expression.tokens])
  | .var name, h => h (.identifier name) (by simp [Expression.tokens])
  | .call function arguments, h => by
    simp only [Expression.tokens, ungrouped_identifier, ungrouped_openParen, ungrouped_append,
      ungrouped_listed, ungrouped_closeParen, ungrouped_nil, List.append_nil,
      List.forall_mem_cons] at h
    exact ⟨h.1, Argument.wellFormed_of_legible_list arguments h.2⟩
  | .unary op operand, h => by
    simp only [Expression.tokens, ungrouped_operator, ungrouped_grouped, List.forall_mem_cons] at h
    exact operand.wellFormed_of_legible h.2
  | .step op target, h => by
    apply h (.identifier target)
    cases hp : op.isPre <;> simp [Expression.tokens, hp]
  | .binary op left right, h => by
    simp only [Expression.tokens, ungrouped_append, ungrouped_operator, ungrouped_grouped,
      List.forall_mem_append, List.forall_mem_cons] at h
    exact ⟨left.wellFormed_of_legible h.1, right.wellFormed_of_legible h.2.2⟩
  | .assign op target value, h => by
    simp only [Expression.tokens, ungrouped_identifier, ungrouped_operator, ungrouped_grouped,
      List.forall_mem_cons] at h
    exact ⟨h.1, value.wellFormed_of_legible h.2.2⟩

theorem Argument.wellFormed_of_legible :
    (a : Argument) → (∀ t ∈ ungrouped a.tokens, t.Legible) → a.WellFormed
  | .positional value, h => by
    rw [Argument.tokens, ungrouped_grouped] at h
    exact value.wellFormed_of_legible h
  | .named name value, h => by
    simp only [Argument.tokens, ungrouped_identifier, ungrouped_operator,
      List.forall_mem_cons] at h
    exact ⟨h.1, value.wellFormed_of_legible h.2.2⟩

theorem Argument.wellFormed_of_legible_list : (as : List Argument) →
    (∀ t ∈ (Argument.listTokens as).flatMap ungrouped, t.Legible) → Argument.AllWellFormed as
  | [], _ => trivial
  | a :: as, h => by
    rw [Argument.listTokens, List.flatMap_cons, List.forall_mem_append] at h
    exact ⟨a.wellFormed_of_legible h.1, Argument.wellFormed_of_legible_list as h.2⟩

end

namespace Grammar

theorem ExpressionOf.wellFormed {e : Expression} (h : ExpressionOf ts e)
    (ht : ∀ t ∈ ts, t.Legible) : e.WellFormed :=
  e.wellFormed_of_legible (legible_of_ungrouped_eq h.ungrouped_eq ht)

theorem ConditionOf.wellFormed {e : Expression} :
    ConditionOf ts e → (∀ t ∈ ts, t.Legible) → e.WellFormed
  | .parenthesized he, ht => by
    simp only [List.forall_mem_cons, List.forall_mem_append] at ht
    exact he.wellFormed ht.2.1

theorem Listed.isName {names : List String} (h : Listed ParameterOf ts names)
    (ht : ∀ t ∈ ts, t.Legible) : ∀ name ∈ names, IsName name := by
  intro name hm
  refine ht (.identifier name) (mem_of_mem_ungrouped ?_)
  rw [h.ungrouped_eq]
  exact List.mem_map_of_mem hm

mutual

theorem ItemsOf.wellFormed {ts : List Token} {items : List Node} :
    ItemsOf ts items → (∀ t ∈ ts, t.Legible) → Node.AllWellFormed items
  | .nil, _ => trivial
  | .cons hi his, ht => by
    rw [List.forall_mem_append] at ht
    exact ⟨hi.wellFormed ht.1, his.wellFormed ht.2⟩

theorem ItemOf.wellFormed {ts : List Token} {item : Node} :
    ItemOf ts item → (∀ t ∈ ts, t.Legible) → item.WellFormed
  | .definition hd, ht => hd.wellFormed ht
  | .statement hs, ht => hs.wellFormed ht

theorem BlockOf.wellFormed {ts : List Token} {items : List Node} :
    BlockOf ts items → (∀ t ∈ ts, t.Legible) → Node.AllWellFormed items
  | .braced hi, ht => by
    simp only [List.forall_mem_cons, List.forall_mem_append] at ht
    exact hi.wellFormed ht.2.1

theorem StatementOf.wellFormed {ts : List Token} {s : Statement} :
    StatementOf ts s → (∀ t ∈ ts, t.Legible) → s.WellFormed
  | .block hb, ht => hb.wellFormed ht
  | .ifElse hs, ht => (hs.wellFormed ht).2
  | .whileLoop hc hb, ht => by
    simp only [List.forall_mem_cons, List.forall_mem_append] at ht
    exact ⟨hc.wellFormed ht.2.1, hb.wellFormed ht.2.2⟩
  | .ret, _ => trivial
  | .retValue he, ht => by
    simp only [List.forall_mem_cons, List.forall_mem_append] at ht
    exact he.wellFormed ht.2.1
  | .expression he, ht => by
    rw [List.forall_mem_append] at ht
    exact he.wellFormed ht.1

theorem IfOf.wellFormed {ts : List Token} {s : Statement} :
    IfOf ts s → (∀ t ∈ ts, t.Legible) → s.IsBranch ∧ s.WellFormed
  | .plain hc hb, ht => by
    simp only [List.forall_mem_cons, List.forall_mem_append] at ht
    exact ⟨trivial, hc.wellFormed ht.2.1, hb.wellFormed ht.2.2⟩
  | .withElse hc hb ho, ht => by
    simp only [List.forall_mem_cons, List.forall_mem_append] at ht
    exact ⟨trivial, hc.wellFormed ht.2.1, hb.wellFormed ht.2.2.1, ho.wellFormed ht.2.2.2.2⟩

theorem ElseOf.wellFormed {ts : List Token} {s : Statement} :
    ElseOf ts s → (∀ t ∈ ts, t.Legible) → s.IsBranch ∧ s.WellFormed
  | .nested hs, ht => hs.wellFormed ht
  | .block hb, ht => ⟨trivial, hb.wellFormed ht⟩

theorem DefinitionOf.wellFormed {ts : List Token} {d : Definition} :
    DefinitionOf ts d → (∀ t ∈ ts, t.Legible) → d.WellFormed
  | .var name, ht => ht (.identifier name) (by simp)
  | .varValue name he, ht => by
    simp only [List.forall_mem_cons, List.forall_mem_append] at ht
    exact ⟨ht.2.1, he.wellFormed ht.2.2.2.1⟩
  | .function name hm hp .forward, ht => by
    simp only [List.forall_mem_cons, List.forall_mem_append] at ht
    exact ⟨ht.2.2.1, hp.isName ht.2.2.2.2.1⟩
  | .function name hm hp (.block hb), ht => by
    simp only [List.forall_mem_cons, List.forall_mem_append] at ht
    exact ⟨ht.2.2.1, hp.isName ht.2.2.2.2.1, hb.wellFormed ht.2.2.2.2.2.2⟩

end

theorem ProgramOf.wellFormed {nodes : List Node} (h : ProgramOf ts nodes)
    (ht : ∀ t ∈ ts, t.Legible) : WellFormedProgram nodes := by
  cases h with
  | items hi =>
    have hn : WellFormedProgram [] := trivial
    simpa using WellFormedProgram.append (hi.wellFormed ht) hn
  | tail hi he =>
    rw [List.forall_mem_append] at ht
    exact WellFormedProgram.append (hi.wellFormed ht.1) (he.wellFormed ht.2)

end Grammar

end FrontEnd
