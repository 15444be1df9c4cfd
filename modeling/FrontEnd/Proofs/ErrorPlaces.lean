import FrontEnd.Proofs.Grammar.Lockstep
import FrontEnd.Proofs.Token.Tiling
import FrontEnd.Source
import FrontEnd.Syntax.Equality

/-! What an error says, and where it says it. A failed parse names a token of the source at the
place of that token, or the end of the tokens; a text without tokens is cut where it cannot go
on. -/
namespace FrontEnd

variable {file : FileId} {source : String} {tokens : List (Located Token)} {text before : List Char}
  {offset : Nat}

/-! The places of lexical errors. -/

theorem ComplaintOf.exists_part {input : List Char} {kind : LexErrorKind} {size : Nat}
    (h : ComplaintOf input kind size) : ∃ part rest, input = part ++ rest ∧
      Text.byteSize part = size := by
  cases h with
  | text rest => exact ⟨'"' :: rest, [], by simp, rfl⟩
  | name rest => exact ⟨'\x60' :: rest, [], by simp, rfl⟩
  | @character c rest => exact ⟨[c], rest, rfl, rfl⟩

theorem TokensOf.isBoundary_of_error {result : Except LexError (List (Located Token))}
    {error : LexError} (h : TokensOf file offset text result) (hr : result = .error error)
    (before : List Char) (hb : Text.byteSize before = offset) :
    Text.IsBoundary (before ++ text) error.location.offset ∧
      Text.IsBoundary (before ++ text) error.location.endOffset := by
  induction h generalizing before with
  | stop => cases hr
  | @token offset skipped part rest t result _ _ _ ih =>
    cases result with
    | ok => cases hr
    | error =>
      cases hr
      subst hb
      have hrest := ih rfl (before ++ (skipped ++ part)) (by simp [Nat.add_assoc])
      simpa only [List.append_assoc] using hrest
  | @stuck offset size skipped input kind _ _ hc =>
    cases hr
    subst hb
    obtain ⟨part, rest, rfl, rfl⟩ := hc.exists_part
    have hcut := Text.cuts_append (before ++ skipped) part rest
    rw [List.append_assoc, Text.byteSize_append] at hcut
    exact hcut.isBoundary

theorem UnitTokensOf.isBoundary_of_error {error : LexError}
    (h : UnitTokensOf file text (.error error)) : Text.IsBoundary text error.location.offset ∧
      Text.IsBoundary text error.location.endOffset := by
  cases h with
  | marked ht => exact ht.isBoundary_of_error rfl ['\uFEFF'] rfl
  | plain _ ht => exact ht.isBoundary_of_error rfl [] rfl

namespace Grammar

/-- The error is about a token and stands where the token does, or it says that the tokens ended
and stands just past the last of them. -/
inductive Truthful (tokens : List (Located Token)) : ParseError → Prop
  | about {t : Token} {location : Location} {kind : ParseErrorKind} (h : ⟨t, location⟩ ∈ tokens)
      (hb : Blames (some t) kind) : Truthful tokens ⟨kind, location⟩
  | pastEnd {last : Located Token} (h : tokens.getLast? = some last) (expected : String) :
      Truthful tokens ⟨.endOfStream expected, last.location.after⟩
  | empty (h : tokens = []) (expected : String) :
      Truthful tokens ⟨.endOfStream expected, .origin⟩

theorem truthful_of_blames {k : Nat} {kind : ParseErrorKind}
    (h : Blames (Cursor.ofTokens tokens).ahead[k]? kind) :
    Truthful tokens ⟨kind, ((Cursor.ofTokens tokens).forward k).location⟩ := by
  rw [Cursor.ahead_ofTokens, List.getElem?_map] at h
  rw [Cursor.location_forward_ofTokens]
  cases ht : tokens[k]? with
  | some token =>
    rw [ht] at h
    exact .about (List.mem_of_getElem? ht) h
  | none =>
    rw [ht] at h
    cases h with
    | ended expected =>
      cases hl : tokens.getLast? with
      | some last => exact .pastEnd hl expected
      | none => exact .empty (List.getLast?_eq_none_iff.mp hl) expected

theorem Truthful.expecting {e : ParseError} (h : Truthful tokens e) (name : String) :
    Truthful tokens (e.expecting name) := by
  cases h with
  | about ht hb =>
    cases hb with
    | unexpected => exact .about ht (.unexpected name _)
    | trailing => exact .about ht (.trailing _)
    | illegal hop construct => exact .about ht (.illegal hop construct)
  | pastEnd hl => exact .pastEnd hl name
  | empty hn => exact .empty hn name

/-- A run beside itself. -/
def echo (tokens : List (Located Token)) : Tandem where
  first := .ofTokens tokens
  second := .ofTokens tokens
  Alike e e' := e = e' ∧ Truthful tokens e
  ahead := rfl
  reports h := ⟨rfl, truthful_of_blames h⟩
  relabel h name := ⟨congrArg _ h.1, h.2.expecting name⟩

theorem comparable_echo : Comparable (echo tokens) := by
  rintro e _ d _ ⟨rfl, -⟩ ⟨rfl, -⟩
  rfl

theorem truthful_of_run {α : Type} {p : Parser α} {e : ParseError}
    (h : (echo tokens).Lockstep Eq p p) (he : run p tokens = .error e) : Truthful tokens e := by
  have ha := answers_run h rfl rfl
  rw [he] at ha
  cases ha with
  | error ht => exact ht.2

theorem Truthful.isBoundary {start : Nat} {e : ParseError} (h : Truthful tokens e)
    (ht : Tiles file text start tokens) :
    Text.IsBoundary text e.location.offset ∧ Text.IsBoundary text e.location.endOffset := by
  cases h with
  | about hm => exact ht.boundaries _ hm
  | pastEnd hl =>
    have hend := (ht.boundaries _ (List.mem_of_getLast? hl)).2
    exact ⟨hend, hend⟩
  | empty => exact ⟨Text.isBoundary_zero text, Text.isBoundary_zero text⟩

end Grammar

namespace Source

open Grammar

variable {α : Type} {parse : List (Located Token) → Except ParseError α} {error : SourceError}

theorem read_error_iff : read parse source file = .error error ↔
    (∃ e, tokenize source file = .error e ∧ error = .lex e) ∨
      ∃ tokens e, tokenize source file = .ok tokens ∧ parse tokens = .error e ∧
        error = .parse e := by
  rw [read]
  cases ht : tokenize source file with
  | error e => simp [Except.mapError, bind, Except.bind, eq_comm]
  | ok tokens =>
    cases hp : parse tokens <;> simp [Except.mapError, bind, Except.bind, hp, eq_comm]

/-- What is true of an error of `source`: a parse error is about the tokens of the source, and the
place of every error can be cut out of the source, so that its line and column are found by going
up to it. -/
structure Faithful (source : String) (file : FileId) (error : SourceError) : Prop where
  truthful : ∀ e, error = .parse e →
    ∃ tokens, tokenize source file = .ok tokens ∧ Truthful tokens e
  boundaries : Text.IsBoundary source.toList error.location.offset ∧
    Text.IsBoundary source.toList error.location.endOffset
  position : ∃ before, before <+: source.toList ∧ Text.byteSize before = error.location.offset ∧
    error.location.position source = Text.positionAfter before

theorem faithful_of_read (hp : ∀ tokens e, parse tokens = .error e → Truthful tokens e)
    (h : read parse source file = .error error) : Faithful source file error := by
  have hb : Text.IsBoundary source.toList error.location.offset ∧
      Text.IsBoundary source.toList error.location.endOffset := by
    obtain ⟨e, ht, rfl⟩ | ⟨tokens, e, ht, he, rfl⟩ := read_error_iff.mp h
    · exact (ht ▸ unitTokensOf_tokenize source file).isBoundary_of_error
    · exact (hp tokens e he).isBoundary (ht ▸ unitTokensOf_tokenize source file).tiles
  refine ⟨?_, hb, hb.1.exists_positionAt⟩
  rintro e rfl
  obtain ⟨_, _, ⟨⟩⟩ | ⟨tokens, _, ht, he, ⟨⟩⟩ := read_error_iff.mp h
  exact ⟨tokens, ht, hp tokens e he⟩

/-- Whatever is wrong with a source, the error tells the truth about it. -/
theorem read_faithful (source : String) (file : FileId) :
    (∀ error, read Grammar.parseProgram source file = .error error →
      Faithful source file error) ∧
    ∀ error, read Grammar.parseExpression source file = .error error →
      Faithful source file error := by
  constructor
  · intro error
    exact faithful_of_read fun _ _ => truthful_of_run (lockstep_program comparable_echo)
  · intro error
    exact faithful_of_read fun _ _ => truthful_of_run (lockstep_expression.thenSkip .endOfInput)

/-- The assignment stands behind a character of two bytes. -/
theorem read_faithful_negated :
    let error : SourceError :=
      .parse ⟨.illegalConstruct "'=' requires a variable on its left", ⟨⟨0⟩, 4, 1⟩⟩
    parseProgram "-é = 1;" = .error error ∧ Faithful "-é = 1;" ⟨0⟩ error := by
  intro error
  have h : parseProgram "-é = 1;" = .error error := by decide +kernel
  exact ⟨h, (read_faithful "-é = 1;" ⟨0⟩).1 error h⟩

end Source

end FrontEnd
