import FrontEnd.CommandLine
import FrontEnd.Proofs.Grammar.Image
import FrontEnd.Proofs.RoundTrip

/-! Formatting a source that parses: what it keeps, and that it settles after one round. -/
namespace FrontEnd

open Grammar

variable {source : String} {file : FileId} {nodes : List Node}

theorem programOf_of_read (h : Source.read Grammar.parseProgram source file = .ok nodes) :
    ∃ tokens, tokenize source file = .ok tokens ∧ ProgramOf (tokens.map Located.value) nodes := by
  obtain ⟨tokens, ht, hp⟩ := Source.read_ok_iff.mp h
  exact ⟨tokens, ht, parseProgram_ok_iff.mp hp⟩

theorem wellFormed_of_read (h : Source.read Grammar.parseProgram source file = .ok nodes) :
    WellFormedProgram nodes := by
  obtain ⟨tokens, ht, hp⟩ := programOf_of_read h
  exact hp.wellFormed (legible_of_tokenize ht)

/-- A source with parentheses around a name, a comma behind the last parameter, and the modifiers
in the other order. -/
theorem parseProgram_swapped : Source.parseProgram "inline export fn f(a,)\x7b(a);\x7d" =
    .ok [.definition (.function "f" ⟨true, true⟩ ["a"]
      (some [.statement (.expression (.var "a"))]))] := by
  have ha : Printer.name "a" = "a" := by decide
  have hf : Printer.name "f" = "f" := by decide
  have hbody := (Spelled.nil.closeBrace.semicolon.closeParen.identifier
    (show IsName "a" by decide) (.closeParen _)).openParen.openBrace
  have hlist := (hbody.closeParen.comma.identifier
    (show IsName "a" by decide) (.comma _)).openParen
  have hname := hlist.identifier (show IsName "f" by decide) (.openParen _)
  have hwords := ((hname.space.keyword .fnWord (.blank _)).space.keyword .exportWord
    (.blank _)).space.keyword .inlineWord (.blank _)
  have hs : Spelled "inline export fn f(a,)\x7b(a);\x7d".toList
      [.keyword .inlineWord, .keyword .exportWord, .keyword .fnWord, .identifier "f",
        .delimiter .openParen, .identifier "a", .delimiter .comma, .delimiter .closeParen,
        .delimiter .openBrace, .delimiter .openParen, .identifier "a", .delimiter .closeParen,
        .delimiter .semicolon, .delimiter .closeBrace] := by
    simpa [Keyword.text, ha, hf] using hwords
  refine Source.read_of_spelled hs ⟨0⟩ fun tokens ht => ?_
  have hgroup := ExpressionOf.chain (.leaf (.group (Expression.var "a").expressionOf_tokens))
    .nil rfl
  have hitem := StatementOf.expression hgroup
  rw [parseProgram_ok_iff, ht]
  exact .items (.cons (.definition (.function "f" .swapped (.cons rfl .nil)
    (.block (.braced (.cons (.statement hitem) .nil))))) .nil)

/-- Formatting keeps every token of the source in its place, but for grouping and the order of two
modifiers. -/
theorem skeleton_tokenize_program (h : Source.parseProgram source = .ok nodes) (file : FileId) :
    ∃ tokens formatted, tokenize source ⟨0⟩ = .ok tokens ∧
      tokenize (Printer.program nodes) file = .ok formatted ∧
      skeleton (formatted.map Located.value) = skeleton (tokens.map Located.value) := by
  obtain ⟨tokens, ht, hp⟩ := programOf_of_read h
  have hw := wellFormed_of_read h
  obtain ⟨formatted, hf, hv⟩ := tokenize_of_spelled hw.spelled file
  refine ⟨tokens, formatted, ht, hf, ?_⟩
  calc skeleton (formatted.map Located.value)
      = skeleton (Node.listTokens nodes) := by rw [hv]
    _ = ungrouped (Node.listTokens nodes) := (programOf_tokens nodes hw).keeps.skeleton_eq
    _ = skeleton (tokens.map Located.value) := hp.keeps.skeleton_eq.symm

/-- The parentheses and the comma are gone, and `export` and `inline` have changed places. -/
theorem skeleton_tokenize_swapped :
    let nodes : List Node := [.definition (.function "f" ⟨true, true⟩ ["a"]
      (some [.statement (.expression (.var "a"))]))]
    let place (file offset length : Nat) : Location := ⟨⟨file⟩, offset, length⟩
    let tokens : List (Located Token) := [⟨.keyword .inlineWord, place 0 0 6⟩,
      ⟨.keyword .exportWord, place 0 7 6⟩, ⟨.keyword .fnWord, place 0 14 2⟩,
      ⟨.identifier "f", place 0 17 1⟩, ⟨.delimiter .openParen, place 0 18 1⟩,
      ⟨.identifier "a", place 0 19 1⟩, ⟨.delimiter .comma, place 0 20 1⟩,
      ⟨.delimiter .closeParen, place 0 21 1⟩, ⟨.delimiter .openBrace, place 0 22 1⟩,
      ⟨.delimiter .openParen, place 0 23 1⟩, ⟨.identifier "a", place 0 24 1⟩,
      ⟨.delimiter .closeParen, place 0 25 1⟩, ⟨.delimiter .semicolon, place 0 26 1⟩,
      ⟨.delimiter .closeBrace, place 0 27 1⟩]
    let formatted : List (Located Token) := [⟨.keyword .exportWord, place 1 0 6⟩,
      ⟨.keyword .inlineWord, place 1 7 6⟩, ⟨.keyword .fnWord, place 1 14 2⟩,
      ⟨.identifier "f", place 1 17 1⟩, ⟨.delimiter .openParen, place 1 18 1⟩,
      ⟨.identifier "a", place 1 19 1⟩, ⟨.delimiter .closeParen, place 1 20 1⟩,
      ⟨.delimiter .openBrace, place 1 22 1⟩, ⟨.identifier "a", place 1 28 1⟩,
      ⟨.delimiter .semicolon, place 1 29 1⟩, ⟨.delimiter .closeBrace, place 1 31 1⟩]
    tokenize "inline export fn f(a,)\x7b(a);\x7d" ⟨0⟩ = .ok tokens ∧
      Printer.program nodes = "export inline fn f(a) \x7b\n    a;\n\x7d\n" ∧
      tokenize (Printer.program nodes) ⟨1⟩ = .ok formatted ∧
      skeleton (formatted.map Located.value) = skeleton (tokens.map Located.value) := by
  intro nodes place tokens formatted
  have ht : tokenize "inline export fn f(a,)\x7b(a);\x7d" ⟨0⟩ = .ok tokens := rfl
  have hp : Printer.program nodes = "export inline fn f(a) \x7b\n    a;\n\x7d\n" := rfl
  have hf : tokenize (Printer.program nodes) ⟨1⟩ = .ok formatted := by
    rw [hp]
    rfl
  obtain ⟨tokens', formatted', ht', hf', hs⟩ := skeleton_tokenize_program parseProgram_swapped ⟨1⟩
  cases ht.symm.trans ht'
  cases hf.symm.trans hf'
  exact ⟨ht, hp, hf, hs⟩

namespace CommandLine

theorem textOf_toUTF8 (text : String) : textOf (.ok text.toUTF8) = .ok text := by
  have ht : String.fromUTF8? text.toUTF8 = some text := dif_pos text.isValidUTF8
  simp only [textOf, ht]

/-- What `fmt` writes about a file with a program in it. -/
theorem run_fmt (h : Source.parseProgram source = .ok nodes) {path : String}
    {read : String → Option ByteArray} (hr : read path = some source.toUTF8) :
    run ["fmt", path] read = ⟨Printer.program nodes, "", 0⟩ := by
  have hp : report .fmt path source ⟨0⟩ = .ok (Printer.program nodes, "") :=
    except_bind_ok_iff.mpr ⟨nodes, h, rfl⟩
  have hf : runFile .fmt path (.ok source.toUTF8) ⟨0⟩ = ⟨Printer.program nodes, "", 0⟩ := by
    simp only [runFile, textOf_toUTF8, hp]
  change (runFile .fmt path ((read path).elim (.error missing) .ok) ⟨0⟩).append ⟨"", "", 0⟩ = _
  rw [hr, Option.elim_some, hf]
  simp [Outcome.append]

/-- Whatever parses is well formed, so its formatted text parses as the same program, and formatting
that text gives it again. -/
theorem fmt_fmt (h : Source.parseProgram source = .ok nodes) :
    WellFormedProgram nodes ∧ Source.parseProgram (Printer.program nodes) = .ok nodes ∧
      ∀ path read, read path = some source.toUTF8 →
        run ["fmt", path] read = ⟨Printer.program nodes, "", 0⟩ ∧
        ∀ path' read', read' path' = some (run ["fmt", path] read).stdout.toUTF8 →
          run ["fmt", path'] read' = run ["fmt", path] read := by
  have hw := wellFormed_of_read h
  have hp : Source.parseProgram (Printer.program nodes) = .ok nodes := Source.read_program hw ⟨0⟩
  refine ⟨hw, hp, fun path read hr => ⟨run_fmt h hr, fun path' read' hr' => ?_⟩⟩
  rw [run_fmt h hr] at hr' ⊢
  exact run_fmt hp hr'

/-- What is printed once is printed again. -/
theorem fmt_fmt_swapped :
    let source := "inline export fn f(a,)\x7b(a);\x7d"
    let printed := "export inline fn f(a) \x7b\n    a;\n\x7d\n"
    let nodes : List Node := [.definition (.function "f" ⟨true, true⟩ ["a"]
      (some [.statement (.expression (.var "a"))]))]
    WellFormedProgram nodes ∧ Source.parseProgram printed = .ok nodes ∧
      run ["fmt", "a.src"] (fun _ => some source.toUTF8) = ⟨printed, "", 0⟩ ∧
      run ["fmt", "a.src"] (fun _ => some printed.toUTF8) = ⟨printed, "", 0⟩ := by
  intro source printed nodes
  have h : Source.parseProgram source = .ok nodes := parseProgram_swapped
  have hp : Printer.program nodes = printed := rfl
  obtain ⟨hw, hparse, hrun⟩ := fmt_fmt h
  rw [hp] at hparse hrun
  obtain ⟨honce, htwice⟩ := hrun "a.src" (fun _ => some source.toUTF8) rfl
  rw [honce] at htwice
  exact ⟨hw, hparse, honce, htwice "a.src" (fun _ => some printed.toUTF8) rfl⟩

end CommandLine

end FrontEnd
