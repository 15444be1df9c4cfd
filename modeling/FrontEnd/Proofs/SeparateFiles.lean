import FrontEnd.CommandLine
import FrontEnd.Proofs.Grammar.Lockstep
import FrontEnd.Proofs.Token.Tokenization

/-! Several files on one command line. The name of a file stands in every location, but nothing
that is written shows it, so that each file is treated as it would be alone. -/
namespace FrontEnd

variable {α β : Type} {file other : FileId} {source : String} {tokens : List (Located Token)}

/-- The same place in another file. -/
def Location.inFile (file : FileId) (location : Location) : Location :=
  { location with file }

/-- The same tokens in another file. -/
def inFile (file : FileId) (tokens : List (Located Token)) : List (Located Token) :=
  tokens.map fun token => ⟨token.value, token.location.inFile file⟩

theorem UnitTokensOf.inFile {text : List Char} {result : Except LexError (List (Located Token))}
    (h : UnitTokensOf file text result) (other : FileId) :
    UnitTokensOf other text (relocated (Location.inFile other) result) := by
  cases h with
  | marked h => exact .marked (h.relocated fun _ _ => rfl)
  | plain hb h => exact .plain hb (h.relocated fun _ _ => rfl)

theorem tokenize_inFile (source : String) (file other : FileId) :
    tokenize source other = relocated (Location.inFile other) (tokenize source file) :=
  tokenize_of_unitTokensOf ((unitTokensOf_tokenize source file).inFile other)

namespace Grammar

/-- The same complaint at the same offset. -/
structure SameOffset (e e' : ParseError) : Prop where
  kind : e.kind = e'.kind
  offset : e.location.offset = e'.location.offset

theorem offset_forward_inFile (tokens : List (Located Token)) (other : FileId) (k : Nat) :
    ((Cursor.ofTokens tokens).forward k).location.offset =
      ((Cursor.ofTokens (inFile other tokens)).forward k).location.offset := by
  rw [Cursor.location_forward_ofTokens, Cursor.location_forward_ofTokens, inFile,
    List.getElem?_map, List.getLast?_map]
  cases tokens[k]? with
  | some token => rfl
  | none => cases tokens.getLast? <;> rfl

/-- The tokens of a file beside the same tokens in another. -/
def twoFiles (tokens : List (Located Token)) (other : FileId) : Tandem where
  first := .ofTokens tokens
  second := .ofTokens (inFile other tokens)
  Alike := SameOffset
  ahead := by simp [inFile]
  reports _ := ⟨rfl, offset_forward_inFile tokens other _⟩
  relabel h name := ⟨ParseError.kind_expecting_eq h.kind name, by simpa using h.offset⟩

theorem comparable_twoFiles : Comparable (twoFiles tokens other) := by
  intro e e' d d' he hd
  have hrank {e e' : ParseError} (h : SameOffset e e') : prominence e = prominence e' := by
    rw [prominence, prominence, h.offset, ParseError.isIllegal, ParseError.isIllegal, h.kind]
  rw [hrank he, hrank hd]

theorem answers_parseProgram (tokens : List (Located Token)) (other : FileId) :
    Answers SameOffset Eq (parseProgram tokens) (parseProgram (inFile other tokens)) :=
  answers_run (T := twoFiles tokens other) (lockstep_program comparable_twoFiles) rfl rfl

end Grammar

namespace Source

open Grammar

/-- The same words at the same position, which is all that is shown of an error. -/
structure ShownAlike (e e' : SourceError) : Prop where
  message : e.message = e'.message
  offset : e.location.offset = e'.location.offset

/-- Both results are values that `R` relates, or errors that are shown alike. -/
inductive AlikeResults (R : α → α → Prop) :
    Except SourceError α → Except SourceError α → Prop
  | ok {v v' : α} (h : R v v') : AlikeResults R (.ok v) (.ok v')
  | error {e e' : SourceError} (h : ShownAlike e e') : AlikeResults R (.error e) (.error e')

theorem AlikeResults.bind_ok {R : α → α → Prop} {x x' : Except SourceError α} {g : α → β}
    (h : AlikeResults R x x') (hg : ∀ {v v'}, R v v' → g v = g v') :
    AlikeResults Eq (x >>= fun v => .ok (g v)) (x' >>= fun v => .ok (g v)) := by
  cases h with
  | ok hv => exact .ok (hg hv)
  | error he => exact .error he

theorem shownAlike_lex (kind : LexErrorKind) (location : Location) (other : FileId) :
    ShownAlike (.lex ⟨kind, location⟩) (.lex ⟨kind, location.inFile other⟩) :=
  ⟨rfl, rfl⟩

theorem shownAlike_parse {e e' : ParseError} (h : SameOffset e e') :
    ShownAlike (.parse e) (.parse e') := by
  refine ⟨?_, h.offset⟩
  simp only [SourceError.message, ParseError.message, Location.describe, h.kind, h.offset]

theorem alikeResults_read {R : α → α → Prop}
    {parse : List (Located Token) → Except ParseError α}
    (hp : ∀ tokens, Answers SameOffset R (parse tokens) (parse (inFile other tokens))) :
    AlikeResults R (read parse source file) (read parse source other) := by
  rw [read, read, tokenize_inFile source file other]
  cases tokenize source file with
  | error e => exact .error (shownAlike_lex e.kind e.location other)
  | ok tokens =>
    change AlikeResults R ((parse tokens).mapError .parse)
      ((parse (inFile other tokens)).mapError .parse)
    match parse tokens, parse (inFile other tokens), hp tokens with
    | _, _, .ok hv => exact .ok hv
    | _, _, .error he => exact .error (shownAlike_parse he)

end Source

namespace CommandLine

open Source Grammar

variable {name : String} {paths : List String}

theorem alikeResults_report (command : Command) (path source : String) (file other : FileId) :
    AlikeResults Eq (report command path source file) (report command path source other) := by
  have hprogram : AlikeResults Eq (read Grammar.parseProgram source file)
      (read Grammar.parseProgram source other) :=
    alikeResults_read fun tokens => answers_parseProgram tokens other
  cases command with
  | tokens =>
    have htokens : AlikeResults (fun tokens tokens' => tokens' = inFile other tokens)
        (read .ok source file) (read .ok source other) :=
      alikeResults_read fun tokens => .ok rfl
    refine htokens.bind_ok ?_
    rintro tokens _ rfl
    rw [inFile, List.map_map]
    rfl
  | ast =>
    refine hprogram.bind_ok ?_
    rintro items _ rfl
    rfl
  | fmt =>
    refine hprogram.bind_ok ?_
    rintro items _ rfl
    rfl
  | check =>
    refine hprogram.bind_ok ?_
    rintro items _ rfl
    rfl

/-- What is written about a file does not show the name it has inside. -/
theorem runFile_file (command : Command) (path : String) (content : Except String ByteArray)
    (file other : FileId) :
    runFile command path content file = runFile command path content other := by
  rw [runFile, runFile]
  cases textOf content with
  | error e => rfl
  | ok source =>
    simp only
    match report command path source file, report command path source other,
      alikeResults_report command path source file other with
    | _, _, .ok rfl => rfl
    | _, _, .error h =>
      simp only [errorLine, Location.position, h.message, h.offset]

theorem exitCode_runFile (command : Command) (path : String) (content : Except String ByteArray)
    (file : FileId) : (runFile command path content file).exitCode = 0 ∨
      (runFile command path content file).exitCode = 1 := by
  rw [runFile]
  split
  · exact Or.inr rfl
  · split
    · exact Or.inl rfl
    · exact Or.inr rfl

/-- Each file is run as if it were the first. -/
theorem runFiles_eq (command : Command) (read : String → Except String ByteArray) (place : Nat)
    (paths : List String) :
    let alone path := runFile command path (read path) ⟨0⟩
    runFiles command read place paths =
      ⟨String.join (paths.map fun path => (alone path).stdout),
        String.join (paths.map fun path => (alone path).stderr),
        if ∃ path ∈ paths, (alone path).exitCode = 1 then 1 else 0⟩ := by
  intro alone
  induction paths generalizing place with
  | nil => rfl
  | cons path paths ih =>
    have hcode : (alone path).exitCode = 0 ∨ (alone path).exitCode = 1 := exitCode_runFile _ _ _ _
    rw [runFiles, ih, runFile_file command path (read path) (fileAt place) ⟨0⟩]
    change (alone path).append _ = _
    simp only [Outcome.append, List.map_cons, String.join_cons, List.mem_cons, exists_eq_or_imp]
    rcases hcode with h | h
    · simp [h]
    · have hle : (if ∃ path ∈ paths, (alone path).exitCode = 1 then 1 else 0) ≤ 1 := by
        split <;> decide
      simp [h, Nat.max_eq_left hle]

/-- What a command does with files, whichever command it is. -/
theorem exists_runWith_eq (hn : name ∈ ["tokens", "ast", "fmt", "check"]) :
    ∃ command, ∀ read paths, paths ≠ [] →
      runWith (name :: paths) read = runFiles command read 0 paths := by
  have hfiles {command : Command} {read : String → Except String ByteArray} {paths : List String}
      (hp : paths ≠ []) : (if paths.isEmpty then ⟨"", "Error: no files specified\n", 2⟩
        else runFiles command read 0 paths) = runFiles command read 0 paths :=
    if_neg (by simpa using hp)
  simp only [List.mem_cons, List.not_mem_nil, or_false] at hn
  rcases hn with rfl | rfl | rfl | rfl
  · exact ⟨.tokens, fun read paths hp => hfiles hp⟩
  · exact ⟨.ast, fun read paths hp => hfiles hp⟩
  · exact ⟨.fmt, fun read paths hp => hfiles hp⟩
  · exact ⟨.check, fun read paths hp => hfiles hp⟩

/-- A run on several files writes what the runs on each of them write, one after the other, and
fails if one of them does. -/
theorem runWith_files (hn : name ∈ ["tokens", "ast", "fmt", "check"]) (hp : paths ≠ [])
    (read : String → Except String ByteArray) :
    runWith (name :: paths) read =
      ⟨String.join (paths.map fun path => (runWith [name, path] read).stdout),
        String.join (paths.map fun path => (runWith [name, path] read).stderr),
        if ∃ path ∈ paths, (runWith [name, path] read).exitCode = 1 then 1 else 0⟩ := by
  obtain ⟨command, hrun⟩ := exists_runWith_eq hn
  have halone (path : String) :
      runWith [name, path] read = runFile command path (read path) ⟨0⟩ := by
    rw [hrun read [path] (List.cons_ne_nil path [])]
    simp [runFiles, Outcome.append, fileAt]
  rw [hrun read paths hp, runFiles_eq]
  simp only [halone]

/-- A file that the system refuses, before and behind one that is read. -/
theorem runWith_files_refused :
    let refused := "Permission denied (os error 13)"
    let read path := if path = "a" then .ok "x;".toUTF8 else .error refused
    runWith ["check", "b", "a", "b"] read =
      ⟨"", "b: " ++ refused ++ "\na: valid (1 top-level item(s))\nb: " ++ refused ++ "\n", 1⟩ := by
  intro refused read
  have ha : runWith ["check", "a"] read = ⟨"", "a: valid (1 top-level item(s))\n", 0⟩ := by
    decide +kernel
  have hb : runWith ["check", "b"] read = ⟨"", "b: " ++ refused ++ "\n", 1⟩ := by
    decide +kernel
  rw [runWith_files (by decide) (by decide)]
  simp only [List.map_cons, List.map_nil, List.mem_cons, exists_eq_or_imp, ha, hb]
  rfl

end CommandLine

end FrontEnd
