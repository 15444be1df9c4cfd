import FrontEnd.Proofs.Token.MaximalMunch

/-! A source unit as blanks, comments and tokens, and that the tokenizer finds the one way to see it
so. One step of the stream is one token of the unit; the run follows by induction on the unit. -/
namespace FrontEnd

/-- The blanks and comments in front of a text that starts with neither. A comment goes on to the
end of its line. -/
inductive TriviaOf : List Char → List Char → Prop
  | done {rest : List Char} (hw : NotNext Unicode.isWhitespace rest)
      (hc : ¬ ['/', '/'] <+: rest) : TriviaOf [] rest
  | blank {c : Char} {skipped rest : List Char} (hc : Unicode.isWhitespace c = true)
      (h : TriviaOf skipped rest) : TriviaOf (c :: skipped) rest
  | comment {line skipped rest : List Char} (hl : '\n' ∉ line)
      (hn : ∀ c ∈ (skipped ++ rest).head?, c = '\n') (h : TriviaOf skipped rest) :
      TriviaOf ('/' :: '/' :: (line ++ skipped)) rest

/-- The tokens of a text that starts at a byte offset of its file, or the error where they end. -/
inductive TokensOf (file : FileId) :
    Nat → List Char → Except LexError (List (Located Token)) → Prop
  | stop {offset : Nat} {skipped : List Char} (hs : TriviaOf skipped []) :
      TokensOf file offset skipped (.ok [])
  | token {offset : Nat} {skipped text rest : List Char} {t : Token}
      {result : Except LexError (List (Located Token))} (hs : TriviaOf skipped (text ++ rest))
      (hl : Longest (text ++ rest) text t)
      (h : TokensOf file (offset + Text.byteSize skipped + Text.byteSize text) rest result) :
      TokensOf file offset (skipped ++ (text ++ rest)) (result.map
        (⟨t, ⟨file, offset + Text.byteSize skipped, Text.byteSize text⟩⟩ :: ·))
  | stuck {offset size : Nat} {skipped input : List Char} {kind : LexErrorKind}
      (hs : TriviaOf skipped input) (hn : Stuck input) (hc : ComplaintOf input kind size) :
      TokensOf file offset (skipped ++ input)
        (.error ⟨kind, ⟨file, offset + Text.byteSize skipped, size⟩⟩)

/-- The tokens of a whole source unit. A byte order mark at its start takes three bytes and is not
part of the text. -/
inductive UnitTokensOf (file : FileId) :
    List Char → Except LexError (List (Located Token)) → Prop
  | marked {text : List Char} {result : Except LexError (List (Located Token))}
      (h : TokensOf file 3 text result) : UnitTokensOf file ('\uFEFF' :: text) result
  | plain {text : List Char} {result : Except LexError (List (Located Token))}
      (hb : text.head? ≠ some '\uFEFF') (h : TokensOf file 0 text result) :
      UnitTokensOf file text result

/-! The lexical grammar covers every text. -/

theorem exists_triviaOf (text : List Char) :
    ∃ skipped rest, text = skipped ++ rest ∧ TriviaOf skipped rest := by
  induction h : text.length using Nat.strongRecOn generalizing text with
  | ind n ih =>
    subst h
    by_cases hc : ['/', '/'] <+: text
    · -- The rest of the line belongs to the comment, and trivia may go on behind it.
      obtain ⟨more, rfl⟩ := hc
      have hlt : (more.dropWhile (· ≠ '\n')).length < (['/', '/'] ++ more).length := by
        have := (List.dropWhile_suffix (l := more) (· ≠ '\n')).length_le
        simp only [List.length_append, List.length_cons, List.length_nil]
        omega
      obtain ⟨skipped, rest, hs, ht⟩ := ih _ hlt _ rfl
      refine ⟨'/' :: '/' :: (more.takeWhile (· ≠ '\n') ++ skipped), rest, ?_, .comment ?_ ?_ ht⟩
      · simp [← hs]
      · intro hm
        simpa using Lexeme.of_mem_takeWhile hm
      · intro c hm
        simpa using notNext_dropWhile (· ≠ '\n') more c (hs ▸ hm)
    · cases text with
      | nil => exact ⟨[], [], rfl, .done (by simp [NotNext]) hc⟩
      | cons c text =>
        cases hw : Unicode.isWhitespace c with
        | true =>
          obtain ⟨skipped, rest, rfl, ht⟩ := ih _ (Nat.lt_succ_self text.length) text rfl
          exact ⟨c :: skipped, rest, rfl, .blank hw ht⟩
        | false => exact ⟨[], c :: text, rfl, .done (by rintro d ⟨⟩; exact hw) hc⟩

theorem exists_complaintOf (c : Char) (rest : List Char) :
    ∃ kind size, ComplaintOf (c :: rest) kind size := by
  by_cases hq : c = '"'
  · subst hq
    exact ⟨_, _, .text rest⟩
  · by_cases hb : c = '\x60'
    · subst hb
      exact ⟨_, _, .name rest⟩
    · exact ⟨_, _, .character rest hq hb⟩

theorem LexemeOf.ne_nil {text : List Char} {t : Token} (h : LexemeOf text t) : text ≠ [] := by
  obtain ⟨c, rest, rfl, -⟩ := Lexeme.exists_class_of_lexemeOf h
  exact List.cons_ne_nil c rest

theorem exists_tokensOf (file : FileId) (offset : Nat) (text : List Char) :
    ∃ result, TokensOf file offset text result := by
  induction h : text.length using Nat.strongRecOn generalizing offset text with
  | ind n ih =>
    subst h
    obtain ⟨skipped, input, rfl, hs⟩ := exists_triviaOf text
    cases input with
    | nil => exact ⟨_, by rw [List.append_nil]; exact .stop hs⟩
    | cons c input =>
      cases hr : Lexeme.read (c :: input) with
      | ok lexeme =>
        have hl := Lexeme.longest_of_read hr
        obtain ⟨rest, hrest⟩ := hl.starts
        rw [← hrest] at ih hs hl ⊢
        have hlt : rest.length < (skipped ++ (lexeme.text ++ rest)).length := by
          have := List.length_pos_iff.mpr hl.lexeme.ne_nil
          simp only [List.length_append]
          omega
        obtain ⟨result, ht⟩ := ih _ hlt
          (offset + Text.byteSize skipped + Text.byteSize lexeme.text) rest rfl
        exact ⟨_, .token hs hl ht⟩
      | error kind =>
        obtain ⟨kind, size, hc⟩ := exists_complaintOf c input
        exact ⟨_, .stuck hs (Lexeme.stuck_of_read hr) hc⟩

/-- The same tokens, or the same error, at other places. -/
def relocated (place : Location → Location) : Except LexError (List (Located Token)) →
    Except LexError (List (Located Token))
  | .ok tokens => .ok (tokens.map fun token => ⟨token.value, place token.location⟩)
  | .error error => .error ⟨error.kind, place error.location⟩

/-- In which file a text stands, and how far into it, shows in the places and in nothing else. -/
theorem TokensOf.relocated {file other : FileId} {offset offset' : Nat} {text : List Char}
    {result : Except LexError (List (Located Token))} {place : Location → Location}
    (h : TokensOf file offset text result)
    (hp : ∀ further size,
      place ⟨file, offset + further, size⟩ = ⟨other, offset' + further, size⟩) :
    TokensOf other offset' text (relocated place result) := by
  induction h generalizing offset' with
  | stop hs => exact .stop hs
  | @token offset skipped text rest t result hs hl _ ih =>
    have hp' (further size : Nat) : place ⟨file,
        offset + Text.byteSize skipped + Text.byteSize text + further, size⟩ =
          ⟨other, offset' + Text.byteSize skipped + Text.byteSize text + further, size⟩ := by
      simpa only [Nat.add_assoc] using hp _ size
    have hrest := ih hp'
    have hall := TokensOf.token hs hl hrest
    rw [← hp] at hall
    cases result <;> exact hall
  | @stuck offset size skipped input kind hs hn hc =>
    have hall : TokensOf other offset' _ _ := .stuck hs hn hc
    rwa [← hp] at hall

namespace TokenStream

variable {file : FileId} {offset : Nat} {skipped input text rest : List Char} {t : Token}

/-- A comment ends in front of the line feed, which is a blank. -/
theorem triviaRun_comment {line : List Char} (hl : '\n' ∉ line)
    (hn : ∀ c ∈ text.head?, c = '\n') :
    triviaRun true (line ++ text) = line ++ triviaRun false text := by
  induction line with
  | nil =>
    cases text with
    | nil => rfl
    | cons c text =>
      obtain rfl := hn c rfl
      rw [List.nil_append, triviaRun_blank (by decide)]
      rfl
  | cons c line ih =>
    simp only [List.mem_cons, not_or] at hl
    have hc : c ≠ '\n' := fun he => hl.1 he.symm
    simp [triviaRun, hc, ih hl.2]

theorem triviaRun_of_triviaOf (h : TriviaOf skipped rest) :
    triviaRun false (skipped ++ rest) = skipped := by
  induction h with
  | @done rest hw hc =>
    cases rest with
    | nil => rfl
    | cons c rest =>
      refine triviaRun_eq_nil (hw c rfl) fun hs hh => hc ?_
      obtain ⟨tail, rfl⟩ := List.head?_eq_some_iff.mp hh
      exact ⟨tail, by rw [hs]; rfl⟩
  | blank hc _ ih => rw [List.cons_append, triviaRun_blank hc, ih]
  | comment hl hn _ ih =>
    simp only [List.cons_append, List.append_assoc, triviaRun, triviaRun_comment hl hn, ih]

theorem skipTrivia_of_triviaOf (h : TriviaOf skipped rest) :
    skipTrivia ⟨file, offset, skipped ++ rest⟩ = ⟨file, offset + Text.byteSize skipped, rest⟩ := by
  simp only [skipTrivia, triviaRun_of_triviaOf h, skip, List.drop_left]

/-! What one step of the stream gives. -/

theorem next?_stop (h : TriviaOf skipped []) : next? ⟨file, offset, skipped⟩ = none := by
  have hs : skipTrivia ⟨file, offset, skipped ++ []⟩ = _ := skipTrivia_of_triviaOf h
  rw [List.append_nil] at hs
  simp [next?, hs]

theorem next?_longest (hs : TriviaOf skipped (text ++ rest)) (hl : Longest (text ++ rest) text t) :
    next? ⟨file, offset, skipped ++ (text ++ rest)⟩ =
      some (.ok ⟨t, ⟨file, offset + Text.byteSize skipped, Text.byteSize text⟩⟩,
        ⟨file, offset + Text.byteSize skipped + Text.byteSize text, rest⟩) := by
  have hr : Lexeme.read (text ++ rest) = .ok ⟨t, text⟩ := Lexeme.read_ok_iff.mpr hl
  have he : (text ++ rest).isEmpty = false := by simp [hl.lexeme.ne_nil]
  simp only [next?, skipTrivia_of_triviaOf hs, he, hr, skip, List.drop_left]
  rfl

theorem errorLength_of_complaintOf {kind : LexErrorKind} {size : Nat}
    (h : ComplaintOf input kind size) : errorLength kind input = size := by
  cases h <;> rfl

theorem next?_stuck {kind : LexErrorKind} {size : Nat} (hs : TriviaOf skipped input)
    (hn : Stuck input) (hc : ComplaintOf input kind size) :
    ∃ after, next? ⟨file, offset, skipped ++ input⟩ =
      some (.error ⟨kind, ⟨file, offset + Text.byteSize skipped, size⟩⟩, after) := by
  have hr := Lexeme.read_of_complaintOf hn hc
  have he : input.isEmpty = false := by cases hc <;> rfl
  refine ⟨skip ⟨file, offset + Text.byteSize skipped, input⟩ input, ?_⟩
  simp only [next?, skipTrivia_of_triviaOf hs, he, hr, errorLength_of_complaintOf hc]
  rfl

/-- What the whole stream gives, if as many steps are taken as the text has characters. -/
theorem mapM_take_of_tokensOf {result : Except LexError (List (Located Token))}
    (h : TokensOf file offset text result) {bound : Nat} (hb : text.length ≤ bound) :
    (take bound ⟨file, offset, text⟩).mapM id = result := by
  induction h generalizing bound with
  | stop hs =>
    cases bound with
    | zero => rfl
    | succ bound =>
      rw [take, next?_stop hs]
      rfl
  | @token offset skipped text rest t result hs hl _ ih =>
    have hpos := List.length_pos_iff.mpr hl.lexeme.ne_nil
    simp only [List.length_append] at hb
    obtain ⟨bound, rfl⟩ : ∃ n, bound = n + 1 := ⟨bound - 1, by omega⟩
    have hrest : rest.length ≤ bound := by omega
    rw [take, next?_longest hs hl]
    simp only [List.mapM_cons, ih hrest]
    cases result <;> rfl
  | @stuck offset size skipped input kind hs hn hc =>
    have hpos : 0 < input.length := by cases hc <;> simp
    rw [List.length_append] at hb
    obtain ⟨bound, rfl⟩ : ∃ n, bound = n + 1 := ⟨bound - 1, by omega⟩
    obtain ⟨after, hnext⟩ : ∃ after, next? ⟨file, offset, skipped ++ input⟩ = some (_, after) :=
      next?_stuck hs hn hc
    rw [take, hnext]
    rfl

end TokenStream

theorem tokenize_of_unitTokensOf {source : String} {file : FileId}
    {result : Except LexError (List (Located Token))}
    (h : UnitTokensOf file source.toList result) : tokenize source file = result := by
  generalize ht : source.toList = text at h
  cases h with
  | marked h =>
    rw [tokenize, TokenStream.ofSource_marked ht]
    exact TokenStream.mapM_take_of_tokensOf h (Nat.le_refl _)
  | plain hb h =>
    rw [← ht] at hb
    rw [tokenize, TokenStream.ofSource_plain hb, ht]
    exact TokenStream.mapM_take_of_tokensOf h (Nat.le_refl _)

theorem exists_unitTokensOf (file : FileId) (text : List Char) :
    ∃ result, UnitTokensOf file text result := by
  by_cases hb : text.head? = some '\uFEFF'
  · obtain ⟨text, rfl⟩ := List.head?_eq_some_iff.mp hb
    obtain ⟨result, h⟩ := exists_tokensOf file 3 text
    exact ⟨result, .marked h⟩
  · obtain ⟨result, h⟩ := exists_tokensOf file 0 text
    exact ⟨result, .plain hb h⟩

/-- There is a way to see every unit, and the tokenizer follows it. -/
theorem unitTokensOf_tokenize (source : String) (file : FileId) :
    UnitTokensOf file source.toList (tokenize source file) := by
  obtain ⟨result, h⟩ := exists_unitTokensOf file source.toList
  rwa [tokenize_of_unitTokensOf h]

/-- The tokenizer gives what the lexical grammar says, tokens or error, and nothing else. -/
theorem tokenize_eq_iff {source : String} {file : FileId}
    {result : Except LexError (List (Located Token))} :
    tokenize source file = result ↔ UnitTokensOf file source.toList result := by
  refine ⟨?_, tokenize_of_unitTokensOf⟩
  rintro rfl
  obtain ⟨result, h⟩ := exists_unitTokensOf file source.toList
  rwa [tokenize_of_unitTokensOf h]

end FrontEnd
