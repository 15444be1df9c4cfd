import FrontEnd.Proofs.Text.Cut
import FrontEnd.Proofs.Token.Order
import FrontEnd.Proofs.Token.Tokenization

/-! The tokens of a source unit and the blanks and comments between them make up all of it. What
stands in the place of a token is that token, also without the text around it. -/
namespace FrontEnd

variable {file : FileId} {source : String} {tokens : List (Located Token)} {t : Token}
  {before skipped part text rest more : List Char} {offset : Nat}

/-- The places that no token takes: in front of the first, between one and the next, and behind the
last. -/
def gaps (start stop : Nat) : List (Located Token) → List (Nat × Nat)
  | [] => [(start, stop)]
  | token :: tokens =>
    (start, token.location.offset) :: gaps token.location.endOffset stop tokens

/-- The tokens of a file, with blanks and comments between them, take up all of `text` from byte
`start` on. -/
structure Tiles (file : FileId) (text : List Char) (start : Nat)
    (tokens : List (Located Token)) : Prop extends InOrder tokens where
  file : ∀ token ∈ tokens, token.location.file = file
  boundaries : ∀ token ∈ tokens, Text.IsBoundary text token.location.offset ∧
    Text.IsBoundary text token.location.endOffset
  trivia : ∀ gap ∈ gaps start (Text.byteSize text) tokens,
    ∃ skipped rest, Text.Cuts text gap.1 gap.2 skipped rest ∧ TriviaOf skipped rest
  /-- The text of a token is that token when it stands alone. -/
  alone : ∀ token ∈ tokens, ∃ part rest,
    Text.Cuts text token.location.offset token.location.endOffset part rest ∧
      ∀ other, tokenize (String.ofList part) other =
        .ok [⟨token.value, ⟨other, 0, token.location.length⟩⟩]

/-- Where the text of a source unit starts: behind the byte order mark, if there is one. -/
def textStart (text : List Char) : Nat :=
  if text.head? = some '\uFEFF' then Text.byteSize ['\uFEFF'] else 0

theorem LexemeOf.head?_ne (h : LexemeOf text t) : text.head? ≠ some '\uFEFF' := by
  cases h with
  | keyword word => cases word <;> decide
  | operator symbol => cases symbol <;> decide
  | delimiter symbol => cases symbol <;> decide
  | numeric hv _ =>
    obtain ⟨c, tail, ht, hc⟩ := hv.head
    rw [ht]
    rintro ⟨⟩
    exact absurd hc (by decide)
  | textual => simp
  | name hr =>
    cases text with
    | nil => simp
    | cons c text =>
      rintro ⟨⟩
      exact absurd hr.1 (by decide +kernel)
  | quotedName => simp

theorem TriviaOf.starts (h : TriviaOf skipped rest) : TriviaOf [] rest := by
  induction h with
  | done hw hc => exact .done hw hc
  | blank _ _ ih => exact ih
  | comment _ _ _ ih => exact ih

/-- What follows a text is not needed to see where its blanks and comments end. -/
theorem TriviaOf.of_append (h : TriviaOf skipped (part ++ rest)) : TriviaOf skipped part := by
  have hhead (front : List Char) {c : Char} (hm : c ∈ (front ++ part).head?) :
      c ∈ (front ++ (part ++ rest)).head? := by
    rw [← List.append_assoc, List.head?_append, Option.mem_def.mp hm]
    rfl
  generalize ht : part ++ rest = text at h
  induction h with
  | done hw hc =>
    subst ht
    refine .done (fun c hm => hw c (hhead [] hm)) fun hp => hc ?_
    exact hp.trans (List.prefix_append part rest)
  | blank hc _ ih => exact .blank hc (ih ht)
  | comment hl hn _ ih =>
    subst ht
    exact .comment hl (fun c hm => hn c (hhead _ hm)) (ih rfl)

theorem Longest.of_append (h : Longest (part ++ (rest ++ more)) part t) :
    Longest (part ++ rest) part t where
  lexeme := h.lexeme
  starts := List.prefix_append part rest
  maximal longer t' hl hp := by
    refine h.maximal longer t' hl (hp.trans ?_)
    rw [← List.append_assoc]
    exact List.prefix_append (part ++ rest) more
  preferred := h.preferred

/-- Cutting off what follows a token leaves the token. -/
theorem tokenize_alone (hs : TriviaOf skipped (part ++ rest)) (hl : Longest (part ++ rest) part t)
    (other : FileId) :
    tokenize (String.ofList part) other = .ok [⟨t, ⟨other, 0, Text.byteSize part⟩⟩] := by
  have hnil : TriviaOf [] [] := .done (by simp [NotNext]) (by simp)
  have htoken : TokensOf other 0 ([] ++ (part ++ [])) (Except.map _ (.ok [])) :=
    .token (by simpa using hs.starts.of_append) (Longest.of_append hl) (.stop hnil)
  refine tokenize_of_unitTokensOf ?_
  rw [String.toList_ofList]
  exact .plain hl.lexeme.head?_ne (by simpa [Except.map] using htoken)

theorem TokensOf.le_offset {result : Except LexError (List (Located Token))}
    (h : TokensOf file offset text result) (hr : result = .ok tokens) :
    ∀ token ∈ tokens, offset ≤ token.location.offset := by
  induction h generalizing tokens with
  | stop => cases hr; simp
  | @token offset skipped part rest t result _ _ _ ih =>
    cases result with
    | error => cases hr
    | ok others =>
      cases hr
      intro token hm
      rcases List.mem_cons.mp hm with rfl | hm
      · exact Nat.le_add_right _ _
      · have := ih rfl token hm
        omega
  | stuck => cases hr

theorem tiles_nil (hs : TriviaOf skipped []) :
    Tiles file (before ++ skipped) (Text.byteSize before) [] where
  nonempty := by simp
  ordered := .nil
  file := by simp
  boundaries := by simp
  trivia := by
    intro gap hg
    obtain rfl : gap = (_, _) := List.mem_singleton.mp hg
    refine ⟨skipped, [], ?_, hs⟩
    simpa using Text.cuts_append before skipped []
  alone := by simp

/-- One more token in front. -/
theorem Tiles.cons (hs : TriviaOf skipped (part ++ rest)) (hl : Longest (part ++ rest) part t)
    (hoff : offset = Text.byteSize before + Text.byteSize skipped)
    (ho : ∀ token ∈ tokens, offset + Text.byteSize part ≤ token.location.offset)
    (h : Tiles file (before ++ (skipped ++ (part ++ rest))) (offset + Text.byteSize part) tokens) :
    Tiles file (before ++ (skipped ++ (part ++ rest))) (Text.byteSize before)
      (⟨t, ⟨file, offset, Text.byteSize part⟩⟩ :: tokens) := by
  subst hoff
  have hcut : Text.Cuts (before ++ (skipped ++ (part ++ rest)))
      (Text.byteSize before + Text.byteSize skipped)
      (Text.byteSize before + Text.byteSize skipped + Text.byteSize part) part rest := by
    simpa using Text.cuts_append (before ++ skipped) part rest
  constructor
  · refine ⟨?_, List.pairwise_cons.mpr ⟨ho, h.ordered⟩⟩
    exact List.forall_mem_cons.mpr ⟨Text.byteSize_pos hl.lexeme.ne_nil, h.nonempty⟩
  · exact List.forall_mem_cons.mpr ⟨rfl, h.file⟩
  · exact List.forall_mem_cons.mpr ⟨hcut.isBoundary, h.boundaries⟩
  · exact List.forall_mem_cons.mpr ⟨⟨skipped, part ++ rest, Text.cuts_append _ _ _, hs⟩, h.trivia⟩
  · exact List.forall_mem_cons.mpr ⟨⟨part, rest, hcut, tokenize_alone hs hl⟩, h.alone⟩

theorem TokensOf.tiles {result : Except LexError (List (Located Token))}
    (h : TokensOf file offset text result) (hr : result = .ok tokens) (before : List Char)
    (hb : Text.byteSize before = offset) : Tiles file (before ++ text) offset tokens := by
  induction h generalizing tokens before with
  | stop hs =>
    cases hr
    subst hb
    exact tiles_nil hs
  | @token offset skipped part rest t result hs hl hrest ih =>
    cases result with
    | error => cases hr
    | ok others =>
      cases hr
      subst hb
      have hall := ih rfl (before ++ (skipped ++ part)) (by simp [Nat.add_assoc])
      simp only [List.append_assoc] at hall
      exact .cons hs hl rfl (hrest.le_offset rfl) hall
  | stuck => cases hr

theorem UnitTokensOf.tiles (h : UnitTokensOf file text (.ok tokens)) :
    Tiles file text (textStart text) tokens := by
  cases h with
  | marked ht => exact ht.tiles rfl ['\uFEFF'] rfl
  | plain hb ht =>
    rw [textStart, if_neg hb]
    exact ht.tiles rfl [] rfl

/-- Tokens, blanks and comments make up a source unit, and each token is what its own text is read
as. -/
theorem tokenize_tiles (h : tokenize source file = .ok tokens) :
    Tiles file source.toList (textStart source.toList) tokens :=
  (h ▸ unitTokensOf_tokenize source file).tiles

/-- A byte order mark, a comment, a text with a unit, and a keyword next to a name. -/
theorem tokenize_tiles_marked :
    let source := "\uFEFF // \"\n\"é\"px\tif`if`"
    let tokens : List (Located Token) := [⟨.textual "é" (some "px"), ⟨⟨2⟩, 9, 6⟩⟩,
      ⟨.keyword .ifWord, ⟨⟨2⟩, 16, 2⟩⟩, ⟨.identifier "if", ⟨⟨2⟩, 18, 4⟩⟩]
    tokenize source ⟨2⟩ = .ok tokens ∧ Tiles ⟨2⟩ source.toList 3 tokens :=
  ⟨rfl, tokenize_tiles rfl⟩

end FrontEnd
