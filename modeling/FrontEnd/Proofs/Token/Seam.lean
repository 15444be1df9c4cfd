import FrontEnd.Proofs.Token.Tokenization

/-! Two texts with a line feed between them. No token and no comment of the first reaches across
it, so the tokens of the whole are those of the first and then those of the second, further on. -/
namespace FrontEnd

variable {file : FileId} {tokens : List (Located Token)} {t t' : Token}
  {skipped part text rest more : List Char} {offset : Nat}

/-- The same place in a text that has `count` more bytes in front. -/
def Location.movedBy (count : Nat) (location : Location) : Location :=
  { location with offset := location.offset + count }

/-- What a text is read as when it has `count` more bytes in front. -/
def movedBy (count : Nat) : Except LexError (List (Located Token)) →
    Except LexError (List (Located Token))
  | .ok tokens => .ok (tokens.map fun token => ⟨token.value, token.location.movedBy count⟩)
  | .error error => .error ⟨error.kind, error.location.movedBy count⟩

theorem TokensOf.movedBy {result : Except LexError (List (Located Token))}
    (h : TokensOf file offset text result) (count : Nat) :
    TokensOf file (offset + count) text (movedBy count result) := by
  have hp (further size : Nat) : Location.movedBy count ⟨file, offset + further, size⟩ =
      ⟨file, offset + count + further, size⟩ := by
    rw [Location.movedBy, Nat.add_right_comm]
  have hmoved := h.relocated hp
  cases result <;> exact hmoved

/-! Of the texts of tokens, only literals in quotes and names in backticks can hold a line feed, and
where such a text ends does not depend on what follows. -/

theorem newline_not_mem_of_isNameRun (h : IsNameRun text) : '\n' ∉ text := by
  have hn : Lexeme.continuesName '\n' = false :=
    Lexeme.not_continuesName_of_isWhitespace (by decide)
  intro hm
  cases text with
  | nil => cases hm
  | cons c text =>
    rcases List.mem_cons.mp hm with rfl | hm
    · exact absurd (Lexeme.continuesName_of_startsName h.1) (by simp [hn])
    · exact absurd (h.2 _ hm) (by simp [hn])

theorem newline_not_mem_of_isUnit {unit : Option String} (h : IsUnit unit) :
    '\n' ∉ (unit.getD "").toList := by
  cases unit with
  | none => simp
  | some name => exact newline_not_mem_of_isNameRun (h name rfl)

theorem newline_not_mem_of_isNumeral {value : String} (h : IsNumeral value) :
    '\n' ∉ value.toList := by
  have hd {run : List Char} (h : IsDigits run) : '\n' ∉ run := fun hm =>
    absurd (h.2 _ hm) (by decide)
  rcases h with h | ⟨whole, digits, hw, hf, hv⟩
  · exact hd h
  · simp [hv, hd hw, hd hf]

theorem LexemeOf.of_mark {mark : Char} (hm : mark = '"' ∨ mark = '\x60')
    (h : LexemeOf (mark :: text) t) :
    (mark = '"' ∧ ∃ inside value unit, QuotedOf inside value ∧ text = inside ++ '"' :: unit) ∨
      mark = '\x60' ∧ ∃ inside, '\x60' ∉ inside ∧ text = inside ++ ['\x60'] := by
  have hnot : Lexeme.continuesName mark = false := by
    rcases hm with rfl | rfl <;> decide +kernel
  have hsymbol {whole : List Char} (hn : mark ∉ whole) (he : mark :: text = whole) : False :=
    hn (he ▸ List.mem_cons_self)
  generalize hw : mark :: text = whole at h
  cases h with
  | keyword word => exact (hsymbol (by rcases hm with rfl | rfl <;> cases word <;> decide) hw).elim
  | operator symbol =>
    exact (hsymbol (by rcases hm with rfl | rfl <;> cases symbol <;> decide) hw).elim
  | delimiter symbol =>
    exact (hsymbol (by rcases hm with rfl | rfl <;> cases symbol <;> decide) hw).elim
  | numeric hv _ =>
    obtain ⟨c, tail, ht, hc⟩ := hv.head
    rw [ht] at hw
    cases hw
    exact absurd hc (by simp [Lexeme.not_isDigit hnot])
  | textual hq _ =>
    cases hw
    exact Or.inl ⟨rfl, _, _, _, hq, rfl⟩
  | name hr =>
    subst hw
    exact absurd hr.1 (by simp [Lexeme.not_startsName hnot])
  | quotedName hn =>
    cases hw
    exact Or.inr ⟨rfl, _, hn, rfl⟩

/-- A quoted text ends at the first quote that is not escaped. -/
theorem QuotedOf.eq_of_append {inside inside' value value' : List Char} (h : QuotedOf inside value)
    (h' : QuotedOf inside' value') (he : inside ++ '"' :: rest = inside' ++ '"' :: more) :
    rest = more := by
  have hb := Lexeme.quotedBody?_of_quotedOf h rest
  rw [he, Lexeme.quotedBody?_of_quotedOf h' more] at hb
  simp only [Option.some.injEq, Prod.mk.injEq, List.append_cancel_right_eq] at hb
  obtain ⟨-, rfl⟩ := hb
  simpa using he

theorem eq_of_backtick {inside inside' : List Char} (h : '\x60' ∉ inside) (h' : '\x60' ∉ inside')
    (he : inside ++ '\x60' :: rest = inside' ++ '\x60' :: more) : rest = more := by
  have htake {inside rest : List Char} (h : '\x60' ∉ inside) :
      (inside ++ '\x60' :: rest).takeWhile (· ≠ '\x60') = inside := by
    refine takeWhile_of_notNext (fun c hc => ?_) (by simp [NotNext])
    simpa using fun hb : c = '\x60' => h (hb ▸ hc)
  obtain rfl : inside = inside' := by rw [← htake h, he, htake h']
  simpa using he

/-- Where one token's text goes on behind another's, it does so within a line. -/
theorem LexemeOf.newline_not_mem (h : LexemeOf text t) (h' : LexemeOf (text ++ more) t') :
    '\n' ∉ more := by
  have hall {whole : List Char} (hn : '\n' ∉ whole) (he : text ++ more = whole) : '\n' ∉ more :=
    fun hm => hn (he ▸ List.mem_append_right text hm)
  obtain ⟨c, tail, rfl⟩ := List.exists_cons_of_ne_nil h.ne_nil
  generalize he : c :: tail ++ more = whole at h'
  cases h' with
  | keyword word => exact hall (by cases word <;> decide) he
  | operator symbol => exact hall (by cases symbol <;> decide) he
  | delimiter symbol => exact hall (by cases symbol <;> decide) he
  | numeric hv hu =>
    exact hall (by simp [newline_not_mem_of_isNumeral hv, newline_not_mem_of_isUnit hu]) he
  | textual hq hu =>
    obtain ⟨hc, htail⟩ := List.cons.inj (List.cons_append ▸ he)
    subst hc
    obtain ⟨-, inside, value, unit, hq', rfl⟩ | ⟨hc, -⟩ := h.of_mark (Or.inl rfl)
    · rw [List.append_assoc, List.cons_append] at htail
      have hunit := hq'.eq_of_append hq htail
      intro hm
      exact newline_not_mem_of_isUnit hu (hunit ▸ List.mem_append_right unit hm)
    · simp at hc
  | name hr => exact hall (newline_not_mem_of_isNameRun hr) he
  | quotedName hn =>
    obtain ⟨hc, htail⟩ := List.cons.inj (List.cons_append ▸ he)
    subst hc
    obtain ⟨hc, -⟩ | ⟨-, inside, hn', rfl⟩ := h.of_mark (Or.inr rfl)
    · simp at hc
    · rw [List.append_assoc, List.cons_append, List.nil_append] at htail
      simp [eq_of_backtick hn' hn htail]

/-- The longest token of a line is the longest whatever the next line holds. -/
theorem Longest.append_newline (h : Longest (part ++ rest) part t) (more : List Char) :
    Longest (part ++ (rest ++ '\n' :: more)) part t where
  lexeme := h.lexeme
  starts := List.prefix_append _ _
  maximal longer t' hl hp := by
    have hshort : part ++ rest <+: part ++ (rest ++ '\n' :: more) :=
      (List.prefix_append_right_inj part).mpr (List.prefix_append rest _)
    by_cases hlen : longer.length ≤ (part ++ rest).length
    · exact h.maximal longer t' hl (List.prefix_of_prefix_length_le hp hshort hlen)
    · -- A longer text would have the line feed in it, behind the text of the token.
      have hlong : part ++ (rest ++ ['\n']) <+: part ++ (rest ++ '\n' :: more) :=
        (List.prefix_append_right_inj part).mpr ⟨more, by simp⟩
      obtain ⟨tail, rfl⟩ := List.prefix_of_prefix_length_le hlong hp (by simp at hlen ⊢; omega)
      rw [List.append_assoc] at hl
      exact (h.lexeme.newline_not_mem hl (by simp)).elim
  preferred := h.preferred

theorem TriviaOf.append_newline (h : TriviaOf skipped rest) (hr : rest ≠ []) (more : List Char) :
    TriviaOf skipped (rest ++ '\n' :: more) := by
  induction h with
  | @done rest hw hc =>
    obtain ⟨c, tail, rfl⟩ := List.exists_cons_of_ne_nil hr
    refine .done hw fun hp => hc ?_
    cases tail with
    | nil => simp at hp
    | cons d tail => simpa using hp
  | blank hc _ ih => exact .blank hc (ih hr)
  | @comment line skipped rest hl hn _ ih =>
    refine .comment hl ?_ (ih hr)
    obtain ⟨c, tail, hc⟩ := List.exists_cons_of_ne_nil (show skipped ++ rest ≠ [] by simp [hr])
    rw [← List.append_assoc, hc]
    rw [hc] at hn
    exact hn

/-- The line feed ends a comment and is a blank itself. -/
theorem TriviaOf.newline {skipped' : List Char} (h : TriviaOf skipped [])
    (h' : TriviaOf skipped' rest) : TriviaOf (skipped ++ '\n' :: skipped') rest := by
  generalize he : ([] : List Char) = stop at h
  induction h with
  | done => exact .blank (by decide) h'
  | blank hc _ ih => exact .blank hc (ih he)
  | @comment line skipped stop hl hn _ ih =>
    subst he
    rw [List.cons_append, List.cons_append, List.append_assoc]
    refine .comment hl ?_ (ih rfl)
    cases skipped with
    | nil => simp
    | cons c skipped => exact hn

/-- What is left of the first text is only skipped, and so is the line feed. -/
theorem TokensOf.newline {result : Except LexError (List (Located Token))}
    (hs : TriviaOf skipped []) (h : TokensOf file (offset + Text.byteSize skipped + 1) more result) :
    TokensOf file offset (skipped ++ '\n' :: more) result := by
  have hsize (skipped' : List Char) : offset + Text.byteSize (skipped ++ '\n' :: skipped') =
      offset + Text.byteSize skipped + 1 + Text.byteSize skipped' := by
    have hn : '\n'.utf8Size = 1 := rfl
    simp only [Text.byteSize_append, Text.byteSize_cons, hn]
    omega
  cases h with
  | stop hs' => exact .stop (hs.newline hs')
  | @token _ skipped' part rest t result hs' hl h =>
    have hall := TokensOf.token (hs.newline hs') hl (by rw [hsize]; exact h)
    rw [hsize] at hall
    simpa using hall
  | @stuck _ size skipped' input kind hs' hn hc =>
    have hall : TokensOf file offset _ _ := .stuck (hs.newline hs') hn hc
    rw [hsize] at hall
    simpa using hall

theorem TokensOf.append_newline {first result : Except LexError (List (Located Token))}
    (h : TokensOf file offset text first) (hf : first = .ok tokens)
    (h' : TokensOf file (offset + Text.byteSize text + 1) more result) :
    TokensOf file offset (text ++ '\n' :: more) (result.map (tokens ++ ·)) := by
  induction h generalizing tokens with
  | stop hs =>
    cases hf
    have hall := TokensOf.newline hs h'
    cases result <;> exact hall
  | @token offset skipped part rest t first hs hl _ ih =>
    cases first with
    | error => cases hf
    | ok others =>
      cases hf
      have hn : part ++ rest ≠ [] := by simp [hl.lexeme.ne_nil]
      have hrest := ih rfl (by simpa [Nat.add_assoc] using h')
      have hs' := hs.append_newline hn more
      rw [List.append_assoc] at hs'
      have hall := TokensOf.token hs' (hl.append_newline more) hrest
      rw [List.append_assoc, List.append_assoc]
      cases result <;> exact hall
  | stuck => cases hf

/-- The tokens of two source units that are put together with a line feed between them. -/
theorem UnitTokensOf.append_newline {result : Except LexError (List (Located Token))}
    (h : UnitTokensOf file text (.ok tokens)) (hb : more.head? ≠ some '\uFEFF')
    (h' : UnitTokensOf file more result) :
    UnitTokensOf file (text ++ '\n' :: more)
      ((movedBy (Text.byteSize text + 1) result).map (tokens ++ ·)) := by
  cases h' with
  | marked => exact (hb rfl).elim
  | plain _ h' =>
    have hmoved := h'.movedBy (Text.byteSize text + 1)
    cases h with
    | @marked text _ h =>
      refine .marked (h.append_newline rfl ?_)
      have hsize : 0 + (Text.byteSize ('\uFEFF' :: text) + 1) = 3 + Text.byteSize text + 1 := by
        rw [Text.byteSize_cons, Nat.zero_add]
        rfl
      rwa [hsize] at hmoved
    | plain hb' h =>
      refine .plain ?_ (h.append_newline rfl (by simpa using hmoved))
      cases text with
      | nil => simp
      | cons c text => exact hb'

/-- Behind a source that has tokens, and a line feed, another source is read as it is alone, only
further on. -/
theorem tokenize_append_newline {first second : String} (h : tokenize first file = .ok tokens)
    (hb : second.toList.head? ≠ some '\uFEFF') :
    (∀ tokens', tokenize second file = .ok tokens' → tokenize (first ++ "\n" ++ second) file =
      .ok (tokens ++ tokens'.map fun token =>
        ⟨token.value, token.location.movedBy (Text.byteSize first.toList + 1)⟩)) ∧
    ∀ error, tokenize second file = .error error → tokenize (first ++ "\n" ++ second) file =
      .error ⟨error.kind, error.location.movedBy (Text.byteSize first.toList + 1)⟩ := by
  have htext : (first ++ "\n" ++ second).toList = first.toList ++ '\n' :: second.toList := by simp
  have hfirst := h ▸ unitTokensOf_tokenize first file
  have hall := hfirst.append_newline hb (unitTokensOf_tokenize second file)
  rw [← htext] at hall
  have hboth := tokenize_of_unitTokensOf hall
  constructor
  · intro tokens' ht
    rwa [ht] at hboth
  · intro error he
    rwa [he] at hboth

/-- A quote in a comment of the first source does not meet the one in the second. -/
theorem tokenize_append_newline_quotes :
    let tokens : List (Located Token) := [⟨.identifier "é", ⟨⟨1⟩, 3, 2⟩⟩]
    tokenize ("\uFEFFé // \"" ++ "\n" ++ "\"a\"") ⟨1⟩ =
        .ok (tokens ++ [⟨.textual "a" none, ⟨⟨1⟩, 11, 3⟩⟩]) ∧
      tokenize ("\uFEFFé // \"" ++ "\n" ++ " \"a") ⟨1⟩ =
        .error ⟨.unterminatedText, ⟨⟨1⟩, 12, 2⟩⟩ := by
  intro tokens
  have h : tokenize "\uFEFFé // \"" ⟨1⟩ = .ok tokens := rfl
  have ht : tokenize "\"a\"" ⟨1⟩ = .ok [⟨.textual "a" none, ⟨⟨1⟩, 0, 3⟩⟩] := rfl
  have he : tokenize " \"a" ⟨1⟩ = .error ⟨.unterminatedText, ⟨⟨1⟩, 1, 2⟩⟩ := rfl
  constructor
  · exact (tokenize_append_newline h (by decide)).1 _ ht
  · exact (tokenize_append_newline h (by decide)).2 _ he

end FrontEnd
