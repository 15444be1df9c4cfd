import FrontEnd.Proofs.Token.Spelling
import FrontEnd.Token.Stream

/-! Texts made of spellings and blanks, and the tokens that a whole text is cut into. -/
namespace FrontEnd

namespace Lexeme

variable {input : List Char} {lexeme : Lexeme}

/-! Whatever is read can be written. -/

theorem of_mem_takeWhile {p : Char → Bool} {c : Char} (h : c ∈ input.takeWhile p) : p c = true :=
  List.all_eq_true.mp List.all_takeWhile c h

theorem isDigits_takeWhile (h : input.takeWhile Char.isDigit ≠ []) :
    IsDigits (input.takeWhile Char.isDigit) :=
  ⟨h, fun _ => of_mem_takeWhile⟩

theorem isNameRun_nameRun (h : nameRun input ≠ []) : IsNameRun (nameRun input) := by
  cases input with
  | nil => exact (h rfl).elim
  | cons c rest =>
    simp only [nameRun] at h ⊢
    split at h
    · next hc =>
      rw [if_pos hc]
      exact ⟨hc, fun _ => of_mem_takeWhile⟩
    · exact (h rfl).elim

theorem isUnit_unit? (input : List Char) : IsUnit (unit? (nameRun input)) := by
  intro name hn
  unfold unit? at hn
  split at hn
  · cases hn
  · next hne =>
    cases hn
    rw [String.toList_ofList]
    exact isNameRun_nameRun hne

theorem isNumeral_number {digits : List Char} (h : IsDigits digits) :
    IsNumeral (String.ofList (digits ++ fraction input)) := by
  unfold fraction
  split
  · next rest =>
    split
    · exact Or.inl (by simpa using h)
    · next hd => exact Or.inr ⟨digits, _, h, isDigits_takeWhile hd, by simp⟩
  · exact Or.inl (by simpa using h)

theorem isName_of_nameRun (input : List Char) : '\x60' ∉ nameRun input := by
  intro hb
  have hne : nameRun input ≠ [] := List.ne_nil_of_mem hb
  have h := isNameRun_nameRun hne
  cases hr : nameRun input with
  | nil => exact hne hr
  | cons c rest =>
    rw [hr] at h hb
    rcases List.mem_cons.mp hb with rfl | hb
    · exact absurd h.1 (by decide)
    · exact absurd (h.2 _ hb) (by decide)

theorem legible_of_symbol {α : Type} {symbols : List α} {text : α → String} {token : α → Token}
    (h : symbol symbols text token input = .ok (some lexeme)) (ht : ∀ s, (token s).Legible) :
    lexeme.token.Legible := by
  rw [symbol, Except.ok.injEq, Option.map_eq_some_iff] at h
  obtain ⟨s, -, rfl⟩ := h
  exact ht s

theorem legible_of_number (h : number input = .ok (some lexeme)) : lexeme.token.Legible := by
  unfold number at h
  split at h
  · cases h
  · next hd =>
    cases h
    exact ⟨isNumeral_number (isDigits_takeWhile hd), isUnit_unit? _⟩

theorem legible_of_quotedText (h : quotedText input = .ok (some lexeme)) :
    lexeme.token.Legible := by
  unfold quotedText at h
  split at h
  · split at h
    · cases h
    · cases h
      exact isUnit_unit? _
  · cases h

theorem legible_of_name (h : name input = .ok (some lexeme)) : lexeme.token.Legible := by
  unfold name at h
  split at h
  · simp only at h
    split at h
    · cases h
      intro hb
      rw [String.toList_ofList] at hb
      simpa using of_mem_takeWhile hb
    · cases h
  · split at h
    · cases h
    · cases h
      change _ ∉ _
      rw [String.toList_ofList]
      exact isName_of_nameRun input

theorem legible_of_read (h : read input = .ok lexeme) : lexeme.token.Legible := by
  unfold read at h
  simp only at h
  split at h
  · next found hm =>
    cases h
    obtain ⟨reading, hr, hl⟩ := List.mem_filterMap.mp (List.maxOn?_mem hm)
    obtain ⟨cls, hc, rfl⟩ := List.mem_map.mp hr
    have hcl : cls input = .ok (some lexeme) := by
      cases hcls : cls input with
      | ok found => simpa [hcls, Reading.lexeme?] using hl
      | error kind => simp [hcls, Reading.lexeme?] at hl
    simp only [classes, List.mem_cons, List.not_mem_nil, or_false] at hc
    rcases hc with rfl | rfl | rfl | rfl | rfl | rfl
    · exact legible_of_symbol hcl fun _ => trivial
    · exact legible_of_symbol hcl fun _ => trivial
    · exact legible_of_symbol hcl fun _ => trivial
    · exact legible_of_number hcl
    · exact legible_of_quotedText hcl
    · exact legible_of_name hcl
  · cases h

end Lexeme

namespace Token

variable {t : Token} {c : Char} {rest : List Char}

/-- Whether a token other than an operator may start with the character. -/
def opening (c : Char) : Bool :=
  Lexeme.continuesName c || Delimiter.isMark c || c == '"' || c == '\x60'

theorem not_isSymbol_of_opening (h : opening c = true) : Operator.isSymbol c = false := by
  simp only [opening, Bool.or_eq_true, beq_iff_eq] at h
  rcases h with ((h | h) | rfl) | rfl
  · exact Lexeme.not_isSymbol_of_continuesName h
  · exact Lexeme.not_isSymbol_of_isMark h
  · decide
  · decide

theorem not_isWhitespace_of_opening (h : opening c = true) : Unicode.isWhitespace c = false := by
  simp only [opening, Bool.or_eq_true, beq_iff_eq] at h
  rcases h with ((h | h) | rfl) | rfl
  · exact Lexeme.not_isWhitespace_of_continuesName h
  · exact (Lexeme.special_of_isMark h).not_isWhitespace
  · decide
  · decide

/-- The text starts like a token other than an operator. -/
def Opening (text : List Char) : Prop := ∃ c tail, text = c :: tail ∧ opening c = true

theorem Opening.append {text : List Char} (h : Opening text) (rest : List Char) :
    Opening (text ++ rest) := by
  obtain ⟨c, tail, rfl, hc⟩ := h
  exact ⟨c, tail ++ rest, rfl, hc⟩

theorem Opening.notNext_isSymbol {text : List Char} (h : Opening text) :
    NotNext Operator.isSymbol text := by
  obtain ⟨c, tail, rfl, hc⟩ := h
  rintro d ⟨⟩
  exact not_isSymbol_of_opening hc

theorem opening_name (name : String) : Opening (Printer.name name).toList := by
  unfold Printer.name
  split
  · next hp =>
    unfold Printer.isPlainName at hp
    split at hp
    · cases hp
    · next c tail ht =>
      simp only [Bool.and_eq_true] at hp
      exact ⟨c, tail, ht, by simp [opening, Lexeme.continuesName_of_startsName hp.1.1]⟩
  · exact ⟨'\x60', name.toList ++ ['\x60'], by simp, by simp [opening]⟩

theorem opening_numeral {value : String} (h : IsNumeral value) : Opening value.toList := by
  obtain ⟨c, tail, ht, hc⟩ := h.head
  exact ⟨c, tail, ht, by simp [opening, Lexeme.continuesName_of_isDigit hc]⟩

theorem opening_text (value : String) : Opening (Printer.text value).toList := by
  simp only [Printer.text, String.toList_append, List.append_assoc]
  exact ⟨'"', _, rfl, by simp [opening]⟩

/-- How the spelling of a token starts. -/
theorem spelling_eq_cons (h : t.Legible) : ∃ c tail, t.spelling = c :: tail ∧
    (opening c = true ∨ Operator.isSymbol c = true ∧ ∃ op, t = .operator op) := by
  have ho : Opening t.spelling → ∃ c tail, t.spelling = c :: tail ∧
      (opening c = true ∨ Operator.isSymbol c = true ∧ ∃ op, t = .operator op) := by
    rintro ⟨c, tail, hs, hc⟩
    exact ⟨c, tail, hs, Or.inl hc⟩
  cases t with
  | identifier name => exact ho (opening_name name)
  | numeric value unit => exact ho ((opening_numeral h.1).append _)
  | textual value unit => exact ho ((opening_text value).append _)
  | keyword word => cases word <;> exact ⟨_, _, rfl, Or.inl (by decide)⟩
  | operator symbol => cases symbol <;> exact ⟨_, _, rfl, Or.inr ⟨by decide, _, rfl⟩⟩
  | delimiter symbol => cases symbol <;> exact ⟨_, _, rfl, Or.inl (by decide)⟩

end Token

/-- A text that spells the tokens, with blanks between them where they need any. -/
inductive Spelled : List Char → List Token → Prop
  | nil : Spelled [] []
  | blank {c : Char} {text : List Char} {ts : List Token} (hc : Unicode.isWhitespace c = true)
      (h : Spelled text ts) : Spelled (c :: text) ts
  | token {t : Token} {text : List Char} {ts : List Token} (ht : t.Legible) (ha : t.Apart text)
      (h : Spelled text ts) : Spelled (t.spelling ++ text) (t :: ts)

namespace TokenStream

variable {stream : TokenStream} {c : Char} {t : Token} {text rest : List Char} {ts : List Token}

theorem triviaRun_eq_nil (hw : Unicode.isWhitespace c = false)
    (hc : c = '/' → rest.head? ≠ some '/') : triviaRun false (c :: rest) = [] := by
  by_cases hs : c = '/'
  · cases rest with
    | nil => simp [triviaRun, hw]
    | cons d rest =>
      have hd : d ≠ '/' := fun hd => hc hs (hd ▸ rfl)
      simp [triviaRun, hw, hd]
  · simp [triviaRun, hw, hs]

/-- A token is not taken for a blank or a comment. -/
theorem triviaRun_spelling (ht : t.Legible) (ha : t.Apart rest) :
    triviaRun false (t.spelling ++ rest) = [] := by
  obtain ⟨c, tail, hs, hc | ⟨hc, op, rfl⟩⟩ := Token.spelling_eq_cons ht
  · rw [hs, List.cons_append]
    apply triviaRun_eq_nil (Token.not_isWhitespace_of_opening hc)
    rintro rfl
    exact absurd hc (by decide)
  · rw [hs, List.cons_append]
    apply triviaRun_eq_nil (Lexeme.special_of_isSymbol hc).not_isWhitespace
    rintro rfl hh
    cases tail with
    | nil =>
      have := ha '/' hh
      exact absurd this (by decide)
    | cons d tail =>
      cases hh
      cases op <;> simp [Token.spelling, Operator.text] at hs

theorem skip_nil (stream : TokenStream) : stream.skip [] = stream := by
  simp [skip]

theorem skip_cons (stream : TokenStream) (c : Char) (text : List Char) :
    stream.skip (c :: text) = (stream.skip [c]).skip text := by
  simp [skip, Nat.add_assoc]

theorem rest_skip (hr : stream.rest = text ++ rest) : (stream.skip text).rest = rest := by
  rw [skip, hr, List.drop_left]

theorem triviaRun_blank (hc : Unicode.isWhitespace c = true) (text : List Char) :
    triviaRun false (c :: text) = c :: triviaRun false text := by
  have hn : c ≠ '/' := by
    rintro rfl
    exact absurd hc (by decide)
  simp [triviaRun, hn, hc]

theorem skipTrivia_blank (hr : stream.rest = c :: text) (hc : Unicode.isWhitespace c = true) :
    stream.skipTrivia = (stream.skip [c]).skipTrivia := by
  have hs : (stream.skip [c]).rest = text := rest_skip hr
  rw [skipTrivia, skipTrivia, hr, triviaRun_blank hc, skip_cons, hs]

theorem next?_blank (hr : stream.rest = c :: text) (hc : Unicode.isWhitespace c = true) :
    stream.next? = (stream.skip [c]).next? := by
  rw [next?, next?, skipTrivia_blank hr hc]

theorem next?_nil (hr : stream.rest = []) : stream.next? = none := by
  simp [next?, skipTrivia, skip, hr]

theorem next?_token (hr : stream.rest = t.spelling ++ rest) (ht : t.Legible)
    (ha : t.Apart rest) : ∃ location, stream.next? =
      some (.ok ⟨t, location⟩, stream.skip t.spelling) := by
  have hs : stream.skipTrivia = stream := by
    rw [skipTrivia, hr, triviaRun_spelling ht ha, skip_nil]
  have he : (t.spelling ++ rest).isEmpty = false := by
    obtain ⟨c, tail, hc, -⟩ := Token.spelling_eq_cons ht
    simp [hc]
  refine ⟨⟨stream.file, stream.offset, Text.byteSize t.spelling⟩, ?_⟩
  simp only [next?, hs, hr, he, Lexeme.read_spelling ht ha]
  rfl

/-- A text that spells tokens is cut into them. -/
theorem take_of_spelled (h : Spelled text ts) {stream : TokenStream} {bound : Nat}
    (hr : stream.rest = text) (hb : text.length ≤ bound) :
    ∃ tokens : List (Located Token), stream.take bound = tokens.map .ok ∧
      tokens.map Located.value = ts := by
  induction h generalizing stream bound with
  | nil => exact ⟨[], by cases bound <;> simp [take, next?_nil hr], rfl⟩
  | @blank c text ts hc _ ih =>
    have hr' : (stream.skip [c]).rest = text := rest_skip hr
    obtain ⟨tokens, ht, hv⟩ := ih hr' (Nat.le_of_succ_le hb)
    refine ⟨tokens, ?_, hv⟩
    rw [← ht]
    cases bound with
    | zero => rfl
    | succ bound => simp only [take, next?_blank hr hc]
  | @token t text ts ht ha _ ih =>
    obtain ⟨location, hn⟩ := next?_token hr ht ha
    obtain ⟨c, tail, hc, -⟩ := Token.spelling_eq_cons ht
    rw [hc, List.cons_append, List.length_cons, List.length_append] at hb
    obtain ⟨bound, rfl⟩ : ∃ n, bound = n + 1 := ⟨bound - 1, by omega⟩
    have hb' : text.length ≤ bound := by omega
    obtain ⟨tokens, htk, hv⟩ := ih (rest_skip hr) hb'
    exact ⟨⟨t, location⟩ :: tokens, by simp [take, hn, htk], by simp [hv]⟩

theorem legible_of_next? {token : Located Token} {after : TokenStream}
    (h : stream.next? = some (.ok token, after)) : token.value.Legible := by
  simp only [next?] at h
  split at h
  · cases h
  · split at h
    · next lexeme hl =>
      cases h
      exact Lexeme.legible_of_read hl
    · cases h

theorem legible_of_take {bound : Nat} {token : Located Token} (h : .ok token ∈ stream.take bound) :
    token.value.Legible := by
  induction bound generalizing stream with
  | zero => cases h
  | succ bound ih =>
    rw [take] at h
    split at h
    · cases h
    · next item after hn =>
      rcases List.mem_cons.mp h with rfl | h
      · exact legible_of_next? hn
      · exact ih h

end TokenStream

theorem mapM_id_eq_ok_iff {ε α : Type} {xs : List (Except ε α)} {ys : List α} :
    xs.mapM id = .ok ys ↔ xs = ys.map .ok := by
  induction xs generalizing ys with
  | nil => cases ys <;> simp [pure, Except.pure]
  | cons x xs ih =>
    rw [List.mapM_cons]
    cases x with
    | error e => cases ys <;> simp [bind, Except.bind]
    | ok y =>
      cases ys with
      | nil => cases xs.mapM id <;> simp [bind, Except.bind, pure, Except.pure]
      | cons y' ys =>
        rw [List.map_cons, List.cons.injEq, ← ih]
        cases xs.mapM id <;> simp [bind, Except.bind, pure, Except.pure]

/-- No token starts with a byte order mark, so the text has none to be skipped. -/
theorem Spelled.head?_ne {text : List Char} {ts : List Token} (h : Spelled text ts) :
    text.head? ≠ some '\uFEFF' := by
  cases h with
  | nil => simp
  | blank hc =>
    rintro ⟨⟩
    exact absurd hc (by decide)
  | token ht =>
    obtain ⟨c, tail, hs, hc | ⟨hc, -⟩⟩ := Token.spelling_eq_cons ht <;>
    · rw [hs]
      rintro ⟨⟩
      exact absurd hc (by decide +kernel)

theorem TokenStream.ofSource_marked {source : String} {text : List Char}
    (h : source.toList = '\uFEFF' :: text) (file : FileId) :
    ofSource source file = ⟨file, 3, text⟩ := by
  rw [ofSource, h]
  rfl

theorem TokenStream.ofSource_plain {source : String} (h : source.toList.head? ≠ some '\uFEFF')
    (file : FileId) : ofSource source file = ⟨file, 0, source.toList⟩ := by
  unfold ofSource
  split
  · next hb => exact (h (by rw [hb]; rfl)).elim
  · rfl

theorem tokenize_of_spelled {source : String} {ts : List Token} (h : Spelled source.toList ts)
    (file : FileId) : ∃ tokens, tokenize source file = .ok tokens ∧
      tokens.map Located.value = ts := by
  have hs := TokenStream.ofSource_plain h.head?_ne file
  have hr : (TokenStream.ofSource source file).rest = source.toList := by rw [hs]
  have hb : source.toList.length ≤ (TokenStream.ofSource source file).rest.length :=
    Nat.le_of_eq (congrArg List.length hr.symm)
  obtain ⟨tokens, ht, hv⟩ := TokenStream.take_of_spelled h hr hb
  exact ⟨tokens, mapM_id_eq_ok_iff.mpr ht, hv⟩

theorem legible_of_tokenize {source : String} {file : FileId} {tokens : List (Located Token)}
    (h : tokenize source file = .ok tokens) : ∀ t ∈ tokens.map Located.value, t.Legible := by
  have hi : (TokenStream.ofSource source file).items = tokens.map .ok := mapM_id_eq_ok_iff.mp h
  intro t ht
  obtain ⟨token, hm, rfl⟩ := List.mem_map.mp ht
  have hit : .ok token ∈ (TokenStream.ofSource source file).items := hi ▸ List.mem_map_of_mem hm
  exact TokenStream.legible_of_take hit

end FrontEnd
