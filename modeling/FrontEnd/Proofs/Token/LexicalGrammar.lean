import FrontEnd.Proofs.Text.Cut
import FrontEnd.Proofs.Token.Stream

/-! The texts of tokens, apart from how they are found, and that each class of tokens reads nothing
but texts of its tokens. -/
namespace FrontEnd

/-- What a backslash and the character behind it stand for. -/
inductive EscapeOf : Char → List Char → Prop
  | lineFeed : EscapeOf 'n' ['\n']
  | tab : EscapeOf 't' ['\t']
  | carriageReturn : EscapeOf 'r' ['\r']
  | quote : EscapeOf '"' ['"']
  | backslash : EscapeOf '\\' ['\\']
  | other {c : Char} (h : c ∉ ['n', 't', 'r', '"', '\\']) : EscapeOf c ['\\', c]

/-- A text between quotes, and the value that it is written for. -/
inductive QuotedOf : List Char → List Char → Prop
  | nil : QuotedOf [] []
  | plain {c : Char} {text value : List Char} (hq : c ≠ '"') (hb : c ≠ '\\')
      (h : QuotedOf text value) : QuotedOf (c :: text) (c :: value)
  | escape {c : Char} {decoded text value : List Char} (hc : EscapeOf c decoded)
      (h : QuotedOf text value) : QuotedOf ('\\' :: c :: text) (decoded ++ value)

/-- The texts that a token may have. A unit stands directly behind its literal. -/
inductive LexemeOf : List Char → Token → Prop
  | keyword (word : Keyword) : LexemeOf word.text.toList (.keyword word)
  | operator (symbol : Operator) : LexemeOf symbol.text.toList (.operator symbol)
  | delimiter (symbol : Delimiter) : LexemeOf symbol.text.toList (.delimiter symbol)
  | numeric {value : String} {unit : Option String} (hv : IsNumeral value) (hu : IsUnit unit) :
      LexemeOf (value.toList ++ (unit.getD "").toList) (.numeric value unit)
  | textual {text value : List Char} {unit : Option String} (ht : QuotedOf text value)
      (hu : IsUnit unit) :
      LexemeOf ('"' :: (text ++ '"' :: (unit.getD "").toList)) (.textual (String.ofList value) unit)
  | name {run : List Char} (hr : IsNameRun run) : LexemeOf run (.identifier (String.ofList run))
  | quotedName {text : List Char} (ht : '\x60' ∉ text) :
      LexemeOf ('\x60' :: (text ++ ['\x60'])) (.identifier (String.ofList text))

/-- Of the texts of tokens that the input starts with, `text` is the longest. A name that is a
keyword is the keyword. -/
structure Longest (input text : List Char) (t : Token) : Prop where
  lexeme : LexemeOf text t
  starts : text <+: input
  maximal : ∀ longer t', LexemeOf longer t' → longer <+: input → longer.length ≤ text.length
  preferred : ∀ word : Keyword, word.text.toList = text → t = .keyword word

/-- The input starts with no token. -/
def Stuck (input : List Char) : Prop := ∀ text t, LexemeOf text t → ¬ text <+: input

/-- What is wrong where no token starts, and how many bytes of the input that concerns: a literal
that has begun and does not end concerns all of it. -/
inductive ComplaintOf : List Char → LexErrorKind → Nat → Prop
  | text (rest : List Char) :
      ComplaintOf ('"' :: rest) .unterminatedText (Text.byteSize ('"' :: rest))
  | name (rest : List Char) :
      ComplaintOf ('\x60' :: rest) .unterminatedIdentifier (Text.byteSize ('\x60' :: rest))
  | character {c : Char} (rest : List Char) (hq : c ≠ '"') (hb : c ≠ '\x60') :
      ComplaintOf (c :: rest) (.unexpectedCharacter c) c.utf8Size

/-! Beginnings of one text. -/

/-- Two parts are as long as two others if the first is, and the second where it counts. -/
theorem prefix_append_of {x x' y y' : List Char} (hx : x <+: x')
    (hy : y ≠ [] → x = x' ∧ y <+: y') :
    x ++ y <+: x' ++ y' ∧ (x' ++ y' = x ++ y → x' = x ∧ y' = y) := by
  by_cases hn : y = []
  · subst hn
    rw [List.append_nil]
    refine ⟨hx.trans (List.prefix_append x' y'), fun he => ?_⟩
    have hl := congrArg List.length he
    rw [List.length_append] at hl
    have hx' := hx.eq_of_length_le (by omega)
    subst hx'
    exact ⟨rfl, by simpa using he⟩
  · obtain ⟨rfl, hp⟩ := hy hn
    exact ⟨(List.prefix_append_right_inj x).mpr hp, fun he => ⟨rfl, List.append_cancel_left he⟩⟩

theorem notNext_dropWhile (p : Char → Bool) (text : List Char) : NotNext p (text.dropWhile p) := by
  intro c hc
  have := List.head?_dropWhile_not p text
  rw [Option.mem_def.mp hc] at this
  simpa using this

/-- A run of one kind goes no further than the kind does. -/
theorem prefix_takeWhile {p : Char → Bool} {run text : List Char} (hr : ∀ c ∈ run, p c = true)
    (h : run <+: text) : run <+: text.takeWhile p := by
  rw [← List.takeWhile_append_dropWhile (p := p) (l := text)] at h
  exact prefix_of_notNext hr h (notNext_dropWhile p text)

/-- A run of one kind ends where a character of another kind follows. -/
theorem takeWhile_eq_of_isPrefix {p : Char → Bool} {run more text : List Char}
    (hr : ∀ c ∈ run, p c = true) (hm : more ≠ []) (hn : NotNext p more)
    (h : run ++ more <+: text) : text.takeWhile p = run := by
  obtain ⟨rest, rfl⟩ := h
  rw [List.append_assoc]
  refine takeWhile_of_notNext hr ?_
  cases more with
  | nil => exact (hm rfl).elim
  | cons c more => exact hn

namespace Lexeme

variable {α : Type} {symbols : List α} {text : α → String} {token : α → Token} {s : α}
  {input run tail : List Char} {lexeme : Lexeme} {t : Token} {c : Char}

/-! What each class reads is a token of the class. -/

theorem of_symbol (h : symbol symbols text token input = .ok (some lexeme)) :
    ∃ s ∈ symbols, (text s).toList <+: input ∧ lexeme = ⟨token s, (text s).toList⟩ := by
  rw [symbol, Except.ok.injEq, Option.map_eq_some_iff] at h
  obtain ⟨s, hs, rfl⟩ := h
  obtain ⟨hm, hp⟩ := of_longestMatch? hs
  exact ⟨s, hm, hp, rfl⟩

theorem fraction_isPrefix (tail : List Char) : fraction tail <+: tail := by
  unfold fraction
  split
  · split
    · exact List.nil_prefix
    · exact List.cons_prefix_cons.mpr ⟨rfl, List.takeWhile_prefix _⟩
  · exact List.nil_prefix

theorem nameRun_isPrefix (input : List Char) : nameRun input <+: input := by
  cases input with
  | nil => exact List.nil_prefix
  | cons c rest =>
    rw [nameRun]
    split
    · exact List.cons_prefix_cons.mpr ⟨rfl, List.takeWhile_prefix _⟩
    · exact List.nil_prefix

@[simp] theorem toList_unit? (run : List Char) : ((unit? run).getD "").toList = run := by
  cases run <;> simp [unit?]

/-- A number by its parts: digits, what follows them up to the unit, and the unit. -/
theorem number_append_tail (hd : IsDigits run) (ht : NotNext Char.isDigit tail) :
    number (run ++ tail) =
      .ok (some ⟨.numeric (String.ofList (run ++ fraction tail))
        (unit? (nameRun (tail.drop (fraction tail).length))),
        run ++ fraction tail ++ nameRun (tail.drop (fraction tail).length)⟩) := by
  have hdrop : (run ++ tail).drop (run ++ fraction tail).length =
      tail.drop (fraction tail).length := by
    rw [List.length_append, ← List.drop_drop, List.drop_left]
  unfold number
  rw [takeWhile_of_notNext hd.2 ht]
  split
  · exact (hd.1 rfl).elim
  · simp only [List.drop_left, hdrop]

/-- Whatever starts with digits splits into all of its digits and the rest. -/
theorem exists_digits (hd : IsDigits run) (h : run <+: input) :
    ∃ digits tail, input = digits ++ tail ∧ IsDigits digits ∧ NotNext Char.isDigit tail ∧
      run <+: digits := by
  have hp := prefix_takeWhile hd.2 h
  have hn : input.takeWhile Char.isDigit ≠ [] := fun he => hd.1 (List.prefix_nil.mp (he ▸ hp))
  exact ⟨_, _, List.takeWhile_append_dropWhile.symm, isDigits_takeWhile hn,
    notNext_dropWhile _ _, hp⟩

theorem of_number (h : number input = .ok (some lexeme)) :
    lexeme.text <+: input ∧ LexemeOf lexeme.text lexeme.token := by
  have hne : input.takeWhile Char.isDigit ≠ [] := by
    intro hn
    simp [number, hn] at h
  obtain ⟨run, tail, rfl, hd, ht, -⟩ :=
    exists_digits (isDigits_takeWhile hne) (List.takeWhile_prefix _)
  rw [number_append_tail hd ht] at h
  cases h
  have hp : fraction tail ++ nameRun (tail.drop (fraction tail).length) <+: tail := by
    obtain ⟨more, hm⟩ := fraction_isPrefix tail
    have hn := nameRun_isPrefix (tail.drop (fraction tail).length)
    generalize fraction tail = part at hm hn ⊢
    subst hm
    rw [List.drop_left] at hn ⊢
    exact (List.prefix_append_right_inj part).mpr hn
  have hv : IsNumeral (String.ofList (run ++ fraction tail)) := isNumeral_number hd
  have hl := LexemeOf.numeric hv (isUnit_unit? (tail.drop (fraction tail).length))
  rw [String.toList_ofList, toList_unit?] at hl
  refine ⟨?_, hl⟩
  rw [List.append_assoc]
  exact (List.prefix_append_right_inj run).mpr hp

theorem escapeOf_unescape (c : Char) : EscapeOf c (unescape c) := by
  unfold unescape
  split
  · exact .lineFeed
  · exact .tab
  · exact .carriageReturn
  · exact .quote
  · exact .backslash
  · exact .other (by simp_all)

theorem eq_unescape {decoded : List Char} (h : EscapeOf c decoded) : decoded = unescape c := by
  cases h with
  | other h =>
    simp only [List.mem_cons, List.not_mem_nil, or_false, not_or] at h
    unfold unescape
    split <;> simp_all
  | _ => rfl

theorem of_quotedBody? {body : List Char × List Char} (h : quotedBody? input = some body) :
    ∃ inside, body.2 = inside ++ ['"'] ∧ body.2 <+: input ∧ QuotedOf inside body.1 := by
  fun_induction quotedBody? input generalizing body with
  | case1 => cases h
  | case2 rest =>
    cases h
    exact ⟨[], rfl, ⟨rest, rfl⟩, .nil⟩
  | case3 c rest ih =>
    obtain ⟨⟨value, text⟩, hb, rfl⟩ := Option.map_eq_some_iff.mp h
    obtain ⟨inside, hi, hp, hq⟩ := ih hb
    dsimp only at hi hp hq ⊢
    exact ⟨'\\' :: c :: inside, by rw [hi]; rfl,
      List.cons_prefix_cons.mpr ⟨rfl, List.cons_prefix_cons.mpr ⟨rfl, hp⟩⟩,
      .escape (escapeOf_unescape c) hq⟩
  | case4 c rest hq hb ih =>
    obtain ⟨⟨value, text⟩, hr, rfl⟩ := Option.map_eq_some_iff.mp h
    obtain ⟨inside, hi, hp, hqo⟩ := ih hr
    dsimp only at hi hp hqo ⊢
    have hb' : c ≠ '\\' := by
      rintro rfl
      cases rest with
      | nil => cases hr
      | cons d rest => exact hb d rest rfl rfl
    exact ⟨c :: inside, by rw [hi]; rfl, List.cons_prefix_cons.mpr ⟨rfl, hp⟩, .plain hq hb' hqo⟩

theorem quotedBody?_of_quotedOf {inside value : List Char} (h : QuotedOf inside value)
    (rest : List Char) : quotedBody? (inside ++ '"' :: rest) = some (value, inside ++ ['"']) := by
  induction h with
  | nil => rfl
  | plain hq hb _ ih => simp [quotedBody?, ih, hb]
  | escape hc _ ih =>
    obtain rfl := eq_unescape hc
    simp [quotedBody?, ih]

theorem of_quotedText (h : quotedText input = .ok (some lexeme)) :
    lexeme.text <+: input ∧ LexemeOf lexeme.text lexeme.token := by
  unfold quotedText at h
  split at h
  · next rest =>
    split at h
    · cases h
    · next value text hb =>
      cases h
      obtain ⟨inside, rfl, ⟨more, rfl⟩, hq⟩ := of_quotedBody? hb
      have hl := LexemeOf.textual hq (isUnit_unit? more)
      rw [toList_unit?, List.append_cons] at hl
      rw [List.drop_left]
      exact ⟨List.cons_prefix_cons.mpr ⟨rfl,
        (List.prefix_append_right_inj _).mpr (nameRun_isPrefix more)⟩, hl⟩
  · cases h

theorem of_name (h : name input = .ok (some lexeme)) :
    lexeme.text <+: input ∧ LexemeOf lexeme.text lexeme.token := by
  unfold name at h
  split at h
  · next rest =>
    simp only at h
    split at h
    · next hl =>
      cases h
      have hn : '\x60' ∉ rest.takeWhile (· ≠ '\x60') := fun hb => by
        simpa using of_mem_takeWhile hb
      refine ⟨List.cons_prefix_cons.mpr ⟨rfl, ?_⟩, .quotedName hn⟩
      -- What ends the name is the backtick.
      have hd := notNext_dropWhile (· ≠ '\x60') rest
      have hs := List.takeWhile_append_dropWhile (p := (· ≠ '\x60')) (l := rest)
      cases hr : rest.dropWhile (· ≠ '\x60') with
      | nil =>
        rw [hr, List.append_nil] at hs
        rw [hs] at hl
        omega
      | cons c more =>
        rw [hr] at hs hd
        obtain rfl : c = '\x60' := by simpa using hd c rfl
        exact ⟨more, by rw [List.append_assoc]; exact hs⟩
    · cases h
  · split at h
    · cases h
    · next hne =>
      cases h
      exact ⟨nameRun_isPrefix input, .name (isNameRun_nameRun hne)⟩

theorem lexemeOf_of_class {cls : TokenClass} (hc : cls ∈ classes)
    (h : cls input = .ok (some lexeme)) :
    lexeme.text <+: input ∧ LexemeOf lexeme.text lexeme.token := by
  simp only [classes, List.mem_cons, List.not_mem_nil, or_false] at hc
  rcases hc with rfl | rfl | rfl | rfl | rfl | rfl
  · obtain ⟨word, -, hp, rfl⟩ := of_symbol h
    exact ⟨hp, .keyword word⟩
  · obtain ⟨op, -, hp, rfl⟩ := of_symbol h
    exact ⟨hp, .operator op⟩
  · obtain ⟨d, -, hp, rfl⟩ := of_symbol h
    exact ⟨hp, .delimiter d⟩
  · exact of_number h
  · exact of_quotedText h
  · exact of_name h

end Lexeme

end FrontEnd
