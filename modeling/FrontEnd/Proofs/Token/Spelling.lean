import FrontEnd.Printer.Literal
import FrontEnd.Proofs.FirstMaximum
import FrontEnd.Proofs.Syntax.WellFormed
import FrontEnd.Proofs.Token.Characters

/-! Each token has a spelling that is read back as the token, whatever follows that cannot be taken
for more of it. -/
namespace FrontEnd

/-- The text does not start with such a character. -/
def NotNext (p : Char → Bool) (text : List Char) : Prop := ∀ c ∈ text.head?, p c = false

theorem NotNext.mono {p q : Char → Bool} {text : List Char} (h : NotNext q text)
    (hpq : ∀ c, q c = false → p c = false) : NotNext p text := fun c hc => hpq c (h c hc)

/-- A word all of whose characters are of a kind ends where that kind ends. -/
theorem prefix_of_notNext {p : Char → Bool} {word text rest : List Char}
    (hw : ∀ c ∈ word, p c = true) (h : word <+: text ++ rest) (hr : NotNext p rest) :
    word <+: text := by
  induction text generalizing word with
  | nil =>
    cases word with
    | nil => exact List.prefix_rfl
    | cons c word =>
      obtain ⟨tail, rfl⟩ := h
      have := hr c rfl
      simp [hw c List.mem_cons_self] at this
  | cons d text ih =>
    cases word with
    | nil => exact List.nil_prefix
    | cons c word =>
      obtain ⟨rfl, ht⟩ := List.cons_prefix_cons.mp h
      exact List.cons_prefix_cons.mpr ⟨rfl, ih (fun c hc => hw c (List.mem_cons_of_mem _ hc)) ht⟩

theorem takeWhile_of_notNext {p : Char → Bool} {run rest : List Char}
    (hw : ∀ c ∈ run, p c = true) (hr : NotNext p rest) : (run ++ rest).takeWhile p = run := by
  rw [List.takeWhile_append_of_pos hw]
  cases rest with
  | nil => simp
  | cons c rest => simp [hr c rfl]

theorem IsDigits.head {digits : List Char} (h : IsDigits digits) :
    ∃ c tail, digits = c :: tail ∧ c.isDigit = true := by
  obtain ⟨c, tail, rfl⟩ := List.exists_cons_of_ne_nil h.1
  exact ⟨c, tail, rfl, h.2 c List.mem_cons_self⟩

theorem IsNumeral.head {value : String} (h : IsNumeral value) :
    ∃ c tail, value.toList = c :: tail ∧ c.isDigit = true := by
  rcases h with hd | ⟨whole, fraction, hw, -, hv⟩
  · exact hd.head
  · obtain ⟨c, tail, rfl, hc⟩ := hw.head
    exact ⟨c, tail ++ '.' :: fraction, hv, hc⟩

/-- The text that is written for the token. -/
def Token.spelling : Token → List Char
  | .identifier name => (Printer.name name).toList
  | .numeric value unit => value.toList ++ (unit.getD "").toList
  | .textual value unit => (Printer.text value).toList ++ (unit.getD "").toList
  | .keyword word => word.text.toList
  | .operator symbol => symbol.text.toList
  | .delimiter symbol => symbol.text.toList

/-- What follows cannot be taken for more of the token. -/
def Token.Apart : Token → List Char → Prop
  | .operator _, rest => NotNext Operator.isSymbol rest
  | .delimiter _, _ => True
  | _, rest => NotNext (fun c => Lexeme.continuesName c || c == '.') rest

namespace Lexeme

variable {α : Type} {symbols : List α} {text : α → String} {s : α} {c : Char}
  {run rest input : List Char}

/-! Each class of tokens reads nothing where its first characters are not. -/

theorem longestMatch?_eq_none (h : ∀ x ∈ symbols, ¬ (text x).toList <+: input) :
    longestMatch? symbols text input = none := by
  have hf : (symbols.filter fun x => (text x).toList.isPrefixOf input) = [] := by
    simpa using h
  rw [longestMatch?, hf]
  rfl

theorem longestMatch?_eq_some (hs : s ∈ symbols) (hp : (text s).toList <+: input)
    (hb : ∀ x ∈ symbols, (text x).toList <+: input →
      x = s ∨ (text x).toList.length < (text s).toList.length) :
    longestMatch? symbols text input = some s := by
  apply maxOn?_of_best
  · simpa using ⟨hs, hp⟩
  · intro x hx
    simp only [List.mem_filter, List.isPrefixOf_iff_prefix] at hx
    exact hb x hx.1 hx.2

/-- Among symbols of one kind of character, the one that ends where the kind ends is taken. -/
theorem longestMatch?_of_notNext {p : Char → Bool} (hs : s ∈ symbols)
    (hk : (symbols.all fun x => (text x).toList.all p) = true)
    (hi : ∀ x ∈ symbols, (text x).toList = (text s).toList → x = s) (hr : NotNext p rest) :
    longestMatch? symbols text ((text s).toList ++ rest) = some s := by
  refine longestMatch?_eq_some hs (List.prefix_append _ _) fun x hx hp => ?_
  have hall := List.all_eq_true.mp (List.all_eq_true.mp hk x hx)
  have hp := prefix_of_notNext hall hp hr
  rcases Nat.lt_or_ge (text x).toList.length (text s).toList.length with hl | hl
  · exact Or.inr hl
  · exact Or.inl (hi x hx (hp.eq_of_length_le hl))

theorem symbol_eq_none {token : α → Token} {p : Char → Bool}
    (hk : (symbols.all fun x => (text x).toList.head?.any p) = true) (hc : p c = false) :
    symbol symbols text token (c :: rest) = .ok none := by
  have hn : longestMatch? symbols text (c :: rest) = none := by
    refine longestMatch?_eq_none fun x hx hp => ?_
    obtain ⟨d, hd, hpd⟩ := (Option.any_eq_true _ _).mp (List.all_eq_true.mp hk x hx)
    obtain ⟨tail, ht⟩ := List.head?_eq_some_iff.mp hd
    rw [ht] at hp
    obtain ⟨rfl, -⟩ := List.cons_prefix_cons.mp hp
    simp [hpd] at hc
  rw [symbol, hn]
  rfl

theorem keyword_eq_none (h : startsName c = false) :
    symbol Keyword.all Keyword.text .keyword (c :: rest) = .ok none :=
  symbol_eq_none (p := startsName) (by decide) h

theorem operator_eq_none (h : Operator.isSymbol c = false) :
    symbol Operator.all Operator.text .operator (c :: rest) = .ok none :=
  symbol_eq_none (p := Operator.isSymbol) (by decide) h

theorem delimiter_eq_none (h : Delimiter.isMark c = false) :
    symbol Delimiter.all Delimiter.text .delimiter (c :: rest) = .ok none :=
  symbol_eq_none (p := Delimiter.isMark) (by decide) h

theorem number_eq_none (h : c.isDigit = false) : number (c :: rest) = .ok none := by
  simp [number, h]

theorem quotedText_eq_none (h : c ≠ '"') : quotedText (c :: rest) = .ok none := by
  unfold quotedText
  split
  · next hc => cases hc; exact (h rfl).elim
  · rfl

theorem name_eq_none (h : startsName c = false) (hb : c ≠ '\x60') :
    name (c :: rest) = .ok none := by
  unfold name
  split
  · next hc => cases hc; exact (hb rfl).elim
  · simp [nameRun, h]

/-! Names and units. -/

theorem nameRun_append (h : IsNameRun run) (hr : NotNext continuesName rest) :
    nameRun (run ++ rest) = run := by
  cases run with
  | nil => exact h.elim
  | cons c run => simp [nameRun, h.1, takeWhile_of_notNext h.2 hr]

theorem nameRun_eq_nil (hr : NotNext continuesName rest) : nameRun rest = [] := by
  cases rest with
  | nil => rfl
  | cons c rest => simp [nameRun, not_startsName (hr c rfl)]

theorem nameRun_unit {unit : Option String} (h : IsUnit unit) (hr : NotNext continuesName rest) :
    nameRun ((unit.getD "").toList ++ rest) = (unit.getD "").toList := by
  cases unit with
  | none => exact nameRun_eq_nil hr
  | some name => exact nameRun_append (h name rfl) hr

theorem unit?_unit {unit : Option String} (h : IsUnit unit) :
    unit? (unit.getD "").toList = unit := by
  cases unit with
  | none => rfl
  | some name =>
    have hn := h name rfl
    unfold unit?
    split
    · next he =>
      rw [show name.toList = [] from he] at hn
      exact hn.elim
    · simp

/-- A unit starts with no digit and no point, and nor does what follows if there is no unit. -/
theorem notNext_unit {unit : Option String} (h : IsUnit unit)
    (hr : NotNext (fun c => continuesName c || c == '.') rest) :
    NotNext (fun c => c.isDigit || c == '.') ((unit.getD "").toList ++ rest) := by
  cases unit with
  | none =>
    refine hr.mono fun c hc => ?_
    simp only [Bool.or_eq_false_iff] at hc ⊢
    exact ⟨not_isDigit hc.1, hc.2⟩
  | some name =>
    intro c hc
    have hn := h name rfl
    change c ∈ (name.toList ++ rest).head? at hc
    cases hl : name.toList with
    | nil => simp [hl, IsNameRun] at hn
    | cons d run =>
      simp only [hl, IsNameRun] at hn hc
      cases hc
      have hd : c.isDigit = false := by
        cases hd : c.isDigit with
        | false => rfl
        | true => simp [not_startsName_of_isDigit hd] at hn
      have hp : c ≠ '.' := by
        rintro rfl
        exact absurd hn.1 (by decide)
      simp [hd, hp]

/-! Literals. -/

theorem fraction_eq_nil (hr : NotNext (fun c => c.isDigit || c == '.') rest) :
    fraction rest = [] := by
  unfold fraction
  split
  · simpa using hr _ rfl
  · rfl

theorem fraction_append {digits : List Char} (hd : IsDigits digits)
    (hr : NotNext (fun c => c.isDigit || c == '.') rest) :
    fraction ('.' :: (digits ++ rest)) = '.' :: digits := by
  have hn : NotNext Char.isDigit rest := hr.mono fun c hc => (Bool.or_eq_false_iff.mp hc).1
  simp only [fraction, takeWhile_of_notNext hd.2 hn]
  split
  · exact (hd.1 rfl).elim
  · rfl

/-- The digits and the fraction behind them, by how far each of them goes. -/
theorem number_append {value run : List Char} {unit : Option String} (hd : IsDigits run)
    {tail : List Char} (hv : value = run ++ tail)
    (ht : NotNext Char.isDigit (tail ++ ((unit.getD "").toList ++ rest)))
    (hf : fraction (tail ++ ((unit.getD "").toList ++ rest)) = tail) (hu : IsUnit unit)
    (hr : NotNext continuesName rest) :
    number (value ++ (unit.getD "").toList ++ rest) =
      .ok (some ⟨.numeric (String.ofList value) unit, value ++ (unit.getD "").toList⟩) := by
  subst hv
  have hw : (run ++ tail ++ (unit.getD "").toList ++ rest).takeWhile Char.isDigit = run := by
    rw [List.append_assoc, List.append_assoc, takeWhile_of_notNext hd.2 ht]
  have hdrop : (run ++ tail ++ (unit.getD "").toList ++ rest).drop run.length =
      tail ++ ((unit.getD "").toList ++ rest) := by
    rw [List.append_assoc, List.append_assoc, List.drop_left]
  have hdrop' : (run ++ tail ++ (unit.getD "").toList ++ rest).drop (run ++ tail).length =
      (unit.getD "").toList ++ rest := by
    rw [List.append_assoc (run ++ tail), List.drop_left]
  unfold number
  rw [hw]
  split
  · exact (hd.1 rfl).elim
  · simp only [hdrop, hf, hdrop', nameRun_unit hu hr, unit?_unit hu]

theorem number_spelling {value : String} {unit : Option String} (hv : IsNumeral value)
    (hu : IsUnit unit) (hr : NotNext (fun c => continuesName c || c == '.') rest) :
    number (value.toList ++ (unit.getD "").toList ++ rest) =
      .ok (some ⟨.numeric value unit, value.toList ++ (unit.getD "").toList⟩) := by
  have hr' : NotNext continuesName rest := hr.mono fun c hc => (Bool.or_eq_false_iff.mp hc).1
  have hn := notNext_unit hu hr
  have hnd : NotNext Char.isDigit ((unit.getD "").toList ++ rest) :=
    hn.mono fun c hc => (Bool.or_eq_false_iff.mp hc).1
  rcases hv with hd | ⟨whole, digits, hw, hd, hv⟩
  · simpa using number_append hd (List.append_nil _).symm hnd (fraction_eq_nil hn) hu hr'
  · have hp : NotNext Char.isDigit ('.' :: digits ++ ((unit.getD "").toList ++ rest)) := by
      rintro c ⟨⟩
      decide
    simpa using number_append hw hv hp (fraction_append hd hn) hu hr'

/-- Each character comes back from its escape. -/
theorem quotedBody?_escaped (c : Char) (rest : List Char) :
    quotedBody? ((Printer.escaped c).toList ++ rest) =
      (quotedBody? rest).map fun body => (c :: body.1, (Printer.escaped c).toList ++ body.2) := by
  unfold Printer.escaped
  split
  · next hc => subst hc; simp [quotedBody?, unescape]
  split
  · next hc => subst hc; simp [quotedBody?, unescape]
  split
  · next hc => subst hc; simp [quotedBody?, unescape]
  split
  · next hc => subst hc; simp [quotedBody?, unescape]
  split
  · next hc => subst hc; simp [quotedBody?, unescape]
  · next _ hb _ _ _ => simp [quotedBody?, hb]

theorem quotedBody?_of_escaped (chars rest : List Char) :
    quotedBody? (chars.flatMap (fun c => (Printer.escaped c).toList) ++ '"' :: rest) =
      some (chars, chars.flatMap (fun c => (Printer.escaped c).toList) ++ ['"']) := by
  induction chars with
  | nil => simp [quotedBody?]
  | cons c chars ih => simp [quotedBody?_escaped, ih]

theorem quotedText_spelling (value : String) {unit : Option String} (hu : IsUnit unit)
    (hr : NotNext continuesName rest) :
    quotedText ((Printer.text value).toList ++ (unit.getD "").toList ++ rest) =
      .ok (some ⟨.textual value unit, (Printer.text value).toList ++ (unit.getD "").toList⟩) := by
  have hs : (Printer.text value).toList =
      '"' :: (value.toList.flatMap (fun c => (Printer.escaped c).toList) ++ ['"']) := by
    simp [Printer.text, List.flatMap_map]
  generalize hb : value.toList.flatMap (fun c => (Printer.escaped c).toList) = body at hs
  have hq : quotedBody? (body ++ '"' :: ((unit.getD "").toList ++ rest)) =
      some (value.toList, body ++ ['"']) := hb ▸ quotedBody?_of_escaped _ _
  have hd : (body ++ '"' :: ((unit.getD "").toList ++ rest)).drop (body ++ ['"']).length =
      (unit.getD "").toList ++ rest := by
    rw [List.append_cons body '"' ((unit.getD "").toList ++ rest), List.drop_left]
  rw [hs, List.cons_append, List.cons_append, List.append_assoc, List.append_assoc,
    List.singleton_append, quotedText, hq]
  simp only [hd, nameRun_unit hu hr, unit?_unit hu, String.ofList_toList]

theorem ne_backtick_of_startsName (h : startsName c = true) : c ≠ '\x60' := by
  rintro rfl
  exact absurd h (by decide)

theorem name_of_run (h : IsNameRun run) (hr : NotNext continuesName rest) :
    name (run ++ rest) = .ok (some ⟨.identifier (String.ofList run), run⟩) := by
  have hn := nameRun_append h hr
  cases run with
  | nil => exact h.elim
  | cons c run =>
    unfold name
    split
    · next hc =>
      cases hc
      exact (ne_backtick_of_startsName h.1 rfl).elim
    · rw [hn]

theorem name_of_quoted {text : List Char} (h : '\x60' ∉ text) (rest : List Char) :
    name ('\x60' :: (text ++ '\x60' :: rest)) =
      .ok (some ⟨.identifier (String.ofList text), '\x60' :: (text ++ ['\x60'])⟩) := by
  have ht : (text ++ '\x60' :: rest).takeWhile (· ≠ '\x60') = text := by
    refine takeWhile_of_notNext ?_ ?_
    · intro c hc
      simp only [decide_not, Bool.not_eq_true', decide_eq_false_iff_not]
      rintro rfl
      exact h hc
    · rintro c ⟨⟩
      rfl
  unfold name
  simp only [ht]
  exact if_pos (by simp)

/-! The reading of each token. -/

theorem symbol_of_match (token : α → Token) (h : longestMatch? symbols text input = some s) :
    symbol symbols text token input = .ok (some ⟨token s, (text s).toList⟩) := by
  rw [symbol, h]
  rfl

/-- What is read, by what each class reads. -/
theorem read_of_readings {k o d n q m : Option Lexeme} {lexeme : Lexeme}
    (hk : symbol Keyword.all Keyword.text .keyword input = .ok k)
    (ho : symbol Operator.all Operator.text .operator input = .ok o)
    (hd : symbol Delimiter.all Delimiter.text .delimiter input = .ok d)
    (hn : number input = .ok n) (hq : quotedText input = .ok q) (hm : name input = .ok m)
    (h : ([k, o, d, n, q, m].filterMap id).maxOn? (Text.byteSize ·.text) = some lexeme) :
    read input = .ok lexeme := by
  have hl : (classes.map (· input)).filterMap Reading.lexeme? =
      [k, o, d, n, q, m].filterMap id := by
    simp only [classes, List.map_cons, List.map_nil, hk, ho, hd, hn, hq, hm]
    rfl
  simp only [read, hl, h]

theorem read_operator (op : Operator) (hr : NotNext Operator.isSymbol rest) :
    read (op.text.toList ++ rest) = .ok ⟨.operator op, op.text.toList⟩ := by
  have hinj : ∀ x ∈ Operator.all, ∀ y ∈ Operator.all, x.text.toList = y.text.toList → x = y := by
    decide +kernel
  have hop : op ∈ Operator.all := by cases op <;> decide
  have hm : longestMatch? Operator.all Operator.text (op.text.toList ++ rest) = some op :=
    longestMatch?_of_notNext hop (by decide) (fun x hx => hinj x hx op hop) hr
  have hs := symbol_of_match .operator hm
  obtain ⟨c, tail, ht, hc⟩ : ∃ c tail, op.text.toList = c :: tail ∧ Operator.isSymbol c = true := by
    cases op <;> exact ⟨_, _, rfl, by decide⟩
  have hsp := special_of_isSymbol hc
  have hn := not_startsName hsp.not_continuesName
  rw [ht, List.cons_append] at hs ⊢
  exact read_of_readings (keyword_eq_none hn) hs (delimiter_eq_none (not_isMark_of_isSymbol hc))
    (number_eq_none (not_isDigit hsp.not_continuesName)) (quotedText_eq_none hsp.ne_quote)
    (name_eq_none hn hsp.ne_backtick) rfl

theorem read_delimiter (d : Delimiter) (rest : List Char) :
    read (d.text.toList ++ rest) = .ok ⟨.delimiter d, d.text.toList⟩ := by
  have hinj : ∀ x ∈ Delimiter.all, ∀ y ∈ Delimiter.all, x.text.toList = y.text.toList → x = y := by
    decide +kernel
  have hlen : ∀ x ∈ Delimiter.all, x.text.toList.length = 1 := by decide
  have hd : d ∈ Delimiter.all := by cases d <;> decide
  have hm : longestMatch? Delimiter.all Delimiter.text (d.text.toList ++ rest) = some d := by
    refine longestMatch?_eq_some hd (List.prefix_append _ _) fun x hx hp => Or.inl ?_
    have hp := List.prefix_of_prefix_length_le hp (List.prefix_append d.text.toList rest)
      (Nat.le_of_eq ((hlen x hx).trans (hlen d hd).symm))
    exact hinj x hx d hd (hp.eq_of_length (by rw [hlen x hx, hlen d hd]))
  have hs := symbol_of_match .delimiter hm
  obtain ⟨c, tail, ht, hc⟩ : ∃ c tail, d.text.toList = c :: tail ∧ Delimiter.isMark c = true := by
    cases d <;> exact ⟨_, _, rfl, by decide⟩
  have hsp := special_of_isMark hc
  have hn := not_startsName hsp.not_continuesName
  rw [ht, List.cons_append] at hs ⊢
  exact read_of_readings (keyword_eq_none hn) (operator_eq_none (not_isSymbol_of_isMark hc)) hs
    (number_eq_none (not_isDigit hsp.not_continuesName)) (quotedText_eq_none hsp.ne_quote)
    (name_eq_none hn hsp.ne_backtick) rfl

theorem read_number {value : String} {unit : Option String} (hv : IsNumeral value)
    (hu : IsUnit unit) (hr : NotNext (fun c => continuesName c || c == '.') rest) :
    read (value.toList ++ (unit.getD "").toList ++ rest) =
      .ok ⟨.numeric value unit, value.toList ++ (unit.getD "").toList⟩ := by
  have hs := number_spelling hv hu hr
  obtain ⟨c, tail, ht, hc⟩ := hv.head
  have hcn := continuesName_of_isDigit hc
  have hq : c ≠ '"' := by
    rintro rfl
    exact absurd hc (by decide)
  have hb : c ≠ '\x60' := by
    rintro rfl
    exact absurd hc (by decide)
  have hn := not_startsName_of_isDigit hc
  rw [ht, List.cons_append, List.cons_append] at hs ⊢
  exact read_of_readings (keyword_eq_none hn)
    (operator_eq_none (not_isSymbol_of_continuesName hcn))
    (delimiter_eq_none (not_isMark_of_continuesName hcn)) hs (quotedText_eq_none hq)
    (name_eq_none hn hb) rfl

theorem read_quotedText {value : String} {unit : Option String} (hu : IsUnit unit)
    (hr : NotNext continuesName rest) :
    read ((Printer.text value).toList ++ (unit.getD "").toList ++ rest) =
      .ok ⟨.textual value unit, (Printer.text value).toList ++ (unit.getD "").toList⟩ := by
  have hs := quotedText_spelling value hu hr
  obtain ⟨tail, ht⟩ : ∃ tail, (Printer.text value).toList = '"' :: tail := by
    simp [Printer.text]
  rw [ht, List.cons_append, List.cons_append] at hs ⊢
  exact read_of_readings (keyword_eq_none (by decide)) (operator_eq_none (by decide))
    (delimiter_eq_none (by decide)) (number_eq_none (by decide)) hs
    (name_eq_none (by decide) (by decide)) rfl

theorem of_longestMatch? (h : longestMatch? symbols text input = some s) :
    s ∈ symbols ∧ (text s).toList <+: input := by
  simpa using List.maxOn?_mem h

theorem special_none (rest : List Char) (hc : startsName c = true) :
    symbol Operator.all Operator.text .operator (c :: rest) = .ok none ∧
    symbol Delimiter.all Delimiter.text .delimiter (c :: rest) = .ok none ∧
    number (c :: rest) = .ok none ∧ quotedText (c :: rest) = .ok none := by
  have hn := continuesName_of_startsName hc
  refine ⟨operator_eq_none (not_isSymbol_of_continuesName hn),
    delimiter_eq_none (not_isMark_of_continuesName hn), number_eq_none ?_, quotedText_eq_none ?_⟩
  · cases hd : c.isDigit with
    | false => rfl
    | true => simp [not_startsName_of_isDigit hd] at hc
  · rintro rfl
    exact absurd hc (by decide)

theorem keyword_continuesName :
    (Keyword.all.all fun word => word.text.toList.all continuesName) = true := by
  decide

theorem read_keyword (word : Keyword) (hr : NotNext continuesName rest) :
    read (word.text.toList ++ rest) = .ok ⟨.keyword word, word.text.toList⟩ := by
  have hinj : ∀ x ∈ Keyword.all, ∀ y ∈ Keyword.all, x.text.toList = y.text.toList → x = y := by
    decide +kernel
  have hw : word ∈ Keyword.all := by cases word <;> decide
  have hm : longestMatch? Keyword.all Keyword.text (word.text.toList ++ rest) = some word :=
    longestMatch?_of_notNext hw keyword_continuesName (fun x hx => hinj x hx word hw) hr
  have hs := symbol_of_match .keyword hm
  have hrun : IsNameRun word.text.toList := by cases word <;> decide
  have hname := name_of_run hrun hr
  obtain ⟨c, tail, ht⟩ : ∃ c tail, word.text.toList = c :: tail := by
    cases word <;> exact ⟨_, _, rfl⟩
  rw [ht] at hrun
  obtain ⟨ho, hd, hn, hq⟩ := special_none (tail ++ rest) hrun.1
  rw [ht, List.cons_append] at hs hname ⊢
  -- The same text is a name, and the keyword is preferred.
  refine read_of_readings hs ho hd hn hq hname (maxOn?_cons_of_le ?_)
  simp

theorem read_name {run : List Char} (h : IsNameRun run)
    (hk : ∀ word ∈ Keyword.all, word.text.toList ≠ run) (hr : NotNext continuesName rest) :
    read (run ++ rest) = .ok ⟨.identifier (String.ofList run), run⟩ := by
  have hname := name_of_run h hr
  obtain ⟨c, tail, rfl⟩ : ∃ c tail, run = c :: tail := by
    cases run with
    | nil => exact h.elim
    | cons c tail => exact ⟨c, tail, rfl⟩
  obtain ⟨ho, hd, hn, hq⟩ := special_none (tail ++ rest) h.1
  cases hm : longestMatch? Keyword.all Keyword.text (c :: tail ++ rest) with
  | none =>
    have hs : symbol Keyword.all Keyword.text .keyword (c :: tail ++ rest) = .ok none := by
      rw [symbol, hm]
      rfl
    exact read_of_readings hs ho hd hn hq hname rfl
  | some word =>
    apply read_of_readings (symbol_of_match .keyword hm) ho hd hn hq hname
    obtain ⟨hw, hp⟩ := of_longestMatch? hm
    have hall := List.all_eq_true.mp (List.all_eq_true.mp keyword_continuesName word hw)
    obtain ⟨more, hmore⟩ := prefix_of_notNext hall hp hr
    have hlt : Text.byteSize word.text.toList < Text.byteSize (c :: tail) := by
      rw [← hmore, Text.byteSize_append]
      cases more with
      | nil => exact (hk word hw (by simpa using hmore)).elim
      | cons d more =>
        have := d.utf8Size_pos
        rw [Text.byteSize_cons]
        omega
    apply maxOn?_of_best
    · simp
    · intro lexeme hl
      simp only [List.filterMap_cons, id_eq, List.filterMap_nil, List.mem_cons,
        List.not_mem_nil, or_false] at hl
      rcases hl with rfl | rfl
      · exact Or.inr hlt
      · exact Or.inl rfl

theorem read_identifier {name : String} (h : IsName name) (hr : NotNext continuesName rest) :
    read ((Printer.name name).toList ++ rest) =
      .ok ⟨.identifier name, (Printer.name name).toList⟩ := by
  unfold Printer.name
  split
  · next hp =>
    unfold Printer.isPlainName at hp
    split at hp
    · cases hp
    · next c tail ht =>
      simp only [Bool.and_eq_true, List.all_eq_true, Bool.not_eq_true', List.any_eq_false,
        beq_iff_eq] at hp
      have hrun : IsNameRun name.toList := by
        rw [ht]
        exact hp.1
      have hk : ∀ word ∈ Keyword.all, word.text.toList ≠ name.toList := by
        intro word hw he
        exact hp.2 word hw (String.toList_inj.mp he)
      have h := read_name hrun hk hr
      rwa [String.ofList_toList] at h
  · have hs : ("\x60" ++ name ++ "\x60").toList = '\x60' :: (name.toList ++ ['\x60']) := by
      simp
    rw [hs, List.cons_append, List.append_assoc, List.singleton_append]
    have hn := name_of_quoted h rest
    rw [String.ofList_toList] at hn
    exact read_of_readings (keyword_eq_none (by decide)) (operator_eq_none (by decide))
      (delimiter_eq_none (by decide)) (number_eq_none (by decide))
      (quotedText_eq_none (by decide)) hn rfl

/-- Each token is read back from its spelling. -/
theorem read_spelling {t : Token} (ht : t.Legible) (hr : t.Apart rest) :
    read (t.spelling ++ rest) = .ok ⟨t, t.spelling⟩ := by
  have hword (h : NotNext (fun c => continuesName c || c == '.') rest) :
      NotNext continuesName rest := h.mono fun c hc => (Bool.or_eq_false_iff.mp hc).1
  cases t with
  | identifier name => exact read_identifier ht (hword hr)
  | numeric value unit => exact read_number ht.1 ht.2 hr
  | textual value unit => exact read_quotedText ht (hword hr)
  | keyword word => exact read_keyword word (hword hr)
  | operator symbol => exact read_operator symbol hr
  | delimiter symbol => exact read_delimiter symbol rest

end Lexeme

end FrontEnd
