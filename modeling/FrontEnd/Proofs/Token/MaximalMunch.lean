import FrontEnd.Proofs.Token.LexicalGrammar

/-! Reading takes the longest text of a token. Each class of tokens reads as much as any of its
tokens could take, so the longest reading is the longest text that the input starts with. -/
namespace FrontEnd.Lexeme

variable {α : Type} {symbols : List α} {text : α → String} {token : α → Token} {s : α}
  {input run tail : List Char} {lexeme : Lexeme} {t : Token} {c : Char}

/-! Each class reads as far as any of its tokens goes. -/

/-- The class reads `text` at least, and reads it as `t` if it reads no more. -/
def Reaches (cls : TokenClass) (input text : List Char) (t : Token) : Prop :=
  ∃ lexeme, cls input = .ok (some lexeme) ∧ text <+: lexeme.text ∧
    (lexeme.text = text → lexeme.token = t)

theorem reaches_symbol (hs : s ∈ symbols)
    (hi : ∀ x ∈ symbols, ∀ y ∈ symbols, (text x).toList = (text y).toList → x = y)
    (hp : (text s).toList <+: input) :
    Reaches (symbol symbols text token) input (text s).toList (token s) := by
  have hmem : s ∈ symbols.filter fun x => (text x).toList.isPrefixOf input := by
    simpa using ⟨hs, hp⟩
  obtain ⟨found, hf⟩ := Option.isSome_iff_exists.mp (List.isSome_maxOn?_of_mem
    (f := fun x => (text x).toList.length) hmem)
  have hle := List.le_apply_get_maxOn?_of_mem (f := fun x => (text x).toList.length) hmem
  simp only [hf, Option.get_some] at hle
  obtain ⟨hm, hp'⟩ := of_longestMatch? hf
  exact ⟨_, symbol_of_match token hf, List.prefix_of_prefix_length_le hp hp' hle,
    fun he => congrArg token (hi found hm s hs he)⟩

theorem nameRun_of_isPrefix (hr : IsNameRun run) (h : run <+: input) : run <+: nameRun input := by
  obtain ⟨rest, rfl⟩ := h
  cases run with
  | nil => exact hr.elim
  | cons c run =>
    rw [List.cons_append, nameRun, if_pos hr.1]
    exact List.cons_prefix_cons.mpr ⟨rfl, prefix_takeWhile hr.2 (List.prefix_append run rest)⟩

theorem unit_of_isPrefix {unit : Option String} (hu : IsUnit unit)
    (h : (unit.getD "").toList <+: input) : (unit.getD "").toList <+: nameRun input := by
  cases unit with
  | none => exact List.nil_prefix
  | some name => exact nameRun_of_isPrefix (hu name rfl) h

/-- Nothing, or a point and digits. -/
def IsFraction (text : List Char) : Prop :=
  text = [] ∨ ∃ digits, IsDigits digits ∧ text = '.' :: digits

theorem exists_parts_of_isNumeral {value : String} (h : IsNumeral value) :
    ∃ whole part, IsDigits whole ∧ IsFraction part ∧ value.toList = whole ++ part := by
  rcases h with hd | ⟨whole, digits, hw, hd, hv⟩
  · exact ⟨_, [], hd, Or.inl rfl, (List.append_nil _).symm⟩
  · exact ⟨whole, _, hw, Or.inr ⟨digits, hd, rfl⟩, hv⟩

theorem fraction_of_isPrefix {part : List Char} (hf : IsFraction part) (h : part <+: tail) :
    part <+: fraction tail := by
  rcases hf with rfl | ⟨digits, hd, rfl⟩
  · exact List.nil_prefix
  · obtain ⟨rest, rfl⟩ := h
    have hp := prefix_takeWhile hd.2 (List.prefix_append digits rest)
    simp only [List.cons_append, fraction]
    split
    · next he =>
      rw [he] at hp
      exact (hd.1 (List.prefix_nil.mp hp)).elim
    · exact List.cons_prefix_cons.mpr ⟨rfl, hp⟩

/-- A fraction ends where its unit starts. -/
theorem fraction_eq_of_isPrefix {part unit : List Char} (hf : IsFraction part) (hn : unit ≠ [])
    (hu : NotNext (fun c => c.isDigit || c == '.') unit) (h : part ++ unit <+: tail) :
    fraction tail = part := by
  obtain ⟨rest, rfl⟩ := h
  have hu' : NotNext (fun c => c.isDigit || c == '.') (unit ++ rest) := by
    cases unit with
    | nil => exact (hn rfl).elim
    | cons c unit => exact hu
  rw [List.append_assoc]
  rcases hf with rfl | ⟨digits, hd, rfl⟩
  · exact fraction_eq_nil hu'
  · exact fraction_append hd hu'

theorem notNext_of_isUnit {unit : Option String} (hu : IsUnit unit) :
    NotNext (fun c => c.isDigit || c == '.') (unit.getD "").toList := by
  have hnil : NotNext (fun c => continuesName c || c == '.') [] := by simp [NotNext]
  simpa using notNext_unit hu hnil

/-- Behind the digits of a number, its fraction and then its unit go as far as they can. -/
theorem parts_of_isPrefix {part : List Char} {unit : Option String} (hf : IsFraction part)
    (hu : IsUnit unit) (h : part ++ (unit.getD "").toList <+: tail) :
    part ++ (unit.getD "").toList <+:
        fraction tail ++ nameRun (tail.drop (fraction tail).length) ∧
      (fraction tail ++ nameRun (tail.drop (fraction tail).length) =
          part ++ (unit.getD "").toList →
        fraction tail = part ∧
          nameRun (tail.drop (fraction tail).length) = (unit.getD "").toList) := by
  refine prefix_append_of (fraction_of_isPrefix hf ((List.prefix_append _ _).trans h)) fun hn => ?_
  have he := fraction_eq_of_isPrefix hf hn (notNext_of_isUnit hu) h
  obtain ⟨more, rfl⟩ := h
  refine ⟨he.symm, unit_of_isPrefix hu ?_⟩
  rw [he, List.append_assoc, List.drop_left]
  exact List.prefix_append _ _

theorem reaches_number {value : String} {unit : Option String} (hv : IsNumeral value)
    (hu : IsUnit unit) (hp : value.toList ++ (unit.getD "").toList <+: input) :
    Reaches number input (value.toList ++ (unit.getD "").toList) (.numeric value unit) := by
  obtain ⟨whole, part, hw, hf, hvp⟩ := exists_parts_of_isNumeral hv
  rw [hvp, List.append_assoc] at hp ⊢
  obtain ⟨run, tail, rfl, hd, ht, hwr⟩ := exists_digits hw ((List.prefix_append _ _).trans hp)
  have hnot : NotNext Char.isDigit (part ++ (unit.getD "").toList) := by
    rcases hf with rfl | ⟨digits, -, rfl⟩
    · exact (notNext_of_isUnit hu).mono fun c hc => (Bool.or_eq_false_iff.mp hc).1
    · rintro c ⟨⟩
      rfl
  -- All digits are taken first. If there are more of them than the number has, nothing follows it.
  have hall : whole ++ (part ++ (unit.getD "").toList) <+:
        run ++ (fraction tail ++ nameRun (tail.drop (fraction tail).length)) ∧ _ :=
    prefix_append_of hwr fun hn => by
      have he := takeWhile_eq_of_isPrefix hw.2 hn hnot hp
      rw [takeWhile_of_notNext hd.2 ht] at he
      subst he
      exact ⟨rfl, (parts_of_isPrefix hf hu ((List.prefix_append_right_inj run).mp hp)).1⟩
  refine ⟨_, number_append_tail hd ht, by simpa using hall.1, fun he => ?_⟩
  rw [List.append_assoc] at he
  obtain ⟨rfl, hparts⟩ := hall.2 he
  obtain ⟨hpart, hun⟩ :=
    (parts_of_isPrefix hf hu ((List.prefix_append_right_inj run).mp hp)).2 hparts
  dsimp only
  rw [hun, hpart, unit?_unit hu, ← hvp, String.ofList_toList]

theorem reaches_quotedText {inside value : List Char} {unit : Option String}
    (hq : QuotedOf inside value) (hu : IsUnit unit)
    (hp : '"' :: (inside ++ '"' :: (unit.getD "").toList) <+: input) :
    Reaches quotedText input ('"' :: (inside ++ '"' :: (unit.getD "").toList))
      (.textual (String.ofList value) unit) := by
  obtain ⟨more, rfl⟩ := hp
  have hb := quotedBody?_of_quotedOf hq ((unit.getD "").toList ++ more)
  have hdrop : (inside ++ '"' :: ((unit.getD "").toList ++ more)).drop (inside ++ ['"']).length =
      (unit.getD "").toList ++ more := by
    rw [List.append_cons inside '"' (_ ++ _), List.drop_left]
  have hr : quotedText ('"' :: (inside ++ '"' :: (unit.getD "").toList) ++ more) =
      .ok (some ⟨.textual (String.ofList value) (unit? (nameRun ((unit.getD "").toList ++ more))),
        '"' :: (inside ++ ['"'] ++ nameRun ((unit.getD "").toList ++ more))⟩) := by
    rw [List.cons_append, List.append_assoc, List.cons_append, quotedText, hb]
    simp only [hdrop]
  refine ⟨_, hr, ?_, fun he => ?_⟩
  · rw [List.append_cons, List.cons_prefix_cons, List.prefix_append_right_inj]
    exact ⟨rfl, unit_of_isPrefix hu (List.prefix_append _ _)⟩
  · dsimp only at he ⊢
    rw [List.append_cons inside '"' (unit.getD "").toList, List.cons.injEq] at he
    rw [List.append_cancel_left he.2, unit?_unit hu]

theorem name_of_nameRun (h : nameRun input ≠ []) :
    name input = .ok (some ⟨.identifier (String.ofList (nameRun input)), nameRun input⟩) := by
  unfold name
  split
  · exact (h rfl).elim
  · split
    · next he => exact (h he).elim
    · rfl

theorem reaches_name (hr : IsNameRun run) (hp : run <+: input) :
    Reaches name input run (.identifier (String.ofList run)) := by
  have hn := nameRun_of_isPrefix hr hp
  have hne : nameRun input ≠ [] := by
    intro he
    rw [he, List.prefix_nil] at hn
    exact (hn ▸ hr : IsNameRun [])
  exact ⟨_, name_of_nameRun hne, hn, fun he => congrArg (Token.identifier <| String.ofList ·) he⟩

theorem reaches_quotedName (ht : '\x60' ∉ run) (hp : '\x60' :: (run ++ ['\x60']) <+: input) :
    Reaches name input ('\x60' :: (run ++ ['\x60'])) (.identifier (String.ofList run)) := by
  obtain ⟨more, rfl⟩ := hp
  have hr := name_of_quoted ht more
  rw [List.append_cons] at hr
  exact ⟨_, hr, List.prefix_rfl, fun _ => rfl⟩

/-- The class that the token belongs to. -/
def classOf : Token → TokenClass
  | .keyword _ => symbol Keyword.all Keyword.text .keyword
  | .operator _ => symbol Operator.all Operator.text .operator
  | .delimiter _ => symbol Delimiter.all Delimiter.text .delimiter
  | .numeric _ _ => number
  | .textual _ _ => quotedText
  | .identifier _ => name

theorem classOf_mem (t : Token) : classOf t ∈ classes := by
  cases t <;> simp [classOf, classes]

theorem reaches_of_lexemeOf {text : List Char} (h : LexemeOf text t) (hp : text <+: input) :
    Reaches (classOf t) input text t := by
  cases h with
  | keyword word => exact reaches_symbol (by cases word <;> decide) (by decide +kernel) hp
  | operator op => exact reaches_symbol (by cases op <;> decide) (by decide +kernel) hp
  | delimiter d => exact reaches_symbol (by cases d <;> decide) (by decide +kernel) hp
  | numeric hv hu => exact reaches_number hv hu hp
  | textual hq hu => exact reaches_quotedText hq hu hp
  | name hr => exact reaches_name hr hp
  | quotedName ht => exact reaches_quotedName ht hp

/-! A text has one token, but that the text of a keyword is a name too. -/

/-- The class of the tokens that start with the character, keywords apart. -/
def classAt (c : Char) : TokenClass :=
  if startsName c || c == '\x60' then name
  else if c.isDigit then number
  else if c == '"' then quotedText
  else if Delimiter.isMark c then symbol Delimiter.all Delimiter.text .delimiter
  else symbol Operator.all Operator.text .operator

theorem classAt_of_startsName (h : startsName c = true) : classAt c = name := by
  simp [classAt, h]

theorem classAt_of_isDigit (h : c.isDigit = true) : classAt c = number := by
  have hb : c ≠ '\x60' := by
    rintro rfl
    exact absurd h (by decide)
  simp [classAt, not_startsName_of_isDigit h, hb, h]

theorem classAt_of_special (h : Special c) :
    classAt c = if Delimiter.isMark c then symbol Delimiter.all Delimiter.text .delimiter
      else symbol Operator.all Operator.text .operator := by
  simp [classAt, not_startsName h.not_continuesName, not_isDigit h.not_continuesName, h.ne_quote,
    h.ne_backtick]

theorem exists_class_of_lexemeOf {text : List Char} (h : LexemeOf text t) :
    ∃ c rest, text = c :: rest ∧ ((∃ word, t = .keyword word) ∨ classOf t = classAt c) := by
  cases h with
  | keyword word => cases word <;> exact ⟨_, _, rfl, .inl ⟨_, rfl⟩⟩
  | operator op =>
    obtain ⟨c, rest, ht, hc⟩ :
        ∃ c rest, op.text.toList = c :: rest ∧ Operator.isSymbol c = true := by
      cases op <;> exact ⟨_, _, rfl, by decide⟩
    refine ⟨c, rest, ht, .inr ?_⟩
    rw [classAt_of_special (special_of_isSymbol hc), not_isMark_of_isSymbol hc]
    rfl
  | delimiter d =>
    obtain ⟨c, rest, ht, hc⟩ : ∃ c rest, d.text.toList = c :: rest ∧ Delimiter.isMark c = true := by
      cases d <;> exact ⟨_, _, rfl, by decide⟩
    refine ⟨c, rest, ht, .inr ?_⟩
    rw [classAt_of_special (special_of_isMark hc), if_pos hc]
    rfl
  | numeric hv hu =>
    obtain ⟨c, rest, ht, hc⟩ := hv.head
    exact ⟨c, _, by rw [ht]; rfl, .inr (classAt_of_isDigit hc).symm⟩
  | textual hq hu => exact ⟨_, _, rfl, .inr rfl⟩
  | name hr =>
    cases text with
    | nil => exact hr.elim
    | cons c rest => exact ⟨c, rest, rfl, .inr (classAt_of_startsName hr.1).symm⟩
  | quotedName ht => exact ⟨_, _, rfl, .inr rfl⟩

/-- Of a text that is a token as a whole, its class reads just that. -/
theorem classOf_of_lexemeOf {text : List Char} (h : LexemeOf text t) :
    classOf t text = .ok (some ⟨t, text⟩) := by
  obtain ⟨⟨t', text'⟩, hr, hp, ht⟩ := reaches_of_lexemeOf h List.prefix_rfl
  have hp' := (lexemeOf_of_class (classOf_mem t) hr).1
  obtain rfl : text' = text := hp'.eq_of_length_le hp.length_le
  obtain rfl : t' = t := ht rfl
  exact hr

theorem lexemeOf_unique {text : List Char} {t' : Token}
    (hk : ∀ word : Keyword, word.text.toList ≠ text) (h : LexemeOf text t)
    (h' : LexemeOf text t') : t = t' := by
  have hclass {t : Token} (h : LexemeOf text t) : ∃ c ∈ text.head?, classOf t = classAt c := by
    obtain ⟨c, rest, ht, ⟨word, rfl⟩ | hc⟩ := exists_class_of_lexemeOf h
    · cases h with
      | keyword => exact (hk word rfl).elim
    · exact ⟨c, by rw [ht]; rfl, hc⟩
  obtain ⟨c, hm, hc⟩ := hclass h
  obtain ⟨c', hm', hc'⟩ := hclass h'
  obtain rfl : c = c' := Option.mem_unique hm hm'
  have hr := classOf_of_lexemeOf h
  rw [hc, ← hc', classOf_of_lexemeOf h'] at hr
  cases hr
  rfl

/-! Reading takes the longest text of a token. -/

/-- The readings that are chosen from. -/
def candidates (input : List Char) : List Lexeme :=
  (classes.map (· input)).filterMap Reading.lexeme?

theorem mem_candidates_iff :
    lexeme ∈ candidates input ↔ ∃ cls ∈ classes, cls input = .ok (some lexeme) := by
  have hr (reading : Reading) : reading.lexeme? = some lexeme ↔ reading = .ok (some lexeme) := by
    cases reading <;> simp [Reading.lexeme?]
  simp [candidates, hr]

theorem read_of_candidates (h : (candidates input).maxOn? (Text.byteSize ·.text) = some lexeme) :
    read input = .ok lexeme := by
  unfold candidates at h
  simp only [read, h]

theorem maxOn?_of_read (h : read input = .ok lexeme) :
    (candidates input).maxOn? (Text.byteSize ·.text) = some lexeme := by
  simp only [read] at h
  split at h
  · next hm =>
    cases h
    exact hm
  · cases h

theorem lexemeOf_of_read (h : read input = .ok lexeme) :
    lexeme.text <+: input ∧ LexemeOf lexeme.text lexeme.token := by
  obtain ⟨cls, hc, hl⟩ := mem_candidates_iff.mp (List.maxOn?_mem (maxOn?_of_read h))
  exact lexemeOf_of_class hc hl

/-- Something is read where a token starts, and it is no shorter. -/
theorem exists_read {text : List Char} (h : LexemeOf text t) (hp : text <+: input) :
    ∃ lexeme, read input = .ok lexeme ∧ text.length ≤ lexeme.text.length := by
  obtain ⟨found, hr, hle, -⟩ := reaches_of_lexemeOf h hp
  have hm : found ∈ candidates input := mem_candidates_iff.mpr ⟨_, classOf_mem t, hr⟩
  obtain ⟨best, hb⟩ := Option.isSome_iff_exists.mp (List.isSome_maxOn?_of_mem
    (f := fun lexeme : Lexeme => Text.byteSize lexeme.text) hm)
  have hmax := List.le_apply_get_maxOn?_of_mem
    (f := fun lexeme : Lexeme => Text.byteSize lexeme.text) hm
  simp only [hb, Option.get_some] at hmax
  have hread := read_of_candidates hb
  exact ⟨best, hread, Nat.le_trans hle.length_le (Text.length_le_of_byteSize_le
    (lexemeOf_of_class (classOf_mem t) hr).1 (lexemeOf_of_read hread).1 hmax)⟩

/-- Keywords are the first class, so the longest text is a keyword where it can be one. -/
theorem read_of_keyword (word : Keyword) (hp : word.text.toList <+: input)
    (hmax : ∀ longer t', LexemeOf longer t' → longer <+: input →
      longer.length ≤ word.text.toList.length) :
    read input = .ok ⟨.keyword word, word.text.toList⟩ := by
  obtain ⟨⟨t', text'⟩, hr, hle, ht⟩ := reaches_of_lexemeOf (.keyword word) hp
  obtain ⟨hp', hl⟩ := lexemeOf_of_class (classOf_mem _) hr
  obtain rfl : word.text.toList = text' := hle.eq_of_length_le (hmax _ _ hl hp')
  obtain rfl : t' = .keyword word := ht rfl
  obtain ⟨others, ho⟩ :
      ∃ others, candidates input = ⟨.keyword word, word.text.toList⟩ :: others := by
    rw [classOf] at hr
    exact ⟨_, by simp only [candidates, classes, List.map_cons, hr]; rfl⟩
  apply read_of_candidates
  rw [ho]
  refine maxOn?_cons_of_le fun other hm => ?_
  obtain ⟨cls, hc, hother⟩ := mem_candidates_iff.mp (ho ▸ List.mem_cons_of_mem _ hm)
  obtain ⟨hpo, hlo⟩ := lexemeOf_of_class hc hother
  exact Text.byteSize_le_of_isPrefix
    (List.prefix_of_prefix_length_le hpo hp (hmax _ _ hlo hpo))

theorem longest_of_read (h : read input = .ok lexeme) :
    Longest input lexeme.text lexeme.token := by
  obtain ⟨hp, hl⟩ := lexemeOf_of_read h
  have hmax : ∀ longer t', LexemeOf longer t' → longer <+: input →
      longer.length ≤ lexeme.text.length := by
    intro longer t' hl' hp'
    obtain ⟨found, hf, hle⟩ := exists_read hl' hp'
    rw [h] at hf
    cases hf
    exact hle
  refine ⟨hl, hp, hmax, fun word hw => ?_⟩
  have hk := read_of_keyword word (hw ▸ hp) (hw ▸ hmax)
  rw [h] at hk
  cases hk
  rfl

/-- What is read is the longest text of a token. -/
theorem read_ok_iff : read input = .ok lexeme ↔ Longest input lexeme.text lexeme.token := by
  refine ⟨longest_of_read, fun h => ?_⟩
  obtain ⟨⟨t, text⟩, hr, hle⟩ := exists_read h.lexeme h.starts
  have h' := longest_of_read hr
  obtain ⟨t', text'⟩ := lexeme
  dsimp only at h h' hle
  obtain rfl : text' = text :=
    (List.prefix_of_prefix_length_le h.starts h'.starts hle).eq_of_length_le
      (h.maximal _ _ h'.lexeme h'.starts)
  -- The text is the same, and it has one token unless it is a keyword.
  obtain rfl : t = t' := by
    by_cases hk : ∃ word : Keyword, word.text.toList = text'
    · obtain ⟨word, hw⟩ := hk
      rw [h.preferred word hw, h'.preferred word hw]
    · exact lexemeOf_unique (fun word hw => hk ⟨word, hw⟩) h'.lexeme h.lexeme
  exact hr

theorem ne_ok_some_of_stuck {cls : TokenClass} (hc : cls ∈ classes) (h : Stuck input)
    (lexeme : Lexeme) : cls input ≠ .ok (some lexeme) := by
  intro hl
  obtain ⟨hp, hlex⟩ := lexemeOf_of_class hc hl
  exact h _ _ hlex hp

theorem candidates_eq_nil (h : Stuck input) : candidates input = [] := by
  refine List.eq_nil_iff_forall_not_mem.mpr fun lexeme hm => ?_
  obtain ⟨cls, hc, hl⟩ := mem_candidates_iff.mp hm
  exact ne_ok_some_of_stuck hc h lexeme hl

theorem read_of_stuck (h : Stuck input) :
    read input = .error (((classes.map (· input)).findSome? Reading.error?).getD
      (.unexpectedCharacter (input.headD '\x00'))) := by
  have hc := candidates_eq_nil h
  unfold candidates at hc
  simp only [read, hc]
  rfl

theorem error?_number (input : List Char) : (number input).error? = none := by
  unfold number
  split <;> rfl

/-- Only texts and names in backticks can be without an end. -/
theorem findSome?_error? (input : List Char) :
    (classes.map (· input)).findSome? Reading.error? =
      (quotedText input).error?.or (name input).error? := by
  have hs (input : List Char) {α : Type} (symbols : List α) (text : α → String)
      (token : α → Token) : (symbol symbols text token input).error? = none := rfl
  cases hq : (quotedText input).error? <;> cases hn : (name input).error? <;>
    simp [classes, hs, error?_number, hq, hn]

theorem quotedText_of_stuck {rest : List Char} (h : Stuck ('"' :: rest)) :
    quotedText ('"' :: rest) = .error .unterminatedText := by
  have hno := ne_ok_some_of_stuck (classOf_mem (.textual "" none)) h
  rw [classOf, quotedText] at hno
  rw [quotedText]
  split
  · rfl
  · next hb => exact (hno _ (by rw [hb])).elim

theorem name_of_stuck {rest : List Char} (h : Stuck ('\x60' :: rest)) :
    name ('\x60' :: rest) = .error .unterminatedIdentifier := by
  have hno := ne_ok_some_of_stuck (classOf_mem (.identifier "")) h
  rw [classOf, name] at hno
  rw [name]
  split
  · next hlt => exact (hno _ (if_pos hlt)).elim
  · rfl

/-- Where no token starts, the complaint is about the literal that has begun or else about the first
character. -/
theorem read_of_complaintOf {kind : LexErrorKind} {size : Nat} (h : Stuck input)
    (hc : ComplaintOf input kind size) : read input = .error kind := by
  rw [read_of_stuck h, findSome?_error?]
  cases hc with
  | text rest => rw [quotedText_of_stuck h]; rfl
  | name rest => rw [quotedText_eq_none (by decide), name_of_stuck h]; rfl
  | @character c rest hq hb =>
    have hn : (name (c :: rest)).error? = none := by
      unfold name
      split
      · next he =>
        cases he
        exact (hb rfl).elim
      · split <;> rfl
    rw [quotedText_eq_none hq, hn]
    rfl

theorem stuck_of_read {kind : LexErrorKind} (h : read input = .error kind) : Stuck input := by
  intro text t hl hp
  obtain ⟨lexeme, hr, -⟩ := exists_read hl hp
  rw [h] at hr
  cases hr

end FrontEnd.Lexeme
