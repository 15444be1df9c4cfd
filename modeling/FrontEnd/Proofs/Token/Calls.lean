import FrontEnd.Proofs.Token.Tiling

/-! A stream of tokens that is asked again and again: tokens, then at most one error, then nothing
any more. What stands in front of the error has the same tokens when it stands alone. -/
namespace FrontEnd

variable {file : FileId} {source : String} {tokens : List (Located Token)}
  {failure : Option LexError} {text : List Char} {offset : Nat}

namespace TokenStream

variable {stream after : TokenStream} {error : LexError}

/-- The stream gives these tokens, then the error if there is one, and then nothing. -/
inductive Yields : TokenStream → List (Located Token) → Option LexError → Prop
  | stop {stream : TokenStream} (h : stream.next? = none) : Yields stream [] none
  | fail {stream after : TokenStream} {error : LexError}
      (h : stream.next? = some (.error error, after)) (ha : after.next? = none) :
      Yields stream [] (some error)
  | token {stream after : TokenStream} {token : Located Token} {tokens : List (Located Token)}
      {failure : Option LexError} (h : stream.next? = some (.ok token, after))
      (ha : Yields after tokens failure) : Yields stream (token :: tokens) failure

/-- What `count` calls give if there are these items: the items one after the other, and nothing
for each call that is left. -/
def answers (count : Nat) (items : List (Except LexError (Located Token))) :
    List (Option (Except LexError (Located Token))) :=
  (items.take count).map some ++ List.replicate (count - items.length) none

/-- An error uses up all of the text. -/
theorem next?_of_error (h : stream.next? = some (.error error, after)) : after.next? = none := by
  simp only [next?] at h
  split at h
  · cases h
  · split at h
    · cases h
    · cases h
      exact next?_nil (by simp [skip])

theorem calls_of_end (h : stream.next? = none) (count : Nat) :
    stream.calls count = List.replicate count none := by
  induction count with
  | zero => rfl
  | succ count ih => rw [calls, h, ih, List.replicate_succ]

theorem calls_of_yields (h : stream.Yields tokens failure) (count : Nat) :
    stream.calls count = answers count (tokens.map .ok ++ (failure.map .error).toList) := by
  induction h generalizing count with
  | stop h => simp [calls_of_end h, answers]
  | fail h ha =>
    cases count with
    | zero => rfl
    | succ count =>
      rw [calls, h]
      simp [calls_of_end ha, answers]
  | token h _ ih =>
    cases count with
    | zero => simp [calls, answers]
    | succ count =>
      rw [calls, h]
      simp [ih, answers]

end TokenStream

open TokenStream

/-- The stream over `text` gives the tokens of `before`, with which the text starts. Where it fails
is where `before` ends. -/
structure YieldsUpTo (file : FileId) (offset : Nat) (text before : List Char)
    (tokens : List (Located Token)) (failure : Option LexError) : Prop where
  yields : Yields ⟨file, offset, text⟩ tokens failure
  starts : before <+: text
  tokens : TokensOf file offset before (.ok tokens)
  place : ∀ error ∈ failure, error.location.offset = offset + Text.byteSize before

theorem TokensOf.yieldsUpTo {result : Except LexError (List (Located Token))}
    (h : TokensOf file offset text result) : ∃ before tokens failure,
      YieldsUpTo file offset text before tokens failure ∧
        result = (failure.map .error).getD (.ok tokens) := by
  induction h with
  | @stop offset skipped hs =>
    exact ⟨skipped, [], none, ⟨.stop (next?_stop hs), List.prefix_rfl, .stop hs, by simp⟩, rfl⟩
  | @token offset skipped part rest t result hs hl _ ih =>
    obtain ⟨before, tokens, failure, ⟨hy, ⟨after, rfl⟩, ht, hp⟩, rfl⟩ := ih
    -- Neither the token nor the trivia in front of it depend on what comes behind `before`.
    rw [← List.append_assoc] at hs
    have hcut : TokensOf file offset (skipped ++ (part ++ before)) (.ok (_ :: tokens)) :=
      .token hs.of_append hl.of_append ht
    refine ⟨skipped ++ (part ++ before), _ :: tokens, failure, ⟨?_, ?_, hcut, ?_⟩, ?_⟩
    · exact .token (next?_longest (by rwa [← List.append_assoc]) hl) hy
    · exact ⟨after, by simp⟩
    · intro error he
      simp [hp error he, Nat.add_assoc]
    · cases failure <;> rfl
  | @stuck offset size skipped input kind hs hn hc =>
    obtain ⟨after, hnext⟩ : ∃ after, next? ⟨file, offset, skipped ++ input⟩ = some (_, after) :=
      next?_stuck hs hn hc
    refine ⟨skipped, [], some _, ⟨.fail hnext (next?_of_error hnext), ?_, ?_, ?_⟩, rfl⟩
    · exact List.prefix_append skipped input
    · exact .stop hs.of_append
    · rintro error ⟨⟩
      rfl

theorem TokensOf.length_le {result : Except LexError (List (Located Token))}
    (h : TokensOf file offset text result) (hr : result = .ok tokens) :
    tokens.length ≤ Text.byteSize text := by
  induction h generalizing tokens with
  | stop =>
    cases hr
    exact Nat.zero_le _
  | @token offset skipped part rest t result _ hl _ ih =>
    cases result with
    | error => cases hr
    | ok others =>
      cases hr
      have hpart := Text.byteSize_pos hl.lexeme.ne_nil
      have hrest := ih rfl
      simp only [List.length_cons, Text.byteSize_append]
      omega
  | stuck => cases hr

/-- What a whole source unit yields. A byte order mark is part of what stands in front of an
error. -/
theorem UnitTokensOf.yields {result : Except LexError (List (Located Token))}
    (h : UnitTokensOf file source.toList result) : ∃ before tokens failure,
      Yields (ofSource source file) tokens failure ∧
        result = (failure.map .error).getD (.ok tokens) ∧ before <+: source.toList ∧
        UnitTokensOf file before (.ok tokens) ∧ tokens.length ≤ Text.byteSize before ∧
        ∀ error ∈ failure, error.location.offset = Text.byteSize before := by
  generalize hs : source.toList = unit at h
  cases h with
  | marked h =>
    obtain ⟨before, tokens, failure, hy, hr⟩ := h.yieldsUpTo
    have hlen := hy.tokens.length_le rfl
    refine ⟨'\uFEFF' :: before, tokens, failure, ?_, hr, ?_, .marked hy.tokens, ?_, hy.place⟩
    · rw [ofSource_marked hs]
      exact hy.yields
    · exact List.cons_prefix_cons.mpr ⟨rfl, hy.starts⟩
    · rw [Text.byteSize_cons]
      omega
  | plain hb h =>
    obtain ⟨before, tokens, failure, hy, hr⟩ := h.yieldsUpTo
    subst hs
    refine ⟨before, tokens, failure, ?_, hr, hy.starts, .plain ?_ hy.tokens,
      hy.tokens.length_le rfl, by simpa using hy.place⟩
    · rw [ofSource_plain hb]
      exact hy.yields
    · obtain ⟨after, ha⟩ := hy.starts
      rw [← ha] at hb
      cases before with
      | nil => simp
      | cons c before => exact hb

/-- However often a stream is asked, it gives the tokens of its source, then the error if there is
one, and then nothing. The tokens of the text in front of an error are those that come before
it. -/
theorem TokenStream.calls_ofSource (source : String) (file : FileId) :
    ∃ (tokens : List (Located Token)) (failure : Option LexError),
      (∀ count, (ofSource source file).calls count =
        answers count (tokens.map .ok ++ (failure.map .error).toList)) ∧
      tokens.length ≤ Text.byteSize source.toList ∧
      tokenize source file = (failure.map .error).getD (.ok tokens) ∧
      ∀ error ∈ failure, ∃ before,
        Text.takeBytes? source.toList error.location.offset = some before ∧
          tokenize (String.ofList before) file = .ok tokens := by
  obtain ⟨before, tokens, failure, hy, hr, hs, ht, hl, hp⟩ :=
    (unitTokensOf_tokenize source file).yields
  refine ⟨tokens, failure, calls_of_yields hy, ?_, hr, ?_⟩
  · exact Nat.le_trans hl (Text.byteSize_le_of_isPrefix hs)
  · intro error he
    refine ⟨before, Text.takeBytes?_eq_some_iff.mpr ⟨hs, (hp error he).symm⟩, ?_⟩
    exact tokenize_of_unitTokensOf (by rwa [String.toList_ofList])

example : (TokenStream.ofSource "a @ b" ⟨7⟩).calls 4 =
    [some (.ok ⟨.identifier "a", ⟨⟨7⟩, 0, 1⟩⟩),
      some (.error ⟨.unexpectedCharacter '@', ⟨⟨7⟩, 2, 1⟩⟩), none, none] := by rfl

end FrontEnd
