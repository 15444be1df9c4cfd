import FrontEnd.Proofs.Parser.Rounds

/-! Runs over tokens whose places are known. What a rule makes of them is a value or an error, and
either is followed through the combinators. -/
namespace FrontEnd

namespace Cursor

variable {start mid stop : Cursor} {t : Located Token} {ts us : List (Located Token)}

/-- The tokens that are still to be read, with their locations. -/
def upcoming (cursor : Cursor) : List (Located Token) := cursor.tokens.toList.drop cursor.index

/-- The tokens `ts` lead from `start` to `stop`, each from its own place. -/
structure Passes (start : Cursor) (ts : List (Located Token)) (stop : Cursor) : Prop where
  reads : start.Reads (ts.map Located.value) stop
  upcoming : start.upcoming = ts ++ stop.upcoming

theorem peek?_eq_head? (cursor : Cursor) : cursor.peek? = cursor.upcoming.head? := by
  simp [peek?, upcoming, List.head?_drop]

/-- There is a place behind any tokens that are coming up. -/
theorem exists_passes (h : start.upcoming = ts ++ us) :
    ∃ stop, start.Passes ts stop ∧ stop.upcoming = us := by
  let stop := start.moveTo (start.index + ts.length)
  have hd : stop.upcoming = start.upcoming.drop ts.length := by simp [stop, upcoming, moveTo]
  have hu : stop.upcoming = us := by rw [hd, h, List.drop_left]
  have ha : start.ahead = ts.map Located.value ++ stop.ahead := by
    change start.upcoming.map _ = _ ++ stop.upcoming.map _
    rw [hu, h, List.map_append]
  exact ⟨stop, ⟨⟨rfl, by simp [stop, moveTo], ha⟩, by rw [hu, h]⟩, hu⟩

namespace Passes

theorem ofTokens (tokens : List (Located Token)) :
    ∃ stop, (Cursor.ofTokens tokens).Passes tokens stop ∧ stop.ahead = [] := by
  have h : (Cursor.ofTokens tokens).upcoming = tokens ++ [] := by
    simp [Cursor.upcoming, Cursor.ofTokens]
  obtain ⟨stop, hp, hu⟩ := exists_passes h
  exact ⟨stop, hp, congrArg (List.map Located.value) hu⟩

theorem split (h : start.Passes (ts ++ us) stop) :
    ∃ mid, start.Passes ts mid ∧ mid.Passes us stop := by
  obtain ⟨mid, hm, hu⟩ := exists_passes (h.upcoming.trans (List.append_assoc ts us stop.upcoming))
  have hr := h.reads
  rw [List.map_append] at hr
  obtain ⟨mid', hr', hs⟩ := hr.split
  obtain rfl := hm.reads.stop_eq hr'
  exact ⟨mid, hm, hs, hu⟩

theorem uncons (h : start.Passes (t :: us) stop) :
    ∃ mid, start.Passes [t] mid ∧ mid.Passes us stop := by
  rw [← List.singleton_append] at h
  exact h.split

theorem next? (h : start.Passes [t] stop) : start.next? = some (t, stop) := by
  refine next?_eq_some_iff.mpr ⟨?_, h.reads⟩
  rw [peek?_eq_head?, h.upcoming]
  rfl

end Passes

end Cursor

namespace Parser

variable {α β : Type} {p : Parser α} {x : Except ParseError α} {start mid stop : Cursor}

theorem token_of_passes {expected : String} {select : Token → Option α} {t : Located Token} {v : α}
    (h : start.Passes [t] stop) (hs : select t.value = some v) :
    token expected select start = .ok ⟨v, t.location⟩ stop := by
  simp [token, h.next?, hs]

/-- From `start` the parser makes `x` of the tokens up to `stop`. When `x` is an error, the rest of
them plays no part in it. -/
inductive Gives (p : Parser α) (start : Cursor) : Except ParseError α → Cursor → Prop
  | ok {v : α} {stop : Cursor} (h : p start = .ok v stop) : Gives p start (.ok v) stop
  | error {e : ParseError} {cursor stop : Cursor} (h : p start = .error e cursor) :
      Gives p start (.error e) stop

namespace Gives

theorem pure (v : α) : (pure v : Parser α).Gives start (.ok v) start := .ok rfl

theorem of_eq {q : Parser α} {start' : Cursor} (h : q.Gives start' x stop)
    (he : p start = q start') : p.Gives start x stop := by
  cases h with
  | ok hq => exact .ok (he.trans hq)
  | error hq => exact .error (he.trans hq)

theorem bind_of_ok {f : α → Parser β} {v : α} {y : Except ParseError β}
    (h : p start = .ok v mid) (hf : (f v).Gives mid y stop) : (p >>= f).Gives start y stop :=
  hf.of_eq (by simp [Bind.bind, EStateM.bind, h])

theorem bind {f : α → Parser β} {g : α → Except ParseError β} (h : p.Gives start x mid)
    (hf : ∀ v, x = .ok v → (f v).Gives mid (g v) stop) :
    (p >>= f).Gives start (x >>= g) stop := by
  cases h with
  | ok hp => exact bind_of_ok hp (hf _ rfl)
  | @error e cursor _ hp =>
    have hb : (p >>= f) start = .error e cursor := by simp [Bind.bind, EStateM.bind, hp]
    exact .error hb

theorem map (g : α → β) (h : p.Gives start x stop) : (g <$> p).Gives start (g <$> x) stop := by
  cases h with
  | ok hp => exact .ok (map_ok_iff.mpr ⟨_, hp, rfl⟩)
  | @error e cursor _ hp =>
    have hm : (g <$> p) start = .error e cursor := by simp [Functor.map, EStateM.map, hp]
    exact .error hm

theorem atomic (h : p.Gives start x stop) : (atomic p).Gives start x stop := by
  cases h with
  | ok hp => exact .ok (atomic_ok_iff.mpr hp)
  | @error e cursor _ hp =>
    have ha : Parser.atomic p start = .error e start := by simp [Parser.atomic, hp]
    exact .error ha

theorem andThen (h : p.Gives start x stop) (step : α → Except ParseError β) :
    (p.andThen step).Gives start (x >>= step) stop := by
  refine (h.bind fun v _ => ?_).atomic
  cases step v with
  | ok w => exact .ok rfl
  | error e => exact .error rfl

theorem thenSkip {r : Parser β} {w : β} (h : p.Gives start x mid) (hr : r mid = .ok w stop) :
    (p.thenSkip r).Gives start x stop := by
  have hb : (p >>= fun v => r >>= fun _ => Pure.pure v).Gives start (x >>= .ok) stop :=
    h.bind fun v _ => .ok (bind_ok_iff.mpr ⟨w, stop, hr, rfl⟩)
  have hx : x >>= .ok = x := bind_pure x
  rw [hx] at hb
  exact hb.atomic

end Gives

end Parser

end FrontEnd
