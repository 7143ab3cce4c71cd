import WireFormat.Proofs.Calls
import WireFormat.Proofs.Counting

/-!
# How computations may end

`Decode.repeatWhile` gives a loop up when its rounds are used up, and `Decode.inRange` cuts its
counts off to words. A `Course` says how a computation may end that does not: its loops go on for as
long as there is more, so that a loop that does not end has no course (`Course.loop`), and a count
that does not fit its word may be the end of everything (`Ending.overflow`). An `Arithmetic` says
which of the two becomes of such a count.

A course that is `Determined` by a computation ends in one way: as the computation does, or in an
overflow, and then the computation fails with a malformed length. Sequences, ranges and loops keep
this. A round that goes on inside the region needs no bound on the rounds, for there are as many of
them as the region has bytes at most (`Course.Determined.loop`).
-/

namespace WireFormat

open Decode

variable {σ α : Type}

/-- What becomes of a count that does not fit its word. -/
inductive Arithmetic where
  /-- It is cut off to what a word holds. -/
  | wrapping
  /-- It is found out, and nothing goes on. -/
  | checked
  deriving DecidableEq

/-- The next bytes as a range, which a body is run on. -/
def Run.narrowed (run : Run σ) (length : Nat) : Run σ :=
  ⟨run.state, run.cursor.withLimit (run.cursor.position + length)⟩

/-! ## Counts of ranges -/

namespace Decode

/-- The computation that always ends in one way. -/
def ending (ended : EStateM.Result DecodeError (Run σ) α) : Decode σ α := fun _ => ended

/-- The place up to which the bytes of a range that ends at `stop` are counted, if its body shows
that its length is wrong. -/
def counted? (stop : Nat) : EStateM.Result DecodeError (Run σ) Unit → Option Nat
  | .error (.truncated offset needed limit) _ =>
    if limit = stop then some (offset + needed) else none
  | .error _ _ => none
  | .ok () after => if after.cursor.position = stop then none else some after.cursor.position

/-- The bytes that are counted for a range do not fit a word. The cursor is the one that the body
starts with. -/
def Overflows (c : Cursor) (result : EStateM.Result DecodeError (Run σ) Unit) : Prop :=
  ∃ place ∈ counted? c.limit result, ¬ Countable c.position place

instance (c : Cursor) (result : EStateM.Result DecodeError (Run σ) Unit) :
    Decidable (Overflows c result) :=
  inferInstanceAs (Decidable (∃ place ∈ _, ¬ Countable _ place))

/-- Bytes are counted up to where they were wanted behind the end, or to where the body came
instead of the end. -/
theorem counted?_eq_some {stop place : Nat} {result : EStateM.Result DecodeError (Run σ) Unit}
    (h : counted? stop result = some place) :
    (∃ offset needed after, result = .error (.truncated offset needed stop) after ∧
      place = offset + needed) ∨
    ∃ after, result = .ok () after ∧ after.cursor.position ≠ stop ∧
      place = after.cursor.position := by
  cases result with
  | ok u after =>
    rw [counted?] at h
    by_cases hend : after.cursor.position = stop
    · rw [if_pos hend] at h
      cases h
    · rw [if_neg hend] at h
      exact .inr ⟨after, rfl, hend, (Option.some.inj h).symm⟩
  | error e after =>
    cases e with
    | truncated offset needed limit =>
      rw [counted?] at h
      by_cases hstop : limit = stop
      · rw [if_pos hstop] at h
        exact .inl ⟨offset, needed, after, by rw [hstop], (Option.some.inj h).symm⟩
      · rw [if_neg hstop] at h
        cases h
    | _ => cases h

/-- A range in which bytes are counted has the wrong length, by that count in a word. -/
theorem inRange_of_counted {declared place : Nat} {body : Decode σ Unit} {run : Run σ}
    (hfit : run.cursor.position + declared ≤ run.cursor.limit)
    (h : counted? (run.narrowed declared).cursor.limit (body (run.narrowed declared)) =
      some place) :
    ∃ after, after.state = (final (body (run.narrowed declared))).state ∧
      inRange declared body run = .error (.malformedLength run.cursor.position declared
        (span run.cursor.position place)) after := by
  rw [inRange_eq, if_pos hfit]
  change counted? (run.cursor.position + declared) _ = _ at h
  rw [Run.narrowed] at h ⊢
  rcases counted?_eq_some h with ⟨offset, needed, after, hr, rfl⟩ | ⟨after, hr, hend, rfl⟩
  · simp only [hr, rangeError, if_true]
    exact ⟨⟨after.state, after.cursor.withLimit run.cursor.limit⟩, rfl, rfl⟩
  · simp only [hr, if_neg hend]
    exact ⟨⟨after.state, after.cursor.withLimit run.cursor.limit⟩, rfl, rfl⟩

/-- What can be counted does not overflow. -/
theorem Counts.not_overflows {body : Decode σ Unit} (hcounts : Counts body)
    (hkeeps : Keeps .narrowing body) {run : Run σ} (hc : run.cursor.Valid)
    (hsmall : run.cursor.region.length < 2 ^ 63) : ¬ Overflows run.cursor (body run) := by
  rintro ⟨place, hplace, hnot⟩
  refine hnot ?_
  rcases counted?_eq_some hplace with ⟨offset, needed, after, hr, rfl⟩ | ⟨after, hr, -, rfl⟩
  · exact hcounts run after offset needed _ hc hsmall hr
  · have hmove := hkeeps.narrows hc hr
    have hle := Nat.le_trans hmove.le_limit (Nat.le_trans hmove.limit_le hc.2)
    exact ⟨hmove.position_le, by omega⟩

end Decode

/-! ## Endings -/

/-- How a computation that fills a message may end. -/
inductive Ending (σ : Type) where
  /-- With a result, good or bad. -/
  | ended (result : EStateM.Result DecodeError (Run σ) Unit)
  /-- In a count that does not fit its word, with the message as far as it was read. -/
  | overflow (state : σ)

namespace Ending

/-- The message as it was left. -/
def state : Ending σ → σ
  | .ended result => (final result).state
  | .overflow state => state

/-- An ending without the notes that were taken. -/
def unnoted : Ending (Noted σ) → Ending σ
  | .ended result => .ended (Decode.unnoted result)
  | .overflow noted => .overflow noted.state

theorem unnoted_ended (result : EStateM.Result DecodeError (Run (Noted σ)) Unit) :
    unnoted (.ended result) = .ended (Decode.unnoted result) := rfl

/-- What a range makes of how its body ended. -/
def leave (arithmetic : Arithmetic) (declared : Nat) (run : Run σ) : Ending σ → Ending σ
  | .ended result =>
    if arithmetic = .checked ∧ Overflows (run.narrowed declared).cursor result then
      .overflow (final result).state
    else .ended (Decode.inRange declared (Decode.ending result) run)
  | .overflow state => .overflow state

/-- The ending is a result, or an overflow that stands for a malformed length. Where it is calm,
there is no overflow. -/
inductive Replaces (calm : Prop) : EStateM.Result DecodeError (Run σ) Unit → Ending σ → Prop
  | ended (result : EStateM.Result DecodeError (Run σ) Unit) : Replaces calm result (.ended result)
  | overflow {start declared actual : Nat} (after : Run σ) : ¬ calm →
      Replaces calm (.error (.malformedLength start declared actual) after) (.overflow after.state)

/-- A range replaces what its body replaces, and may overflow itself where it is not calm. -/
theorem Replaces.leave {calm : Prop} {arithmetic : Arithmetic} {declared : Nat}
    {body : Decode σ Unit} {run : Run σ} {inner : Ending σ}
    (hfit : run.cursor.position + declared ≤ run.cursor.limit)
    (h : Replaces calm (body (run.narrowed declared)) inner)
    (hcalm : arithmetic = .checked → calm →
      ¬ Overflows (run.narrowed declared).cursor (body (run.narrowed declared))) :
    Replaces calm (Decode.inRange declared body run) (inner.leave arithmetic declared run) := by
  have hsame : Decode.inRange declared (Decode.ending (body (run.narrowed declared))) run =
      Decode.inRange declared body run := by
    rw [inRange_eq, inRange_eq]
    rfl
  generalize hr : body (run.narrowed declared) = result at h hcalm hsame
  cases h with
  | ended =>
    rw [Ending.leave]
    by_cases hover : arithmetic = .checked ∧ Overflows (run.narrowed declared).cursor result
    · rw [if_pos hover]
      obtain ⟨place, hplace, -⟩ := hover.2
      obtain ⟨after, hstate, hrange⟩ := inRange_of_counted hfit (hr ▸ hplace)
      rw [hrange, ← hr, ← hstate]
      exact .overflow after fun h => hcalm hover.1 h hover.2
    · rw [if_neg hover, hsame]
      exact .ended _
  | overflow after hnot =>
    rw [Ending.leave, ← hsame, inRange_eq, if_pos hfit]
    exact .overflow ⟨after.state, after.cursor.withLimit run.cursor.limit⟩ hnot

/-- Notes change nothing about leaving a range. -/
theorem unnoted_leave (arithmetic : Arithmetic) (declared : Nat) (run : Run (Noted σ))
    (inner : Ending (Noted σ)) :
    (inner.leave arithmetic declared run).unnoted =
      inner.unnoted.leave arithmetic declared run.unnoted := by
  cases inner with
  | overflow noted => rfl
  | ended result =>
    have hcounted : ∀ stop, counted? stop (Decode.unnoted result) = counted? stop result := by
      intro stop
      cases result with
      | ok u after => rfl
      | error e after => cases e <;> rfl
    have hover : Overflows (run.unnoted.narrowed declared).cursor (Decode.unnoted result) ↔
        Overflows (run.narrowed declared).cursor result := by
      rw [Overflows, Overflows, hcounted]
      rfl
    by_cases h : arithmetic = .checked ∧ Overflows (run.narrowed declared).cursor result
    · rw [leave, if_pos h, unnoted_ended, leave, if_pos ⟨h.1, hover.2 h.2⟩]
      cases result <;> rfl
    · have hrange : Decode.unnoted (Decode.inRange declared (Decode.ending result) run) =
          Decode.inRange declared (Decode.ending (Decode.unnoted result)) run.unnoted :=
        Decode.Notes.inRange (fun _ => rfl) declared run
      rw [leave, if_neg h, unnoted_ended, unnoted_ended, leave,
        if_neg fun h' => h ⟨h'.1, hover.1 h'.2⟩, hrange]

end Ending

/-! ## Courses -/

/-- How a computation may end from a run, if it ends. -/
abbrev Course (σ : Type) := Run σ → Ending σ → Prop

namespace Course

/-- The course of a computation that always ends. -/
def of (body : Decode σ Unit) : Course σ := fun run ending => ending = .ended (body run)

/-- The course of what comes behind a computation that always ends. -/
def behind (first : Decode σ α) (next : α → Course σ) : Course σ := fun run ending =>
  match first run with
  | .ok a mid => next a mid ending
  | .error e mid => ending = .ended (.error e mid)

/-- A body that is run on the next bytes only. Where these are not there, it is not run. -/
def inRange (arithmetic : Arithmetic) (declared : Nat) (body : Course σ) : Course σ :=
  fun run ending =>
    if run.cursor.position + declared ≤ run.cursor.limit then
      ∃ inner, body (run.narrowed declared) inner ∧ ending = inner.leave arithmetic declared run
    else ending = .ended (.error (.truncated run.cursor.position declared run.cursor.limit) run)

/-- Rounds for as long as there is more. -/
inductive loop (more : Cursor → Bool) (round : Course σ) : Run σ → Ending σ → Prop
  | done {run : Run σ} : more run.cursor = false → loop more round run (.ended (.ok () run))
  | failed {run next : Run σ} {e : DecodeError} : more run.cursor = true →
      round run (.ended (.error e next)) → loop more round run (.ended (.error e next))
  | overflow {run : Run σ} {state : σ} : more run.cursor = true →
      round run (.overflow state) → loop more round run (.overflow state)
  | again {run next : Run σ} {ending : Ending σ} : more run.cursor = true →
      round run (.ended (.ok () next)) → loop more round next ending →
      loop more round run ending

section

variable {more : Cursor → Bool} {round : Course σ} {run : Run σ}

theorem loop_of_done (h : more run.cursor = false) (ending : Ending σ) :
    loop more round run ending ↔ ending = .ended (.ok () run) := by
  constructor
  · intro hloop
    cases hloop with
    | done => rfl
    | failed hmore => simp [h] at hmore
    | overflow hmore => simp [h] at hmore
    | again hmore => simp [h] at hmore
  · rintro rfl
    exact .done h

/-- A round that ends well is followed by the others. -/
theorem loop_of_ok (h : more run.cursor = true) {next : Run σ}
    (hround : ∀ other, round run other ↔ other = .ended (.ok () next)) (ending : Ending σ) :
    loop more round run ending ↔ loop more round next ending := by
  constructor
  · intro hloop
    cases hloop with
    | done hdone => simp [h] at hdone
    | failed _ hfailed => cases (hround _).1 hfailed
    | overflow _ hover => cases (hround _).1 hover
    | again _ hok hrest =>
      cases (hround _).1 hok
      exact hrest
  · exact .again h ((hround _).2 rfl)

/-- Any other round is the last. -/
theorem loop_of_last (h : more run.cursor = true) {last : Ending σ}
    (hround : ∀ other, round run other ↔ other = last)
    (hlast : ∀ next, last ≠ .ended (.ok () next)) (ending : Ending σ) :
    loop more round run ending ↔ ending = last := by
  constructor
  · intro hloop
    cases hloop with
    | done hdone => simp [h] at hdone
    | failed _ hfailed => exact (hround _).1 hfailed
    | overflow _ hover => exact (hround _).1 hover
    | again _ hok => exact absurd ((hround _).1 hok).symm (hlast _)
  · rintro rfl
    cases ending with
    | overflow state => exact .overflow h ((hround _).2 rfl)
    | ended result =>
      cases result with
      | error e next => exact .failed h ((hround _).2 rfl)
      | ok u next => exact absurd rfl (hlast next)

end

/-! ## Courses that are determined -/

/-- From a valid cursor, the course ends in one way: as the computation does or in an overflow, and
without one in regions that are calm. -/
def Determined (calm : Bytes → Prop) (course : Course σ) (body : Decode σ Unit) : Prop :=
  ∀ run : Run σ, run.cursor.Valid → ∃ ending, (∀ other, course run other ↔ other = ending) ∧
    Ending.Replaces (calm run.cursor.region) (body run) ending

variable {calm : Bytes → Prop}

/-- Where it is calm, the course ends as the computation does. -/
theorem Determined.of_calm {course : Course σ} {body : Decode σ Unit}
    (h : course.Determined calm body) {run : Run σ} (hc : run.cursor.Valid)
    (hcalm : calm run.cursor.region) (other : Ending σ) :
    course run other ↔ other = .ended (body run) := by
  obtain ⟨ending, hunique, hreplaces⟩ := h run hc
  rw [hunique]
  generalize body run = result at hreplaces
  cases hreplaces with
  | ended => exact Iff.rfl
  | overflow _ hnot => exact absurd hcalm hnot

theorem Determined.of (body : Decode σ Unit) : Determined calm (.of body) body :=
  fun run _ => ⟨.ended (body run), fun _ => Iff.rfl, .ended _⟩

/-- What comes behind is determined for all that comes in front. -/
theorem Determined.behind {first : Decode σ α} {next : α → Course σ} {next' : α → Decode σ Unit}
    (hkeeps : Keeps .narrowing first)
    (hnext : ∀ run a mid, first run = .ok a mid → Determined calm (next a) (next' a)) :
    Determined calm (.behind first next) (first >>= next') := by
  intro run hc
  rw [bind_apply]
  unfold Course.behind
  cases hr : first run with
  | error e mid => exact ⟨.ended (.error e mid), fun _ => Iff.rfl, .ended _⟩
  | ok a mid =>
    have hmove := hkeeps.narrows hc hr
    obtain ⟨ending, hunique, hreplaces⟩ :=
      hnext run a mid hr mid (Motion.narrowing.valid hc hmove)
    exact ⟨ending, hunique, hmove.region ▸ hreplaces⟩

theorem Determined.inRange {arithmetic : Arithmetic} {course : Course σ} {body : Decode σ Unit}
    (h : course.Determined calm body)
    (hcalm : arithmetic = .checked → ∀ run : Run σ, run.cursor.Valid → calm run.cursor.region →
      ¬ Overflows run.cursor (body run)) (declared : Nat) :
    Determined calm (.inRange arithmetic declared course) (Decode.inRange declared body) := by
  intro run hc
  unfold Course.inRange
  by_cases hfit : run.cursor.position + declared ≤ run.cursor.limit
  · have hinner : (run.narrowed declared).cursor.Valid := hc.narrowed hfit
    obtain ⟨inner, hunique, hreplaces⟩ := h (run.narrowed declared) hinner
    simp only [if_pos hfit, hunique, exists_eq_left]
    exact ⟨_, fun _ => Iff.rfl,
      hreplaces.leave hfit fun hchecked hregion => hcalm hchecked _ hinner hregion⟩
  · simp only [if_neg hfit]
    rw [inRange_eq, if_neg hfit]
    exact ⟨_, fun _ => Iff.rfl, .ended _⟩

/-- A loop of rounds that go on, and that are run inside the region only, ends within as many rounds
as there are bytes in front of the end of the region. -/
theorem Determined.loop {more : Cursor → Bool} {round : Course σ} {round' : Decode σ Unit}
    {region : Bytes}
    (hmore : ∀ c : Cursor, c.Valid → c.region = region → more c → c.position < region.length)
    (hround : round.Determined calm round') (hkeeps : Keeps .narrowing round')
    (hprogress : ∀ run next : Run σ, run.cursor.Valid → round' run = .ok () next →
      run.cursor.position < next.cursor.position) (bound : Nat) {run : Run σ}
    (hc : run.cursor.Valid) (hregion : run.cursor.region = region)
    (hbound : region.length - run.cursor.position ≤ bound) :
    ∃ ending, (∀ other, Course.loop more round run other ↔ other = ending) ∧
      Ending.Replaces (calm region) (Decode.repeatWhile more round' bound run) ending := by
  -- what is left of the region bounds the rounds, and each of them leaves less
  induction bound generalizing run with
  | zero =>
    have hdone : more run.cursor = false := by
      rw [← Bool.not_eq_true]
      intro hgoes
      have hless := hmore _ hc hregion hgoes
      omega
    rw [repeatWhile_done hdone]
    exact ⟨_, loop_of_done hdone, .ended _⟩
  | succ bound ih =>
    by_cases hgoes : more run.cursor = true
    · obtain ⟨ending, hunique, hreplaces⟩ := hround run hc
      rw [repeatWhile_succ, if_pos hgoes]
      rw [hregion] at hreplaces
      cases hr : round' run with
      | error e next =>
        rw [hr] at hreplaces
        refine ⟨ending, loop_of_last hgoes hunique ?_, hreplaces⟩
        rintro next rfl
        cases hreplaces
      | ok u next =>
        rw [hr] at hreplaces
        cases hreplaces
        have hmove := hkeeps.narrows hc hr
        have hless := hprogress run next hc hr
        simp only [loop_of_ok hgoes hunique]
        exact ih (Motion.narrowing.valid hc hmove) (hmove.region.trans hregion) (by omega)
    · rw [Bool.not_eq_true] at hgoes
      rw [repeatWhile_done hgoes]
      exact ⟨_, loop_of_done hgoes, .ended _⟩

/-! ## Courses with notes -/

/-- A course that another is, and that takes notes. -/
def Notes (noting : Course (Noted σ)) (course : Course σ) : Prop :=
  ∀ run ending, noting run ending → course run.unnoted ending.unnoted

theorem Notes.of {noting : Decode (Noted σ) Unit} {body : Decode σ Unit}
    (h : Decode.Notes noting body) : Notes (.of noting) (.of body) := by
  rintro run _ rfl
  exact congrArg Ending.ended (h run)

theorem Notes.behind {first : Decode (Noted σ) α} {first' : Decode σ α}
    {next : α → Course (Noted σ)} {next' : α → Course σ} (hfirst : Decode.Notes first first')
    (hnext : ∀ a, Notes (next a) (next' a)) :
    Notes (.behind first next) (.behind first' next') := by
  intro run ending h
  unfold Course.behind at h ⊢
  rw [← hfirst run]
  cases hr : first run with
  | error e mid =>
    rw [hr] at h
    exact congrArg Ending.unnoted h
  | ok a mid =>
    rw [hr] at h
    exact hnext a mid ending h

theorem Notes.inRange {noting : Course (Noted σ)} {course : Course σ} (h : Notes noting course)
    (arithmetic : Arithmetic) (declared : Nat) :
    Notes (.inRange arithmetic declared noting) (.inRange arithmetic declared course) := by
  intro run ending hrange
  unfold Course.inRange at hrange ⊢
  rw [Run.cursor_unnoted]
  by_cases hfit : run.cursor.position + declared ≤ run.cursor.limit
  · rw [if_pos hfit] at hrange ⊢
    obtain ⟨inner, hinner, rfl⟩ := hrange
    exact ⟨inner.unnoted, h _ inner hinner, Ending.unnoted_leave arithmetic declared run inner⟩
  · rw [if_neg hfit] at hrange ⊢
    exact congrArg Ending.unnoted hrange

theorem Notes.loop {noting : Course (Noted σ)} {course : Course σ} (h : Notes noting course)
    (more : Cursor → Bool) : Notes (.loop more noting) (.loop more course) := by
  intro run ending hloop
  induction hloop with
  | done hmore => exact .done hmore
  | failed hmore hround => exact .failed hmore (h _ _ hround)
  | overflow hmore hround => exact .overflow hmore (h _ _ hround)
  | again hmore hround _ ih => exact .again hmore (h _ _ hround) ih

end Course

end WireFormat
