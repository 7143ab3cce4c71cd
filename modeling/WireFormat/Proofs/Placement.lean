import WireFormat.Proofs.Range

/-!
# The same bytes further on

A part of a region is a region of its own, and a cursor inside the part sees the same bytes as one
that has only the part. Two computations are `Alike` if on two such cursors they do the same: they
end well together, or they fail with the same error, which differs by the distance between the two
places and by nothing else.

One thing has to be followed beside that. A truncation names the limit it ran into, and `inRange`
goes by this name. `EndsAlike` says that it is never the limit of another range, so the range that
is declared too short is told apart from the ranges around it even where they end together.
-/

namespace WireFormat

open Decode

/-! ## Places -/

/-- A cursor in a region, and the cursor at the same bytes where that region lies `distance` bytes
from the front of a larger one. -/
structure Cursor.Inside (distance : Nat) (inner outer : Cursor) : Prop where
  valid : inner.Valid
  region : ∃ before after, outer.region = before ++ inner.region ++ after ∧ before.length = distance
  position : outer.position = inner.position + distance
  limit : outer.limit = inner.limit + distance

namespace Cursor

variable {distance : Nat} {inner outer : Cursor}

theorem Inside.remaining_eq (h : inner.Inside distance outer) :
    outer.remaining = inner.remaining := by
  simp only [remaining, h.position, h.limit]
  omega

theorem Inside.outer_valid (h : inner.Inside distance outer) : outer.Valid := by
  obtain ⟨before, after, hregion, hbefore⟩ := h.region
  obtain ⟨hp, hl⟩ := h.valid
  have hlength := congrArg List.length hregion
  simp only [List.length_append] at hlength
  refine ⟨?_, ?_⟩
  · rw [h.position, h.limit]
    omega
  · rw [h.limit]
    omega

theorem Inside.remaining_lt_places (h : inner.Inside distance outer) :
    inner.remaining < outer.places := by
  rw [← h.remaining_eq]
  exact h.outer_valid.remaining_lt_places

theorem Inside.window_eq (h : inner.Inside distance outer) : outer.window = inner.window := by
  obtain ⟨before, after, hregion, hbefore⟩ := h.region
  obtain ⟨hp, hl⟩ := h.valid
  have hinside : inner.position ≤ inner.region.length := Nat.le_trans hp hl
  have hdrop : outer.region.drop outer.position = inner.region.drop inner.position ++ after := by
    rw [hregion, h.position, Nat.add_comm, ← hbefore, List.append_assoc, ← List.drop_drop,
      List.drop_left, List.drop_append_of_le_length hinside]
  have hfit : inner.remaining ≤ (inner.region.drop inner.position).length := by
    rw [List.length_drop, remaining]
    omega
  rw [window, window, h.remaining_eq, hdrop, List.take_append_of_le_length hfit]

theorem Inside.advance (h : inner.Inside distance outer) {n : Nat} (hn : n ≤ inner.remaining) :
    (inner.advance n).Inside distance (outer.advance n) := by
  refine ⟨h.valid.advance hn, h.region, ?_, h.limit⟩
  simp only [position_advance, h.position]
  omega

theorem Inside.withLimit (h : inner.Inside distance outer) {limit limit' : Nat}
    (hvalid : (inner.withLimit limit).Valid) (hlimit : limit' = limit + distance) :
    (inner.withLimit limit).Inside distance (outer.withLimit limit') :=
  ⟨hvalid, h.region, h.position, hlimit⟩

theorem window_advance (c : Cursor) (n : Nat) :
    (c.advance n).window = c.window.drop n := by
  rw [window, window, List.drop_take, List.drop_drop, remaining_advance]
  rfl

theorem window_withLimit {c : Cursor} {n : Nat} (hn : n ≤ c.remaining) :
    (c.withLimit (c.position + n)).window = c.window.take n := by
  have hremaining : (c.withLimit (c.position + n)).remaining = n := Nat.add_sub_cancel_left _ _
  rw [window, window, List.take_take, hremaining, Nat.min_eq_left hn]
  rfl

theorem Advances.remaining_le {c d : Cursor} (h : c.Advances d) : d.remaining ≤ c.remaining := by
  have hp := h.position_le
  simp only [remaining, h.limit]
  omega

end Cursor

/-- Two runs with the same message, as far as it matters, at the same bytes. -/
structure Run.Mirrors {σ : Type} (distance : Nat) (same : σ → σ → Prop) (inner outer : Run σ) :
    Prop where
  state : same inner.state outer.state
  cursor : inner.cursor.Inside distance outer.cursor

/-! ## Errors, and what ranges make of them -/

namespace DecodeError

theorem eq_truncated_of_shift {e : DecodeError} {distance offset needed limit : Nat}
    (h : e.shift distance = .truncated offset needed limit) :
    ∃ offset' limit', e = .truncated offset' needed limit' ∧ limit = limit' + distance := by
  cases e <;> cases h
  exact ⟨_, _, rfl, rfl⟩

end DecodeError

namespace Decode

/-- The bytes from one place to another can be counted: the places are in order, and words hold
them. -/
def Countable (start stop : Nat) : Prop := start ≤ stop ∧ stop < 2 ^ 64

instance (start stop : Nat) : Decidable (Countable start stop) :=
  inferInstanceAs (Decidable (_ ∧ _))

theorem span_eq_mod (start stop : Nat) :
    span start stop = (2 ^ 64 - start % 2 ^ 64 + stop % 2 ^ 64) % 2 ^ 64 := by
  rw [span, UInt64.toNat_sub, UInt64.toNat_ofNat', UInt64.toNat_ofNat']

/-- A count that a word holds is exact. -/
theorem span_eq {start stop : Nat} (hle : start ≤ stop) (hless : stop - start < 2 ^ 64) :
    span start stop = stop - start := by
  rw [span_eq_mod]
  omega

theorem Countable.span_eq {start stop : Nat} (h : Countable start stop) :
    span start stop = stop - start :=
  Decode.span_eq h.1 (Nat.lt_of_le_of_lt (Nat.sub_le _ _) h.2)

/-- Counting from a place further on to one as much further on comes to the same. -/
theorem span_add (start stop distance : Nat) :
    span (start + distance) (stop + distance) = span start stop := by
  rw [span_eq_mod, span_eq_mod]
  omega

theorem rangeError_shift (distance start stop declared : Nat) (e : DecodeError) :
    rangeError (start + distance) (stop + distance) declared (e.shift distance) =
      (rangeError start stop declared e).shift distance := by
  cases e with
  | truncated offset needed limit =>
    by_cases hstop : limit = stop
    · have hactual : span (start + distance) (offset + distance + needed) =
          span start (offset + needed) := by
        rw [Nat.add_right_comm, span_add]
      simp [rangeError, DecodeError.shift, hstop, hactual]
    · simp [rangeError, DecodeError.shift, hstop]
  | _ => rfl

/-- A range does not let out the truncations that name its own end. -/
theorem ne_of_rangeError_eq_truncated {start stop declared offset needed limit : Nat}
    {e : DecodeError} (h : rangeError start stop declared e = .truncated offset needed limit) :
    e = .truncated offset needed limit ∧ limit ≠ stop := by
  cases e with
  | truncated offset' needed' limit' =>
    by_cases hstop : limit' = stop
    · rw [rangeError, if_pos hstop] at h
      cases h
    · rw [rangeError, if_neg hstop] at h
      cases h
      exact ⟨rfl, hstop⟩
  | _ => cases h

theorem rangeError_of_ne {start stop declared : Nat} {e : DecodeError}
    (h : ∀ offset needed limit, e ≠ .truncated offset needed limit) :
    rangeError start stop declared e = e := by
  cases e with
  | truncated offset needed limit => exact absurd rfl (h offset needed limit)
  | _ => rfl

/-! ## Computations that do the same -/

variable {σ τ α β : Type} {distance bound : Nat} {same : σ → σ → Prop}

/-- Two results that say the same of the same bytes, with no truncation but at `limit`. -/
inductive EndsAlike (distance : Nat) (same : σ → σ → Prop) (limit : Nat) :
    EStateM.Result DecodeError (Run σ) α → EStateM.Result DecodeError (Run σ) α → Prop
  | ok {a : α} {run run' : Run σ} :
      run.Mirrors distance same run' → EndsAlike distance same limit (.ok a run) (.ok a run')
  | error {e : DecodeError} {run run' : Run σ} :
      run.Mirrors distance same run' →
      (∀ offset needed stop, e = .truncated offset needed stop → stop = limit) →
      EndsAlike distance same limit (.error e run) (.error (e.shift distance) run')

/-- Two computations do the same at the same bytes, as long as less than `bound` of them are left.
-/
def Alike (distance : Nat) (same : σ → σ → Prop) (bound : Nat) (body body' : Decode σ α) : Prop :=
  ∀ run run' : Run σ, run.Mirrors distance same run' → run.cursor.remaining < bound →
    EndsAlike distance same run.cursor.limit (body run) (body' run')

theorem Keeps.advances {body : Decode σ α} (hbody : Keeps .advancing body) {run after : Run σ}
    {a : α} (hc : run.cursor.Valid) (h : body run = .ok a after) :
    run.cursor.Advances after.cursor := by
  have hkept : run.cursor.Advances (final (body run)).cursor := hbody run hc
  rw [h] at hkept
  exact hkept

theorem Alike.pure (a : α) : Alike distance same bound (Pure.pure a) (Pure.pure a) := by
  intro run run' h _
  exact .ok h

theorem Alike.cursor_bind {next next' : Cursor → Decode σ α}
    (hnext : ∀ c c', c.Inside distance c' → Alike distance same bound (next c) (next' c')) :
    Alike distance same bound (cursor >>= next) (cursor >>= next') := by
  intro run run' h hbound
  exact hnext run.cursor run'.cursor h.cursor run run' h hbound

theorem Alike.get_bind {next next' : Run σ → Decode σ α}
    (hnext : ∀ run run', Run.Mirrors distance same run run' →
      Alike distance same bound (next run) (next' run')) :
    Alike distance same bound (get >>= next) (get >>= next') := by
  intro run run' h hbound
  exact hnext run run' h run run' h hbound

/-- Failing for a reason that has no place in the bytes. -/
theorem Alike.throw {e : DecodeError} (hshift : e.shift distance = e)
    (hother : ∀ offset needed stop, e ≠ .truncated offset needed stop) :
    Alike distance same bound (throw e : Decode σ α) (throw e) := by
  intro run run' h _
  have hend : EndsAlike distance same run.cursor.limit
      (.error e run : EStateM.Result DecodeError (Run σ) α) (.error (e.shift distance) run') :=
    .error h fun offset needed stop he => absurd he (hother offset needed stop)
  rw [hshift] at hend
  exact hend

theorem Alike.onState {change change' : σ → σ}
    (hchange : ∀ s s', same s s' → same (change s) (change' s')) :
    Alike distance same bound (Decode.onState change) (Decode.onState change') := by
  intro run run' h _
  exact .ok ⟨hchange _ _ h.state, h.cursor⟩

theorem Alike.onPart {part : σ → τ} {place : τ → σ → σ} {samePart : τ → τ → Prop}
    {body body' : Decode τ α} (hpart : ∀ s s', same s s' → samePart (part s) (part s'))
    (hplace : ∀ t t' s s', samePart t t' → same s s' → same (place t s) (place t' s'))
    (hbody : Alike distance samePart bound body body') :
    Alike distance same bound (Decode.onPart part place body)
      (Decode.onPart part place body') := by
  intro run run' h hless
  have hparts : Run.Mirrors distance samePart ⟨part run.state, run.cursor⟩
      ⟨part run'.state, run'.cursor⟩ := ⟨hpart _ _ h.state, h.cursor⟩
  have hend := hbody _ _ hparts hless
  unfold Decode.onPart
  generalize body ⟨part run.state, run.cursor⟩ = result at hend ⊢
  generalize body' ⟨part run'.state, run'.cursor⟩ = result' at hend ⊢
  cases hend with
  | ok hm => exact .ok ⟨hplace _ _ _ _ hm.state h.state, hm.cursor⟩
  | error hm htruncated => exact .error ⟨hplace _ _ _ _ hm.state h.state, hm.cursor⟩ htruncated

/-- What goes on where fewer bytes are left only has to do the same there. -/
theorem Alike.bindLess {first first' : Decode σ α} {next next' : α → Decode σ β} {less : Nat}
    (hfirst : Alike distance same bound first first') (hkeeps : Keeps .advancing first)
    (hless : ∀ run a after, run.cursor.Valid → run.cursor.remaining < bound →
      first run = .ok a after → after.cursor.remaining < less)
    (hnext : ∀ a, Alike distance same less (next a) (next' a)) :
    Alike distance same bound (first >>= next) (first' >>= next') := by
  intro run run' h hbound
  have hend := hfirst run run' h hbound
  rw [bind_apply, bind_apply]
  generalize hr : first run = result at hend ⊢
  generalize first' run' = result' at hend ⊢
  cases hend with
  | error hm htruncated => exact .error hm htruncated
  | @ok a after after' hm =>
    have hlimit := (hkeeps.advances h.cursor.valid hr).limit
    have hrest := hnext a after after' hm (hless run a after h.cursor.valid hbound hr)
    rw [hlimit] at hrest
    exact hrest

theorem Alike.bind {first first' : Decode σ α} {next next' : α → Decode σ β}
    (hfirst : Alike distance same bound first first') (hkeeps : Keeps .advancing first)
    (hnext : ∀ a, Alike distance same bound (next a) (next' a)) :
    Alike distance same bound (first >>= next) (first' >>= next') := by
  refine hfirst.bindLess hkeeps (fun run a after hc hbound hr => ?_) hnext
  exact Nat.lt_of_le_of_lt (hkeeps.advances hc hr).remaining_le hbound

/-- An error that was found in the window of the cursor. -/
theorem EndsAlike.window {e : DecodeError} {run run' after after' : Run σ}
    (h : run.Mirrors distance same run') (hm : after.Mirrors distance same after')
    (hend : ∀ offset needed stop, e = .truncated offset needed stop →
      stop = run.cursor.window.length) :
    EndsAlike distance same run.cursor.limit
      (.error (e.shift run.cursor.position) after : EStateM.Result DecodeError (Run σ) α)
      (.error (e.shift run'.cursor.position) after') := by
  rw [h.cursor.position, ← DecodeError.shift_shift]
  refine .error hm fun offset needed stop he => ?_
  obtain ⟨offset', stop', rfl, rfl⟩ := DecodeError.eq_truncated_of_shift he
  have hp := h.cursor.valid.1
  rw [hend _ _ _ rfl, Cursor.length_window h.cursor.valid, Cursor.remaining]
  omega

theorem read_apply {reader : Reader α} {run : Run σ} {a : α} {n : Nat}
    (h : reader run.cursor.window = .ok (a, n)) :
    onCursor (Cursor.read reader) run = .ok a ⟨run.state, run.cursor.advance n⟩ := by
  unfold onCursor Cursor.read
  rw [h]

theorem read_eq_ok {reader : Reader α} {run after : Run σ} {a : α}
    (h : onCursor (Cursor.read reader) run = .ok a after) :
    ∃ n, reader run.cursor.window = .ok (a, n) ∧ after = ⟨run.state, run.cursor.advance n⟩ := by
  unfold onCursor Cursor.read at h
  cases hr : reader run.cursor.window with
  | error e =>
    rw [hr] at h
    cases h
  | ok r =>
    rw [hr] at h
    cases h
    exact ⟨_, rfl, rfl⟩

theorem Alike.read {reader : Reader α} (hreader : reader.Orderly) :
    Alike distance same bound (onCursor (Cursor.read reader)) (onCursor (Cursor.read reader)) := by
  intro run run' h _
  unfold onCursor Cursor.read
  rw [h.cursor.window_eq]
  cases hr : reader run.cursor.window with
  | error e =>
    refine .window h h fun offset needed stop he => ?_
    rw [he] at hr
    exact hreader.truncated hr
  | ok r =>
    obtain ⟨a, n⟩ := r
    have hn := hreader.le_length hr
    rw [Cursor.length_window h.cursor.valid] at hn
    exact .ok ⟨h.state, h.cursor.advance hn⟩

theorem Alike.skip (decoder : Decoder) (tag : Tag) :
    Alike distance same bound (onCursor (decoder.skip tag)) (onCursor (decoder.skip tag)) := by
  intro run run' h _
  have hscan := decoder.orderly_skipBytes tag run.cursor.window
  unfold onCursor Decoder.skip Cursor.pass
  rw [h.cursor.window_eq]
  rcases hr : decoder.skipBytes tag run.cursor.window with ⟨e, n⟩ | n
  · have hn := hscan.passed_le
    rw [hr, Cursor.length_window h.cursor.valid] at hn
    refine .window h ⟨h.state, h.cursor.advance hn⟩ fun offset needed stop he => ?_
    rw [he] at hr
    exact hscan.truncated hr
  · have hn := hscan.passed_le
    rw [hr, Cursor.length_window h.cursor.valid] at hn
    exact .ok ⟨h.state, h.cursor.advance hn⟩

theorem Alike.inRange {body body' : Decode σ Unit} (hbody : Alike distance same bound body body')
    (hkeeps : Keeps .advancing body) (declared : Nat) :
    Alike distance same bound (Decode.inRange declared body) (Decode.inRange declared body') := by
  intro run run' h hbound
  obtain ⟨s, c⟩ := run
  obtain ⟨s', c'⟩ := run'
  obtain ⟨hs, hc⟩ := h
  have hposition : c'.position = c.position + distance := hc.position
  have hlimit : c'.limit = c.limit + distance := hc.limit
  rw [inRange_eq, inRange_eq]
  simp only at hs hc hbound ⊢
  by_cases hfit : c.position + declared ≤ c.limit
  · have hfit' : c'.position + declared ≤ c'.limit := by omega
    have hstop : c'.position + declared = c.position + declared + distance := by omega
    have hvalid := hc.valid.narrowed hfit
    have hless := Nat.lt_of_le_of_lt (Cursor.remaining_narrowed_le hfit) hbound
    have hend := hbody ⟨s, c.withLimit (c.position + declared)⟩
      ⟨s', c'.withLimit (c'.position + declared)⟩ ⟨hs, hc.withLimit hvalid hstop⟩ hless
    have hkept := hkeeps ⟨s, c.withLimit (c.position + declared)⟩ hvalid
    have hback := Motion.advancing.valid hc.valid (Motion.advancing.range hc.valid hfit hkept)
    rw [if_pos hfit, if_pos hfit']
    generalize body ⟨s, c.withLimit (c.position + declared)⟩ = result at hend hback ⊢
    generalize body' ⟨s', c'.withLimit (c'.position + declared)⟩ = result' at hend ⊢
    cases hend with
    | error hm htruncated =>
      simp only
      rw [hstop, hposition, rangeError_shift]
      refine .error ⟨hm.state, hm.cursor.withLimit hback hlimit⟩ fun offset needed stop he => ?_
      -- the end of the range is the only limit that the body can have named
      obtain ⟨he, hne⟩ := ne_of_rangeError_eq_truncated he
      exact absurd (htruncated _ _ _ he) hne
    | @ok u after after' hm =>
      have hat := hm.cursor.position
      have hmirrors : Run.Mirrors distance same ⟨after.state, after.cursor.withLimit c.limit⟩
          ⟨after'.state, after'.cursor.withLimit c'.limit⟩ :=
        ⟨hm.state, hm.cursor.withLimit hback hlimit⟩
      by_cases hlands : after.cursor.position = c.position + declared
      · have hlands' : after'.cursor.position = c'.position + declared := by omega
        simp only
        rw [if_pos hlands, if_pos hlands']
        exact .ok hmirrors
      · have hlands' : after'.cursor.position ≠ c'.position + declared := by omega
        have hactual : span c'.position after'.cursor.position =
            span c.position after.cursor.position := by
          rw [hat, hposition, span_add]
        simp only
        rw [if_neg hlands, if_neg hlands', hactual, hposition]
        refine .error hmirrors fun offset needed stop he => ?_
        cases he
  · have hfit' : ¬ c'.position + declared ≤ c'.limit := by omega
    rw [if_neg hfit, if_neg hfit', hposition, hlimit]
    refine .error ⟨hs, hc⟩ fun offset needed stop he => ?_
    cases he
    rfl

/-- A loop is over where there is no more to do, whatever its bound. -/
theorem repeatWhile_done {more : Cursor → Bool} {round : Decode σ Unit} {run : Run σ}
    (h : more run.cursor = false) (rounds : Nat) :
    Decode.repeatWhile more round rounds run = .ok () run := by
  cases rounds with
  | zero => simp [repeatWhile_zero, h]
  | succ rounds => simp [repeatWhile_succ, h]

/-- Where there is more to do, a loop is a round and the loop again. -/
theorem repeatWhile_more {more : Cursor → Bool} {round : Decode σ Unit} {run : Run σ}
    (h : more run.cursor = true) (rounds : Nat) :
    Decode.repeatWhile more round (rounds + 1) run =
      (round >>= fun _ => Decode.repeatWhile more round rounds) run := by
  rw [repeatWhile_succ, if_pos h, bind_apply]
  cases round run <;> rfl

theorem EndsAlike.atEnd {more more' : Cursor → Bool} {round round' : Decode σ Unit} {limit : Nat}
    (hmore : ∀ c : Cursor, c.limit = limit → (more c = true ↔ c.position < limit))
    (hmore' : ∀ c : Cursor, c.limit = limit + distance →
      (more' c = true ↔ c.position < limit + distance))
    {run run' : Run σ} (h : run.Mirrors distance same run') (hlimit : run.cursor.limit = limit)
    (hend : ¬ run.cursor.position < limit) (rounds rounds' : Nat) :
    EndsAlike distance same limit (Decode.repeatWhile more round rounds run)
      (Decode.repeatWhile more' round' rounds' run') := by
  have hlimit' : run'.cursor.limit = limit + distance := by rw [h.cursor.limit, hlimit]
  have hend' : ¬ run'.cursor.position < limit + distance := by
    have hposition := h.cursor.position
    omega
  rw [← hmore _ hlimit, Bool.not_eq_true] at hend
  rw [← hmore' _ hlimit', Bool.not_eq_true] at hend'
  rw [repeatWhile_done hend, repeatWhile_done hend']
  exact .ok h

/-- Two loops do the same if their rounds do, if both go on as long as bytes are left, and if every
round takes some. They need not have the same bound, only enough of it. -/
theorem EndsAlike.repeatWhile {more more' : Cursor → Bool} {round round' : Decode σ Unit}
    {limit : Nat} (hmore : ∀ c : Cursor, c.limit = limit → (more c = true ↔ c.position < limit))
    (hmore' : ∀ c : Cursor, c.limit = limit + distance →
      (more' c = true ↔ c.position < limit + distance))
    (hround : Alike distance same bound round round') (hkeeps : Keeps .advancing round)
    (hprogress : ∀ run after, run.cursor.Valid → round run = .ok () after →
      run.cursor.position < after.cursor.position) :
    ∀ (rounds rounds' : Nat) (run run' : Run σ), run.Mirrors distance same run' →
      run.cursor.limit = limit → run.cursor.remaining < bound →
      run.cursor.remaining ≤ rounds → run.cursor.remaining ≤ rounds' →
      EndsAlike distance same limit (Decode.repeatWhile more round rounds run)
        (Decode.repeatWhile more' round' rounds' run') := by
  intro rounds
  induction rounds with
  | zero =>
    intro rounds' run run' h hlimit hbound hrounds hrounds'
    exact atEnd hmore hmore' h hlimit (by simp only [Cursor.remaining] at hrounds; omega) _ _
  | succ rounds ih =>
    intro rounds' run run' h hlimit hbound hrounds hrounds'
    by_cases hless : run.cursor.position < limit
    · have hlimit' : run'.cursor.limit = limit + distance := by rw [h.cursor.limit, hlimit]
      have hless' : run'.cursor.position < limit + distance := by
        have hposition := h.cursor.position
        omega
      have hleft : run.cursor.remaining ≠ 0 := by
        simp only [Cursor.remaining]
        omega
      obtain ⟨rounds', rfl⟩ := Nat.exists_eq_succ_of_ne_zero (n := rounds') (by omega)
      rw [repeatWhile_succ, repeatWhile_succ, if_pos ((hmore _ hlimit).2 hless),
        if_pos ((hmore' _ hlimit').2 hless')]
      have hend := hround run run' h hbound
      rw [hlimit] at hend
      generalize hr : round run = result at hend ⊢
      generalize round' run' = result' at hend ⊢
      cases hend with
      | error hm htruncated => exact .error hm htruncated
      | @ok u after after' hm =>
        have hmove := hkeeps.advances h.cursor.valid hr
        have hfewer : after.cursor.remaining < run.cursor.remaining := by
          have hp := hprogress run after h.cursor.valid hr
          simp only [Cursor.remaining, hmove.limit]
          omega
        exact ih rounds' after after' hm (hmove.limit.trans hlimit) (by omega) (by omega) (by omega)
    · exact atEnd hmore hmore' h hlimit hless _ _

end Decode

end WireFormat
