import WireFormat.Proofs.Located

/-!
# Runs that tell where the bytes are wrong

A computation tells of all the bytes up to its limit (`Locates`). What its parts tell the whole
tells: the error of a part that starts further on points further on. A range turns the truncations
of its body into wrong lengths, and a body that goes through all of its range leaves no other way to
get the length wrong.

What a decoder needs of its visitor is put together in `Dutiful`. The visitors of schemas without
scripts are dutiful, with levels of messages enough for the bytes, so their errors are `Located` and
none of them says that something is unsupported.
-/

namespace WireFormat

open Decode

/-! ## Bytes up to the limit -/

namespace Cursor

/-- The bytes up to the limit, those before the position included. -/
def upToLimit (c : Cursor) : Bytes := c.region.take c.limit

theorem Valid.length_upToLimit {c : Cursor} (h : c.Valid) : c.upToLimit.length = c.limit :=
  List.length_take_of_le h.2

theorem Valid.upToLimit_eq {c : Cursor} (h : c.Valid) :
    c.upToLimit = c.region.take c.position ++ c.window := by
  have hsplit : c.limit = c.position + c.remaining := by
    have hp := h.1
    rw [remaining]
    omega
  rw [upToLimit, hsplit, List.take_add, window]

theorem Advances.upToLimit_eq {c d : Cursor} (h : c.Advances d) : d.upToLimit = c.upToLimit := by
  rw [upToLimit, upToLimit, h.region, h.limit]

/-- The bytes up to a lower limit come first. -/
theorem upToLimit_withLimit {c : Cursor} {limit : Nat} (h : limit ≤ c.limit) :
    ∃ after, c.upToLimit = (c.withLimit limit).upToLimit ++ after := by
  refine ⟨(c.region.take c.limit).drop limit, ?_⟩
  have hsplit := List.take_append_drop limit (c.region.take c.limit)
  rw [List.take_take, Nat.min_eq_left h] at hsplit
  exact hsplit.symm

end Cursor

/-- An error found in the window, told of all the bytes up to the limit. -/
theorem DecodeError.Located.ofWindow {decoder : Decoder} {start : Nat} {e : DecodeError}
    {c : Cursor} (hc : c.Valid) (h : e.Located decoder start c.window) :
    (e.shift c.position).Located decoder (c.position + start) c.upToLimit := by
  have hfront : (c.region.take c.position).length = c.position :=
    List.length_take_of_le (Nat.le_trans hc.1 hc.2)
  have hmoved := h.behind (c.region.take c.position)
  rwa [hfront, ← hc.upToLimit_eq, Nat.add_comm] at hmoved

namespace Decode

/-- An error inside a range, told where the range is left. -/
theorem located_rangeError {decoder : Decoder} {start begins declared : Nat} {bytes : Bytes}
    {e : DecodeError} (h : e.Located decoder start bytes)
    (hlength : bytes.length = begins + declared) (hdeclared : declared ≤ 2 ^ 32) (after : Bytes) :
    (rangeError begins (begins + declared) declared e).Located decoder start (bytes ++ after) := by
  by_cases hother : ∀ offset needed limit, e ≠ .truncated offset needed limit
  · rw [rangeError_of_ne hother]
    exact h.before after hother
  · cases h with
    | truncated hoffset hends hneeded =>
      -- the bytes wanted behind a range are few enough to count
      rw [rangeError, if_pos hlength, span_eq (by omega) (by omega)]
      exact .malformedLength (by rw [List.length_append]; omega) (by omega)
    | _ => exact absurd (by intro _ _ _ h; cases h) hother

variable {σ τ α β : Type} {decoder : Decoder} {lead bound : Nat}

/-- The errors of a computation point into the bytes up to the limit, at values that begin `lead`
bytes behind the position at the earliest, as long as less than `bound` bytes are left. -/
def Locates (decoder : Decoder) (lead bound : Nat) (body : Decode σ α) : Prop :=
  ∀ (run : Run σ) (e : DecodeError) (after : Run σ), run.cursor.Valid →
    run.cursor.remaining < bound → body run = .error e after →
    e.Located decoder (run.cursor.position + lead) run.cursor.upToLimit

/-! ## Putting computations together -/

theorem Locates.pure (a : α) : Locates decoder lead bound (Pure.pure a : Decode σ α) := by
  intro run e after _ _ h
  cases h

theorem Locates.onState (change : σ → σ) :
    Locates decoder lead bound (Decode.onState change) := by
  intro run e after _ _ h
  cases h

theorem Locates.cursor_bind {next : Cursor → Decode σ α}
    (hnext : ∀ c, Locates decoder lead bound (next c)) :
    Locates decoder lead bound (cursor >>= next) := by
  intro run e after hc hbound h
  exact hnext run.cursor run e after hc hbound h

theorem Locates.onPart {part : σ → τ} {place : τ → σ → σ} {body : Decode τ α}
    (hbody : Locates decoder lead bound body) :
    Locates decoder lead bound (Decode.onPart part place body) := by
  intro run e after hc hbound h
  unfold Decode.onPart at h
  cases hr : body ⟨part run.state, run.cursor⟩ with
  | ok a sub =>
    rw [hr] at h
    cases h
  | error e' sub =>
    rw [hr] at h
    cases h
    exact hbody ⟨part run.state, run.cursor⟩ _ sub hc hbound hr

/-- What goes on where a value lies closer and fewer bytes are left. -/
theorem Locates.bindLess {first : Decode σ α} {next : α → Decode σ β} {lead' less : Nat}
    (hfirst : Locates decoder lead bound first) (hkeeps : Keeps .advancing first)
    (hless : ∀ run a after, run.cursor.Valid → run.cursor.remaining < bound →
      first run = .ok a after → after.cursor.remaining < less ∧
        run.cursor.position + lead ≤ after.cursor.position + lead')
    (hnext : ∀ a, (∃ run after, first run = .ok a after) →
      Locates decoder lead' less (next a)) :
    Locates decoder lead bound (first >>= next) := by
  intro run e after hc hbound h
  rw [bind_apply] at h
  cases hr : first run with
  | error e' mid =>
    simp only [hr] at h
    cases h
    exact hfirst run _ _ hc hbound hr
  | ok a mid =>
    simp only [hr] at h
    have hmove := hkeeps.advances hc hr
    obtain ⟨hfewer, hcloser⟩ := hless run a mid hc hbound hr
    have hlocated := hnext a ⟨run, mid, hr⟩ mid e after (Motion.advancing.valid hc hmove) hfewer h
    rw [hmove.upToLimit_eq] at hlocated
    exact hlocated.mono hcloser

theorem Locates.bind {first : Decode σ α} {next : α → Decode σ β}
    (hfirst : Locates decoder lead bound first) (hkeeps : Keeps .advancing first)
    (hnext : ∀ a, (∃ run after, first run = .ok a after) →
      Locates decoder lead bound (next a)) :
    Locates decoder lead bound (first >>= next) := by
  refine hfirst.bindLess hkeeps (fun run a after hc hbound hr => ?_) hnext
  have hmove := hkeeps.advances hc hr
  exact ⟨Nat.lt_of_le_of_lt hmove.remaining_le hbound,
    Nat.add_le_add_right hmove.position_le lead⟩

theorem Locates.read {reader : Reader α} (h : reader.Locates decoder lead) :
    Locates decoder lead bound (onCursor (Cursor.read reader) : Decode σ α) := by
  intro run e after hc _ he
  unfold onCursor Cursor.read at he
  cases hr : reader run.cursor.window with
  | ok r =>
    rw [hr] at he
    cases he
  | error e' =>
    rw [hr] at he
    cases he
    exact .ofWindow hc (h _ _ hr)

theorem Locates.skip (decoder : Decoder) (tag : Tag) :
    Locates decoder 0 bound (onCursor (decoder.skip tag) : Decode σ Unit) := by
  intro run e after hc _ he
  unfold onCursor Decoder.skip Cursor.pass at he
  rcases hr : decoder.skipBytes tag run.cursor.window with ⟨e', n⟩ | n
  · rw [hr] at he
    cases he
    exact .ofWindow hc (Decoder.located_skipBytes hr)
  · rw [hr] at he
    cases he

/-- A computation that ends well only at the limit. -/
def Exhausts (body : Decode σ Unit) : Prop :=
  ∀ run after : Run σ, run.cursor.Valid → body run = .ok () after →
    after.cursor.position = run.cursor.limit

/-- A range whose body goes through all of it. -/
theorem Locates.inRange {declared : Nat} {body : Decode σ Unit} (hdeclared : declared ≤ 2 ^ 32)
    (hbody : Locates decoder lead bound body) (hexhausts : Exhausts body) :
    Locates decoder lead bound (Decode.inRange declared body) := by
  intro run e after hc hbound h
  have hlength := hc.length_upToLimit
  have hp := hc.1
  rw [inRange_eq] at h
  by_cases hfit : run.cursor.position + declared ≤ run.cursor.limit
  · rw [if_pos hfit] at h
    have hvalid := hc.narrowed hfit
    have hless := Nat.lt_of_le_of_lt (Cursor.remaining_narrowed_le hfit) hbound
    obtain ⟨more, hmore⟩ := Cursor.upToLimit_withLimit hfit
    cases hr : body ⟨run.state, run.cursor.withLimit (run.cursor.position + declared)⟩ with
    | ok u inner =>
      have hend : inner.cursor.position = run.cursor.position + declared :=
        hexhausts _ _ hvalid hr
      simp only [hr, if_pos hend] at h
      cases h
    | error e' inner =>
      have hlocated := hbody _ e' inner hvalid hless hr
      simp only [hr] at h
      cases h
      rw [hmore]
      exact located_rangeError hlocated hvalid.length_upToLimit hdeclared more
  · rw [if_neg hfit] at h
    cases h
    rw [← hlength]
    exact .truncated (by omega) (by omega) (by omega)

/-- A loop that goes on as long as bytes are left, with enough rounds for them, fails only where a
round does. -/
theorem Locates.repeatWhile {more : Cursor → Bool} {round : Decode σ Unit} {limit : Nat}
    (hmore : ∀ c : Cursor, c.limit = limit → (more c = true ↔ c.position < limit))
    (hround : Locates decoder lead bound round) (hkeeps : Keeps .advancing round)
    (hprogress : ∀ run after, run.cursor.Valid → round run = .ok () after →
      run.cursor.position < after.cursor.position) :
    ∀ (rounds : Nat) (run : Run σ) (e : DecodeError) (after : Run σ), run.cursor.Valid →
      run.cursor.limit = limit → run.cursor.remaining < bound → run.cursor.remaining ≤ rounds →
      Decode.repeatWhile more round rounds run = .error e after →
      e.Located decoder (run.cursor.position + lead) run.cursor.upToLimit := by
  intro rounds
  induction rounds with
  | zero =>
    intro run e after hc hlimit _ hrounds h
    have hdone : more run.cursor = false := by
      rw [← Bool.not_eq_true, hmore _ hlimit]
      simp only [Cursor.remaining] at hrounds
      omega
    rw [repeatWhile_done hdone] at h
    cases h
  | succ rounds ih =>
    intro run e after hc hlimit hbound hrounds h
    by_cases hless : more run.cursor = true
    · rw [repeatWhile_more hless, bind_apply] at h
      cases hr : round run with
      | error e' next =>
        simp only [hr] at h
        cases h
        exact hround run _ _ hc hbound hr
      | ok u next =>
        simp only [hr] at h
        have hmove := hkeeps.advances hc hr
        have hfewer : next.cursor.remaining < run.cursor.remaining := by
          have hp := hprogress run next hc hr
          have hle := hmove.le_limit
          simp only [Cursor.remaining, hmove.limit] at hle ⊢
          omega
        have hlocated := ih next e after (Motion.advancing.valid hc hmove)
          (hmove.limit.trans hlimit) (by omega) (by omega) h
        rw [hmove.upToLimit_eq] at hlocated
        exact hlocated.mono (Nat.add_le_add_right hmove.position_le lead)
    · rw [Bool.not_eq_true] at hless
      rw [repeatWhile_done hless] at h
      cases h

theorem Locates.mono {body : Decode σ α} (h : Locates decoder lead bound body) {lead' : Nat}
    (hlead : lead' ≤ lead) : Locates decoder lead' bound body := by
  intro run e after hc hbound he
  exact (h run e after hc hbound he).mono (Nat.add_le_add_left hlead _)

end Decode

/-! ## Decoders -/

/-- The visitor reads an element of a packed run, which has a byte at least, or does not know it. -/
def Visitor.TakesElement {σ : Type} (visitor : Visitor σ) (element : Tag) : Prop :=
  ∀ run outcome after, run.cursor.Valid → visitor element run = .ok outcome after →
    outcome = .unrecognized ∨
      outcome = .handled ∧ run.cursor.position < after.cursor.position

/-- What a decoder relies on in its visitor, as long as less than `bound` bytes are left. -/
structure Visitor.Dutiful {σ : Type} (decoder : Decoder) (bound : Nat) (visitor : Visitor σ) :
    Prop where
  keeps : ∀ tag, Keeps .advancing (visitor tag)
  locates : ∀ tag, Locates decoder 0 bound (visitor tag)
  element : ∀ tag run element after, visitor tag run = .ok (.packed element) after →
    visitor.TakesElement element

/-- A value that is skipped has a byte at least. -/
theorem Grammar.IsValue.length_pos {levels : Nat} {tag : Tag} {bytes : Bytes}
    (h : IsValue levels tag bytes) : 0 < bytes.length := by
  cases h with
  | varint _ hvarint => exact hvarint.length_pos
  | fixed32 _ hlength => omega
  | fixed64 _ hlength => omega
  | lengthDelimited _ hvarint _ =>
    have hpos := hvarint.length_pos
    rw [List.length_append]
    omega
  | group _ _ hlast _ _ =>
    have hpos := hlast.1.length_pos
    rw [List.length_append]
    omega

namespace Decoder

variable {σ : Type} {decoder : Decoder} {bound : Nat} {visitor : Visitor σ}

theorem skip_progress {tag : Tag} {run after : Run σ}
    (h : onCursor (decoder.skip tag) run = .ok () after) :
    run.cursor.position < after.cursor.position := by
  unfold onCursor skip Cursor.pass at h
  rcases hr : decoder.skipBytes tag run.cursor.window with ⟨e, n⟩ | n
  · rw [hr] at h
    cases h
  · rw [hr] at h
    cases h
    obtain ⟨-, hvalue⟩ := isValue_of_skipBytes hr
    have hpos := hvalue.length_pos
    rw [List.length_take] at hpos
    simp only [Cursor.position_advance]
    omega

theorem exhausts_fields (decoder : Decoder) (hkeeps : ∀ tag, Keeps .advancing (visitor tag)) :
    Exhausts (decoder.fields visitor) := by
  intro run after hc h
  exact (fields_landing decoder (fun tag => (hkeeps tag).narrowing) hc h).1

theorem more_iff {limit : Nat} (c : Cursor) (h : c.limit = limit) :
    (!c.isExhausted) = true ↔ c.position < limit := by
  rw [Cursor.not_isExhausted_iff, h]

theorem keeps_elements (decoder : Decoder) (hkeeps : ∀ tag, Keeps .advancing (visitor tag))
    (element : Tag) : Keeps .advancing (decoder.elements visitor element) :=
  .bind .cursor fun _ => .repeatWhile (keeps_packedElement decoder hkeeps element) _

theorem exhausts_elements (decoder : Decoder) (hkeeps : ∀ tag, Keeps .advancing (visitor tag))
    (element : Tag) : Exhausts (decoder.elements visitor element) := by
  intro run after hc h
  have hloop : repeatWhile (fun c => !c.isExhausted) (decoder.packedElement visitor element)
      run.cursor.places run = .ok () after := h
  have hmove := (keeps_elements decoder hkeeps element).advances hc h
  have hmore := more_of_repeatWhile_eq_ok hloop
  rw [← Bool.not_eq_true, more_iff after.cursor hmove.limit, Nat.not_lt] at hmore
  exact Nat.le_antisymm (hmove.limit ▸ hmove.le_limit) hmore

theorem locates_checkLength (decoder : Decoder) (lead length : Nat) :
    Locates decoder lead bound (decoder.checkLength length : Decode σ Unit) := by
  intro run e after _ _ h
  rcases decoder.admits_or_lt length with hadmits | ⟨max, hmax, hless⟩
  · rw [checkLength_of_admits hadmits] at h
    cases h
  · rw [checkLength_of_lt hmax hless] at h
    cases h
    exact .messageTooLarge hmax hless

/-- Neither of the two checks on elements fails. -/
theorem locates_packedElement (h : visitor.Dutiful decoder bound) {element : Tag}
    (helement : visitor.TakesElement element) :
    Locates decoder 0 bound (decoder.packedElement visitor element) := by
  intro run e after hc hbound he
  rw [packedElement_eq] at he
  change (visitor element >>= fun outcome =>
    decoder.settleElement element outcome >>= fun _ => requireMoved run.cursor) run = _ at he
  rw [bind_apply] at he
  cases hv : visitor element run with
  | error e' mid =>
    simp only [hv] at he
    cases he
    exact h.locates element run _ _ hc hbound hv
  | ok outcome mid =>
    simp only [hv] at he
    have hmove := (h.keeps element).advances hc hv
    rcases helement run outcome mid hc hv with rfl | ⟨rfl, hmoved⟩
    · change (onCursor (decoder.skip element) >>= fun _ => requireMoved run.cursor) mid = _ at he
      rw [bind_apply] at he
      cases hs : (onCursor (decoder.skip element) : Decode σ Unit) mid with
      | error e' last =>
        simp only [hs] at he
        cases he
        have hlocated := Locates.skip decoder element mid _ _ (Motion.advancing.valid hc hmove)
          (Nat.lt_of_le_of_lt hmove.remaining_le hbound) hs
        rw [hmove.upToLimit_eq] at hlocated
        exact hlocated.mono hmove.position_le
      | ok u last =>
        have hmoved := Nat.lt_of_le_of_lt hmove.position_le (skip_progress hs)
        simp only [hs, requireMoved_apply, if_neg (Nat.ne_of_gt hmoved)] at he
        cases he
    · change requireMoved run.cursor mid = _ at he
      rw [requireMoved_apply, if_neg (Nat.ne_of_gt hmoved)] at he
      cases he

theorem locates_elements (h : visitor.Dutiful decoder bound) {element : Tag}
    (helement : visitor.TakesElement element) :
    Locates decoder 0 bound (decoder.elements visitor element) := by
  intro run e after hc hbound he
  exact Locates.repeatWhile more_iff (locates_packedElement h helement)
    (keeps_packedElement decoder h.keeps element)
    (fun run after => packedElement_progress decoder (fun tag => (h.keeps tag).narrowing) element)
    _ run e after hc rfl hbound
    (Nat.le_of_lt hc.remaining_lt_places) he

theorem locates_packedRun (h : visitor.Dutiful decoder bound) {element : Tag}
    (helement : visitor.TakesElement element) :
    Locates decoder 0 bound (decoder.packedRun visitor element) :=
  .bind (.read Reader.locates_uint32) (.read Reader.orderly_uint32) fun length _ =>
    .inRange (Nat.le_of_lt length.toNat_lt) (locates_elements h helement)
      (exhausts_elements decoder h.keeps element)

/-- The value of a field lies behind its tag, and has fewer bytes. -/
theorem locates_field (h : visitor.Dutiful decoder bound) :
    Locates decoder 1 (bound + 1) (decoder.field visitor) := by
  rw [field_eq]
  refine .bindLess (.read Reader.locates_tag) (.read Reader.orderly_tag) ?_ fun tag _ =>
    .bind (h.locates tag) (h.keeps tag) fun outcome hvisited => ?_
  · intro run tag after hc hbound hread
    obtain ⟨hmoved, hfewer⟩ := read_tag_moves hc hread
    exact ⟨Nat.lt_of_lt_of_le hfewer (Nat.le_of_lt_succ hbound), hmoved⟩
  · cases outcome with
    | handled => exact .pure ()
    | unrecognized => exact .skip decoder tag
    | packed element =>
      obtain ⟨run, after, hr⟩ := hvisited
      exact locates_packedRun h (h.element tag run element after hr)

theorem locates_fields (h : visitor.Dutiful decoder bound) :
    Locates decoder 1 (bound + 1) (decoder.fields visitor) := by
  intro run e after hc hbound he
  exact Locates.repeatWhile (fun _ _ => decide_eq_true_iff) (locates_field h)
    (keeps_field decoder h.keeps)
    (fun run after => field_progress decoder fun tag => (h.keeps tag).narrowing) _ run e after
    hc rfl hbound (Nat.le_of_lt hc.remaining_lt_places) he

theorem locates_decode_delimited (h : visitor.Dutiful decoder bound) :
    Locates decoder 0 (bound + 1) (decoder.decode visitor true) :=
  .bind (.read Reader.locates_uint32) (.read Reader.orderly_uint32) fun length _ =>
    .bind (locates_checkLength decoder 0 _) (keeps_checkLength decoder _) fun _ _ =>
      .inRange (Nat.le_of_lt length.toNat_lt) ((locates_fields h).mono (Nat.zero_le _))
        (exhausts_fields decoder h.keeps)

theorem locates_merge (h : visitor.Dutiful decoder bound) {type : MessageType σ}
    (htype : type.visitor? = some visitor) :
    Locates decoder 0 (bound + 1) (decoder.merge type) := by
  unfold merge
  rw [htype]
  refine .bind (locates_decode_delimited h) (keeps_decode decoder h.keeps true) fun _ _ => ?_
  intro run e after _ _ he
  change (if type.isComplete run.state = true then Pure.pure () else throw .missingRequiredFields :
    Decode σ Unit) run = _ at he
  split at he
  · cases he
  · cases he
    exact .missingRequiredFields

end Decoder

end WireFormat
