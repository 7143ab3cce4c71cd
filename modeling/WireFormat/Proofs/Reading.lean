import WireFormat.Proofs.Placement
import WireFormat.Proofs.Scalar

/-!
# Reading what was written

`Reads` says what a computation does where the bytes that it expects come next: it takes these and
no more, and the message changes as it should. Computations follow each other as their bytes do, so
a decoder is put together from its parts in the way in which the bytes were (`Decoder.reads_field`,
`Decoder.reads_packedField`, `Decoder.reads_decode`).

What is said of the message is said of a `view` of it, since not all that a decoder keeps in a
message comes back.
-/

namespace WireFormat

open Decode

namespace Decode

variable {σ τ μ ν α β : Type} {view : σ → μ} {m m' m'' : μ} {bytes rest : Bytes}

/-- Where some bytes come next, the computation takes just them and gives a value, and the view of
the message turns from `m` to `m'`. -/
def Reads (view : σ → μ) (body : Decode σ α) (bytes : Bytes) (m : μ) (a : α) (m' : μ) : Prop :=
  ∀ run : Run σ, run.cursor.Valid → bytes <+: run.cursor.window → view run.state = m →
    ∃ after, body run = .ok a after ∧ after.cursor = run.cursor.advance bytes.length ∧
      view after.state = m'

/-- The same where these bytes are all that is left. -/
def Fills (view : σ → μ) (body : Decode σ Unit) (bytes : Bytes) (m m' : μ) : Prop :=
  ∀ run : Run σ, run.cursor.Valid → run.cursor.window = bytes → view run.state = m →
    ∃ after, body run = .ok () after ∧ after.cursor = run.cursor.advance bytes.length ∧
      view after.state = m'

/-- Some bytes are read in rounds, each of which takes some of them. -/
inductive Rounds (view : σ → μ) (round : Decode σ Unit) : Bytes → μ → μ → Prop
  | nil {m : μ} : Rounds view round [] m m
  | cons {bytes rest : Bytes} {m m' m'' : μ} :
      0 < bytes.length → Reads view round bytes m () m' → Rounds view round rest m' m'' →
      Rounds view round (bytes ++ rest) m m''

/-! ## Putting computations together -/

theorem length_le_remaining {run : Run σ} (hc : run.cursor.Valid)
    (h : bytes <+: run.cursor.window) : bytes.length ≤ run.cursor.remaining := by
  rw [← Cursor.length_window hc]
  exact h.length_le

theorem Reads.pure (a : α) : Reads view (Pure.pure a) [] m a m := by
  intro run _ _ hm
  exact ⟨run, rfl, rfl, hm⟩

theorem Reads.bind {first : Decode σ α} {next : α → Decode σ β} {a : α} {b : β}
    (hfirst : Reads view first bytes m a m') (hnext : Reads view (next a) rest m' b m'') :
    Reads view (first >>= next) (bytes ++ rest) m b m'' := by
  intro run hc hbytes hm
  have hprefix : bytes <+: run.cursor.window := (List.prefix_append _ _).trans hbytes
  have hlength := length_le_remaining hc hprefix
  obtain ⟨mid, hok, hcursor, hmid⟩ := hfirst run hc hprefix hm
  have hvalid : mid.cursor.Valid := by
    rw [hcursor]
    exact hc.advance hlength
  have hrest : rest <+: mid.cursor.window := by
    rw [hcursor, Cursor.window_advance]
    obtain ⟨more, hmore⟩ := hbytes
    exact ⟨more, by rw [← hmore, List.append_assoc, List.drop_left]⟩
  obtain ⟨after, hok', hcursor', hafter⟩ := hnext mid hvalid hrest hmid
  refine ⟨after, ?_, ?_, hafter⟩
  · rw [bind_apply, hok]
    exact hok'
  · rw [hcursor', hcursor, List.length_append]
    simp only [Cursor.advance, Nat.add_assoc]

/-- A computation in front that takes no bytes. -/
theorem Reads.bind_nil {first : Decode σ α} {next : α → Decode σ β} {a : α} {b : β}
    (hfirst : Reads view first [] m a m') (hnext : Reads view (next a) bytes m' b m'') :
    Reads view (first >>= next) bytes m b m'' := by
  exact hfirst.bind hnext

/-- A computation behind that takes no bytes. -/
theorem Reads.bind_pure {first : Decode σ α} {next : α → Decode σ β} {a : α} {b : β}
    (hfirst : Reads view first bytes m a m') (hnext : Reads view (next a) [] m' b m'') :
    Reads view (first >>= next) bytes m b m'' := by
  have h := hfirst.bind hnext
  rwa [List.append_nil] at h

theorem Reads.cursor_bind {next : Cursor → Decode σ α} {a : α}
    (hnext : ∀ c, Reads view (next c) bytes m a m') :
    Reads view (cursor >>= next) bytes m a m' := by
  intro run hc hbytes hm
  exact hnext run.cursor run hc hbytes hm

theorem Reads.read {reader : Reader α} {a : α}
    (h : ∀ rest, reader (bytes ++ rest) = .ok (a, bytes.length)) :
    Reads view (onCursor (Cursor.read reader)) bytes m a m := by
  intro run _ hbytes hm
  obtain ⟨rest, hrest⟩ := hbytes
  have hread := h rest
  rw [hrest] at hread
  exact ⟨_, read_apply hread, rfl, hm⟩

theorem Reads.onState {change : σ → σ} (h : ∀ s, view s = m → view (change s) = m') :
    Reads view (Decode.onState change) [] m () m' := by
  intro run _ _ hm
  exact ⟨_, rfl, rfl, h _ hm⟩

theorem Reads.onPart {part : σ → τ} {place : τ → σ → σ} {body : Decode τ α} {viewPart : τ → ν}
    {p p' : ν} {a : α} (hpart : ∀ s, view s = m → viewPart (part s) = p)
    (hplace : ∀ t s, viewPart t = p' → view s = m → view (place t s) = m')
    (hbody : Reads viewPart body bytes p a p') :
    Reads view (Decode.onPart part place body) bytes m a m' := by
  intro run hc hbytes hm
  obtain ⟨after, hok, hcursor, hafter⟩ :=
    hbody ⟨part run.state, run.cursor⟩ hc hbytes (hpart _ hm)
  refine ⟨⟨place after.state run.state, after.cursor⟩, ?_, hcursor, hplace _ _ hafter hm⟩
  unfold Decode.onPart
  rw [hok]

theorem Reads.inRange {body : Decode σ Unit} (hbody : Fills view body bytes m m') :
    Reads view (Decode.inRange bytes.length body) bytes m () m' := by
  intro run hc hbytes hm
  obtain ⟨s, c⟩ := run
  have hlength := length_le_remaining hc hbytes
  have hfit : c.position + bytes.length ≤ c.limit := Cursor.position_add_le hc hlength
  have hvalid := hc.narrowed hfit
  have hwindow : (c.withLimit (c.position + bytes.length)).window = bytes := by
    rw [Cursor.window_withLimit hlength]
    exact (List.prefix_iff_eq_take.1 hbytes).symm
  obtain ⟨after, hok, hcursor, hafter⟩ :=
    hbody ⟨s, c.withLimit (c.position + bytes.length)⟩ hvalid hwindow hm
  have hlands : after.cursor.position = c.position + bytes.length := by
    rw [hcursor]
    rfl
  rw [inRange_eq, if_pos hfit, hok]
  simp only [if_pos hlands]
  refine ⟨_, rfl, ?_, hafter⟩
  rw [hcursor]
  rfl

/-! ## Loops -/

theorem Rounds.append {round : Decode σ Unit} (h : Rounds view round bytes m m')
    (h' : Rounds view round rest m' m'') : Rounds view round (bytes ++ rest) m m'' := by
  induction h with
  | nil => exact h'
  | cons hpos hround _ ih =>
    rw [List.append_assoc]
    exact .cons hpos hround (ih h')

theorem Rounds.single {round : Decode σ Unit} (hpos : 0 < bytes.length)
    (h : Reads view round bytes m () m') : Rounds view round bytes m m' := by
  have hcons := Rounds.cons hpos h .nil
  rwa [List.append_nil] at hcons

/-- A loop that goes on as long as bytes are left, with enough rounds for each of them, goes through
what can be read in rounds and comes to what is behind it, with enough rounds left. -/
theorem Rounds.repeatWhile_front {round : Decode σ Unit} {more : Cursor → Bool} {limit : Nat}
    (hmore : ∀ c : Cursor, c.limit = limit → (more c = true ↔ c.position < limit))
    (h : Rounds view round bytes m m') :
    ∀ (bound : Nat) (run : Run σ), run.cursor.Valid → run.cursor.limit = limit →
      run.cursor.window = bytes ++ rest → view run.state = m → run.cursor.remaining ≤ bound →
      ∃ bound' mid, Decode.repeatWhile more round bound run =
          Decode.repeatWhile more round bound' mid ∧
        mid.cursor = run.cursor.advance bytes.length ∧ mid.cursor.Valid ∧
        mid.cursor.window = rest ∧ view mid.state = m' ∧ mid.cursor.remaining ≤ bound' := by
  induction h with
  | nil =>
    intro bound run hc _ hwindow hm hbound
    exact ⟨bound, run, rfl, rfl, hc, hwindow, hm, hbound⟩
  | @cons bytes behind m m' m'' hpos hround _ ih =>
    intro bound run hc hlimit hwindow hm hbound
    have hleft := Cursor.length_window hc
    rw [hwindow, List.append_assoc, List.length_append] at hleft
    have hprefix : bytes <+: run.cursor.window := by
      rw [hwindow, List.append_assoc]
      exact List.prefix_append _ _
    have hlength := length_le_remaining hc hprefix
    obtain ⟨next, hok, hcursor, hnext⟩ := hround run hc hprefix hm
    -- the round took a byte at least, so a round fewer is enough for the rest
    have hless : run.cursor.position < limit := by
      simp only [Cursor.remaining] at hleft
      omega
    obtain ⟨bound, rfl⟩ := Nat.exists_eq_add_of_le' (show 1 ≤ bound by omega)
    have hvalid : next.cursor.Valid := by
      rw [hcursor]
      exact hc.advance hlength
    have hlimit' : next.cursor.limit = limit := by
      rw [hcursor]
      exact hlimit
    have hbehind : next.cursor.window = behind ++ rest := by
      rw [hcursor, Cursor.window_advance, hwindow, List.append_assoc, List.drop_left]
    have hbound' : next.cursor.remaining ≤ bound := by
      have hnextLeft := Cursor.length_window hvalid
      rw [hbehind] at hnextLeft
      omega
    obtain ⟨bound', mid, heq, hmid⟩ := ih bound next hvalid hlimit' hbehind hnext hbound'
    refine ⟨bound', mid, ?_, ?_, hmid.2⟩
    · rw [repeatWhile_succ, if_pos ((hmore _ hlimit).2 hless), hok]
      exact heq
    · rw [hmid.1, hcursor, List.length_append]
      simp only [Cursor.advance, Nat.add_assoc]

/-- It ends there if nothing is behind. -/
theorem Rounds.repeatWhile {round : Decode σ Unit} {more : Cursor → Bool} {limit : Nat}
    (hmore : ∀ c : Cursor, c.limit = limit → (more c = true ↔ c.position < limit))
    (h : Rounds view round bytes m m') (bound : Nat) (run : Run σ) (hc : run.cursor.Valid)
    (hlimit : run.cursor.limit = limit) (hwindow : run.cursor.window = bytes)
    (hm : view run.state = m) (hbound : run.cursor.remaining ≤ bound) :
    ∃ after, Decode.repeatWhile more round bound run = .ok () after ∧
      after.cursor = run.cursor.advance bytes.length ∧ view after.state = m' := by
  rw [← List.append_nil bytes] at hwindow
  obtain ⟨bound', mid, heq, hcursor, hvalid, hnone, hmid, -⟩ :=
    h.repeatWhile_front hmore bound run hc hlimit hwindow hm hbound
  have hlimit' : mid.cursor.limit = limit := by
    rw [hcursor]
    exact hlimit
  have hdone : more mid.cursor = false := by
    have hleft := Cursor.length_window hvalid
    rw [hnone] at hleft
    rw [← Bool.not_eq_true, hmore _ hlimit']
    simp only [List.length_nil, Cursor.remaining] at hleft
    omega
  refine ⟨mid, ?_, hcursor, hmid⟩
  rw [heq, repeatWhile_done hdone]

end Decode

/-! ## Decoders -/

namespace Decoder

variable {σ μ : Type} {view : σ → μ} {m m' m'' : μ} {bytes : Bytes} {visitor : Visitor σ}
variable {decoder : Decoder}

theorem reads_checkLength (h : decoder.maxMessageLength = none) (length : Nat) :
    Reads view (decoder.checkLength length) [] m () m := by
  unfold checkLength
  rw [h]
  exact .pure ()

/-- A length is read back, and what comes next is for the bytes behind it. -/
theorem reads_lengthPrefixed (next : Nat → Decode σ Unit) (hlength : bytes.length < 2 ^ 32)
    (hnext : Reads view (next bytes.length) bytes m () m') :
    Reads view (onCursor (Cursor.read Reader.uint32) >>= fun length => next length.toNat)
      (lengthPrefixed bytes) m () m' := by
  have hdeclared : (UInt32.ofNat bytes.length).toNat = bytes.length :=
    UInt32.toNat_ofNat_of_lt' hlength
  have hread : Reads view (onCursor (Cursor.read Reader.uint32))
      (Varint.encode (UInt64.ofNat bytes.length)) m (UInt32.ofNat bytes.length) m :=
    .read fun rest => Reader.uint32_encode_append hlength rest
  refine hread.bind ?_
  rw [hdeclared]
  exact hnext

/-- An element that the visitor reads. -/
theorem reads_packedElement {element : Tag} (hpos : 0 < bytes.length)
    (hvisitor : Reads view (visitor element) bytes m .handled m') :
    Reads view (decoder.packedElement visitor element) bytes m () m' := by
  intro run hc hbytes hm
  obtain ⟨after, hok, hcursor, hafter⟩ := hvisitor run hc hbytes hm
  have hmoved : after.cursor.position ≠ run.cursor.position := by
    rw [hcursor, Cursor.position_advance]
    omega
  refine ⟨after, ?_, hcursor, hafter⟩
  rw [packedElement_eq]
  show (visitor element >>= fun outcome =>
    decoder.settleElement element outcome >>= fun _ => requireMoved run.cursor) run = _
  rw [bind_apply, hok]
  show requireMoved run.cursor after = _
  rw [requireMoved_apply, if_neg hmoved]

/-- A packed run of elements. -/
theorem reads_packedRun {element : Tag} (hlength : bytes.length < 2 ^ 32)
    (h : Rounds view (decoder.packedElement visitor element) bytes m m') :
    Reads view (decoder.packedRun visitor element) (lengthPrefixed bytes) m () m' := by
  refine reads_lengthPrefixed (fun length => inRange length (cursor >>= fun start =>
    repeatWhile (fun c => !c.isExhausted) (decoder.packedElement visitor element) start.places))
    hlength (.inRange fun run hc hwindow hm => ?_)
  have hmore : ∀ c : Cursor, c.limit = run.cursor.limit →
      ((!c.isExhausted) = true ↔ c.position < run.cursor.limit) := by
    intro c hlimit
    rw [Cursor.not_isExhausted_iff, hlimit]
  exact h.repeatWhile hmore run.cursor.places run hc rfl hwindow hm
    (Nat.le_of_lt hc.remaining_lt_places)

/-- A field that the visitor reads. -/
theorem reads_field {tag : Tag} (hvisitor : Reads view (visitor tag) bytes m .handled m') :
    Reads view (decoder.field visitor) (tag.write ++ bytes) m () m' := by
  rw [field_eq]
  exact .bind (.read fun rest => tag.tag_write_append rest) (hvisitor.bind_pure (.pure ()))

/-- A field that the visitor leaves as a packed run. -/
theorem reads_packedField {tag element : Tag} (hlength : bytes.length < 2 ^ 32)
    (hvisitor : Reads view (visitor tag) [] m (.packed element) m')
    (h : Rounds view (decoder.packedElement visitor element) bytes m' m'') :
    Reads view (decoder.field visitor) (tag.write ++ lengthPrefixed bytes) m () m'' := by
  rw [field_eq]
  exact .bind (.read fun rest => tag.tag_write_append rest)
    (hvisitor.bind_nil (reads_packedRun hlength h))

theorem fills_fields (h : Rounds view (decoder.field visitor) bytes m m') :
    Fills view (decoder.fields visitor) bytes m m' := by
  intro run hc hwindow hm
  show ∃ after, repeatWhile (fun c => c.position < run.cursor.limit) (decoder.field visitor)
    run.cursor.places run = .ok () after ∧ _
  exact h.repeatWhile (fun _ _ => decide_eq_true_iff) run.cursor.places run hc rfl hwindow hm
    (Nat.le_of_lt hc.remaining_lt_places)

/-- Fields behind their length. -/
theorem reads_decode (hmax : decoder.maxMessageLength = none) (hlength : bytes.length < 2 ^ 32)
    (h : Rounds view (decoder.field visitor) bytes m m') :
    Reads view (decoder.decode visitor true) (lengthPrefixed bytes) m () m' :=
  reads_lengthPrefixed
    (fun length => decoder.checkLength length >>= fun _ => inRange length (decoder.fields visitor))
    hlength ((reads_checkLength hmax _).bind_nil (.inRange (fills_fields h)))

/-- Fields that are all there is, and no more than are begun. -/
theorem decodeBytes_of_rounds (hadmits : decoder.Admits bytes.length)
    (h : Rounds view (decoder.field visitor) bytes m m') {state : σ} (hm : view state = m) :
    ∃ after, decoder.decodeBytes visitor bytes state = .ok () after ∧ view after = m' := by
  obtain ⟨after, hok, -, hafter⟩ := fills_fields h ⟨state, .ofBytes bytes⟩
    (Cursor.ofBytes_valid bytes) (Cursor.window_ofBytes bytes) hm
  refine ⟨after.state, ?_, hafter⟩
  rw [decodeBytes_of_admits hadmits, hok]

/-- Fields that are all there is, without a bound. -/
theorem decodeBytes_eq_ok (hmax : decoder.maxMessageLength = none)
    (h : Rounds view (decoder.field visitor) bytes m m') {state : σ} (hm : view state = m) :
    ∃ after, decoder.decodeBytes visitor bytes state = .ok () after ∧ view after = m' :=
  decodeBytes_of_rounds (.of_none hmax _) h hm

theorem reads_merge {type : MessageType σ} (htype : type.visitor? = some visitor)
    (hcomplete : ∀ s, type.isComplete s = true) (hmax : decoder.maxMessageLength = none)
    (hlength : bytes.length < 2 ^ 32) (h : Rounds view (decoder.field visitor) bytes m m') :
    Reads view (decoder.merge type) (lengthPrefixed bytes) m () m' := by
  unfold merge
  rw [htype]
  refine (reads_decode hmax hlength h).bind_pure fun run _ _ hm => ⟨run, ?_, rfl, hm⟩
  show (if type.isComplete run.state = true then Pure.pure () else throw _ : Decode σ Unit) run = _
  rw [if_pos (hcomplete run.state)]
  rfl

end Decoder

end WireFormat
