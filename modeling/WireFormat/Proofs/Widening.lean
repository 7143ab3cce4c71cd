import WireFormat.Proofs.InPlace

/-!
# More bytes behind

What a decoder has read it has read, whatever bytes may follow: a read that does not fail for want
of bytes comes to the same end if the limit lies further on (`Widens`). So a field that is read in
front of some limit is read in front of any later one (`Schema.widens_field`), and a loop over
fields that went well is the beginning of a loop that goes on (`Widens.repeatWhile`).

A range says where it ends, so what goes on inside is not touched by a limit around it.
-/

namespace WireFormat

open Decode

/-! ## Readers -/

namespace Varint

/-- The bytes behind a varint are not looked at. -/
theorem extent_append (src more : Bytes) :
    extent src = .error .truncated ∨ extent (src ++ more) = extent src := by
  unfold extent
  rw [List.findIdx?_append]
  cases src.findIdx? isLast with
  | none => exact .inl rfl
  | some i => exact .inr rfl

theorem decodeAs_append {α : Type} {width : Nat} (groups : Nat) (make : BitVec width → α)
    (src more : Bytes) : decodeAs groups make src = .error .truncated ∨
      decodeAs groups make (src ++ more) = decodeAs groups make src := by
  unfold decodeAs
  rcases extent_append src more with hmissing | hsame
  · rw [hmissing]
    exact .inl rfl
  · rw [hsame]
    cases hextent : extent src with
    | error e => exact .inr rfl
    | ok n =>
      refine .inr ?_
      simp only [List.take_append_of_le_length (extent_bounds hextent).2.2]

end Varint

namespace Reader

variable {α β : Type}

/-- A reader fails on some bytes for want of more. -/
def Misses (reader : Reader α) (src : Bytes) : Prop :=
  ∃ offset needed limit, reader src = .error (.truncated offset needed limit)

/-- A reader either misses bytes, or it does the same with more of them. -/
def Stable (reader : Reader α) : Prop :=
  ∀ src more : Bytes, reader.Misses src ∨ reader (src ++ more) = reader src

theorem Stable.map {reader : Reader α} (h : reader.Stable) (f : α → β) :
    (reader.map f).Stable := by
  intro src more
  unfold Misses Reader.map
  rcases h src more with ⟨offset, needed, limit, hmissing⟩ | hsame
  · rw [hmissing]
    exact .inl ⟨_, _, _, rfl⟩
  · rw [hsame]
    exact .inr rfl

theorem stable_varint {width : Nat} (groups : Nat) (make : BitVec width → α) :
    (varint groups make).Stable := by
  intro src more
  unfold Misses varint
  rcases Varint.decodeAs_append groups make src more with hmissing | hsame
  · rw [hmissing]
    exact .inl ⟨_, _, _, rfl⟩
  · rw [hsame]
    cases Varint.decodeAs groups make src with
    | ok r => exact .inr rfl
    | error e =>
      cases e with
      | truncated => exact .inl ⟨_, _, _, rfl⟩
      | tooLong => exact .inr rfl

theorem stable_uint32 : uint32.Stable := stable_varint _ _

theorem stable_tag : tag.Stable := stable_uint32.map _

theorem stable_exactly (count : Nat) : (exactly count).Stable := by
  intro src more
  unfold Misses exactly
  by_cases hcount : count ≤ src.length
  · have hmore : count ≤ (src ++ more).length :=
      Nat.le_trans hcount (List.length_append ▸ Nat.le_add_right _ _)
    rw [if_pos hcount, if_pos hmore, List.take_append_of_le_length hcount]
    exact .inr rfl
  · rw [if_neg hcount]
    exact .inl ⟨_, _, _, rfl⟩

theorem stable_lengthDelimited : lengthDelimited.Stable := by
  intro src more
  unfold Misses lengthDelimited
  rcases stable_uint32 src more with ⟨offset, needed, limit, hmissing⟩ | hsame
  · rw [hmissing]
    exact .inl ⟨_, _, _, rfl⟩
  · rw [hsame]
    cases hlength : uint32 src with
    | error e => exact .inr rfl
    | ok r =>
      obtain ⟨length, k⟩ := r
      simp only
      rw [List.drop_append_of_le_length (varint_bounds hlength).2]
      rcases stable_exactly length.toNat (src.drop k) more with
        ⟨offset, needed, limit, hmissing⟩ | hsame
      · rw [hmissing]
        exact .inl ⟨_, _, _, rfl⟩
      · rw [hsame]
        exact .inr rfl

theorem stable_text : text.Stable := by
  intro src more
  unfold Misses text
  rcases stable_lengthDelimited src more with ⟨offset, needed, limit, hmissing⟩ | hsame
  · rw [hmissing]
    exact .inl ⟨_, _, _, rfl⟩
  · rw [hsame]
    exact .inr rfl

end Reader

theorem Kind.stable_reader (kind : Kind) : kind.reader.Stable :=
  Kind.reader_induction (P := Reader.Stable) (fun h f => h.map f)
    (fun make _ _ => Reader.stable_varint _ make) (fun count _ _ => Reader.stable_exactly count)
    Reader.stable_lengthDelimited Reader.stable_text kind

/-! ## Skipping -/

/-- A scan stopped for want of bytes. -/
def Passage.Missing (passage : Passage) : Prop :=
  ∃ offset needed limit n, passage = .error (.truncated offset needed limit, n)

theorem Passage.Missing.after {passage : Passage} (h : passage.Missing) (distance : Nat) :
    (passage.after distance).Missing := by
  obtain ⟨offset, needed, limit, n, rfl⟩ := h
  exact ⟨_, _, _, _, rfl⟩

namespace Decoder

variable {decoder : Decoder}

theorem stable_skipStep (tag : Tag) (opened : List UInt32) :
    (decoder.skipStep tag opened).Stable := by
  unfold skipStep
  cases tag.wireType with
  | varint => exact (Reader.stable_varint _ _).map _
  | fixed32 => exact ((Reader.stable_exactly 4).map _).map _
  | fixed64 => exact ((Reader.stable_exactly 8).map _).map _
  | lengthDelimited => exact Reader.stable_lengthDelimited.map _
  | groupStart => exact fun _ _ => .inr rfl
  | groupEnd => exact fun _ _ => .inr rfl
  | invalid bits => exact fun _ _ => .inr rfl

/-- A scan that goes on behind the first bytes is stable if what it goes on with is. -/
theorem skipInside_append {tag : Tag} {opened : List UInt32} {src more : Bytes}
    (hrest : ∀ opened' k, (decoder.skipOpened opened' (src.drop k)).Missing ∨
      decoder.skipOpened opened' (src.drop k ++ more) = decoder.skipOpened opened' (src.drop k)) :
    (decoder.skipInside tag opened src).Missing ∨
      decoder.skipInside tag opened (src ++ more) = decoder.skipInside tag opened src := by
  unfold skipInside
  rcases stable_skipStep tag opened src more with ⟨offset, needed, limit, hmissing⟩ | hsame
  · rw [hmissing]
    exact .inl ⟨_, _, _, _, rfl⟩
  · rw [hsame]
    cases hstep : decoder.skipStep tag opened src with
    | error e => exact .inr rfl
    | ok r =>
      obtain ⟨opened', k⟩ := r
      have hk := (orderly_skipStep tag opened).le_length hstep
      simp only
      rw [List.drop_append_of_le_length hk]
      rcases hrest opened' k with hmissing | hsame
      · exact .inl (hmissing.after k)
      · rw [hsame]
        exact .inr rfl

theorem skipOpened_append (opened : List UInt32) (src more : Bytes) :
    (decoder.skipOpened opened src).Missing ∨
      decoder.skipOpened opened (src ++ more) = decoder.skipOpened opened src := by
  -- each step goes past a tag, so the induction is on the bytes that are left
  induction hsize : src.length using Nat.strongRecOn generalizing opened src with
  | ind size ih =>
    subst hsize
    cases opened with
    | nil =>
      rw [skipOpened_nil, skipOpened_nil]
      exact .inr rfl
    | cons field outer =>
      rw [skipOpened_cons, skipOpened_cons]
      rcases Reader.stable_tag src more with ⟨offset, needed, limit, hmissing⟩ | hsame
      · rw [hmissing]
        exact .inl ⟨_, _, _, _, rfl⟩
      · rw [hsame]
        cases htag : Reader.tag src with
        | error e => exact .inr rfl
        | ok r =>
          obtain ⟨tag, k⟩ := r
          obtain ⟨hpos, hk⟩ := Reader.tag_bounds htag
          have hgoes : ∀ opened' j, (decoder.skipOpened opened' (src.drop (k + j))).Missing ∨
              decoder.skipOpened opened' (src.drop (k + j) ++ more) =
                decoder.skipOpened opened' (src.drop (k + j)) := by
            intro opened' j
            refine ih _ ?_ opened' (src.drop (k + j)) rfl
            rw [List.length_drop]
            omega
          simp only
          rw [List.drop_append_of_le_length hk]
          by_cases hend : tag.wireType = .groupEnd
          · rw [if_pos hend, if_pos hend]
            by_cases hfield : tag.field = field
            · rw [if_pos hfield, if_pos hfield]
              rcases hgoes outer 0 with hmissing | hsame
              · exact .inl (hmissing.after k)
              · rw [Nat.add_zero] at hsame
                rw [hsame]
                exact .inr rfl
            · rw [if_neg hfield, if_neg hfield]
              exact .inr rfl
          · rw [if_neg hend, if_neg hend]
            have hinside : (decoder.skipInside tag (field :: outer) (src.drop k)).Missing ∨
                decoder.skipInside tag (field :: outer) (src.drop k ++ more) =
                  decoder.skipInside tag (field :: outer) (src.drop k) :=
              skipInside_append fun opened' j => by
                rw [List.drop_drop]
                exact hgoes opened' j
            rcases hinside with hmissing | hsame
            · exact .inl (hmissing.after k)
            · rw [hsame]
              exact .inr rfl

theorem skipBytes_append (tag : Tag) (src more : Bytes) :
    (decoder.skipBytes tag src).Missing ∨
      decoder.skipBytes tag (src ++ more) = decoder.skipBytes tag src := by
  rw [skipBytes_eq_skipInside, skipBytes_eq_skipInside]
  exact skipInside_append fun opened' k => skipOpened_append opened' (src.drop k) more

end Decoder

/-! ## Computations -/

/-- With a later limit, a cursor sees more bytes behind those that it saw. -/
theorem Cursor.Valid.window_widen {c : Cursor} (hc : c.Valid) {limit : Nat} (h : c.limit ≤ limit) :
    ∃ more, (c.withLimit limit).window = c.window ++ more := by
  have hsplit : (c.withLimit limit).remaining = c.remaining + (limit - c.limit) := by
    have hp := hc.1
    simp only [remaining, withLimit]
    omega
  refine ⟨((c.region.drop c.position).drop c.remaining).take (limit - c.limit), ?_⟩
  rw [window, hsplit, List.take_add, window]
  rfl

/-- The run with another limit. -/
def Run.withLimit {σ : Type} (run : Run σ) (limit : Nat) : Run σ :=
  ⟨run.state, run.cursor.withLimit limit⟩

namespace Decode

variable {σ τ α β : Type}

/-- What the end of a computation says of its end with a later limit. -/
inductive EndsWider (limit : Nat) :
    EStateM.Result DecodeError (Run σ) α → EStateM.Result DecodeError (Run σ) α → Prop
  | ok {a : α} {run : Run σ} : EndsWider limit (.ok a run) (.ok a (run.withLimit limit))
  | error {e : DecodeError} {run : Run σ} :
      EndsWider limit (.error e run) (.error e (run.withLimit limit))
  | missing {offset needed stop : Nat} {run : Run σ}
      {wider : EStateM.Result DecodeError (Run σ) α} :
      EndsWider limit (.error (.truncated offset needed stop) run) wider

/-- A computation that does not miss bytes comes to the same end with a later limit. -/
def Widens (body : Decode σ α) : Prop :=
  ∀ (run : Run σ) (limit : Nat), run.cursor.Valid → run.cursor.limit ≤ limit →
    EndsWider limit (body run) (body (run.withLimit limit))

theorem Widens.pure (a : α) : Widens (Pure.pure a : Decode σ α) := by
  intro run limit _ _
  exact .ok

theorem Widens.throw (e : DecodeError) : Widens (throw e : Decode σ α) := by
  intro run limit _ _
  exact .error

theorem Widens.onState (change : σ → σ) : Widens (Decode.onState change) := by
  intro run limit _ _
  exact .ok

/-- What does not go by the limit does not see it. -/
theorem Widens.cursor_bind {next : Cursor → Decode σ α}
    (hblind : ∀ c limit, next (c.withLimit limit) = next c) (hnext : ∀ c, Widens (next c)) :
    Widens (cursor >>= next) := by
  intro run limit hc hlimit
  show EndsWider limit (next run.cursor run)
    (next (run.cursor.withLimit limit) (run.withLimit limit))
  rw [hblind]
  exact hnext run.cursor run limit hc hlimit

theorem Widens.get_bind {next : Run σ → Decode σ α}
    (hblind : ∀ run limit, next (run.withLimit limit) = next run)
    (hnext : ∀ run, Widens (next run)) : Widens (get >>= next) := by
  intro run limit hc hlimit
  show EndsWider limit (next run run) (next (run.withLimit limit) (run.withLimit limit))
  rw [hblind]
  exact hnext run run limit hc hlimit

theorem Widens.bind {first : Decode σ α} {next : α → Decode σ β} (hfirst : Widens first)
    (hkeeps : Keeps .advancing first) (hnext : ∀ a, Widens (next a)) :
    Widens (first >>= next) := by
  intro run limit hc hlimit
  have hend := hfirst run limit hc hlimit
  rw [bind_apply, bind_apply]
  generalize hr : first run = result at hend ⊢
  generalize first (run.withLimit limit) = result' at hend ⊢
  cases hend with
  | error => exact .error
  | missing => exact .missing
  | @ok a after =>
    have hmove := hkeeps.advances hc hr
    exact hnext a after limit (Motion.advancing.valid hc hmove) (hmove.limit ▸ hlimit)

theorem Widens.onPart {part : σ → τ} {place : τ → σ → σ} {body : Decode τ α}
    (hbody : Widens body) : Widens (Decode.onPart part place body) := by
  intro run limit hc hlimit
  have hend := hbody ⟨part run.state, run.cursor⟩ limit hc hlimit
  unfold Decode.onPart
  simp only [Run.withLimit] at hend ⊢
  generalize body ⟨part run.state, run.cursor⟩ = result at hend ⊢
  generalize body ⟨part run.state, run.cursor.withLimit limit⟩ = result' at hend ⊢
  cases hend with
  | ok => exact .ok
  | error => exact .error
  | missing => exact .missing

theorem Widens.read {reader : Reader α} (hreader : reader.Stable) :
    Widens (Decode.onCursor (Cursor.read reader) : Decode σ α) := by
  intro run limit hc hlimit
  obtain ⟨more, hmore⟩ := hc.window_widen hlimit
  unfold Decode.onCursor Cursor.read Run.withLimit
  simp only [hmore]
  rcases hreader run.cursor.window more with ⟨offset, needed, stop, hmissing⟩ | hsame
  · rw [hmissing]
    exact .missing
  · rw [hsame]
    cases reader run.cursor.window with
    | ok r => exact .ok
    | error e => exact .error

theorem Widens.skip (decoder : Decoder) (tag : Tag) :
    Widens (Decode.onCursor (decoder.skip tag) : Decode σ Unit) := by
  intro run limit hc hlimit
  obtain ⟨more, hmore⟩ := hc.window_widen hlimit
  unfold Decode.onCursor Decoder.skip Cursor.pass Run.withLimit
  simp only [hmore]
  rcases decoder.skipBytes_append tag run.cursor.window more with
    ⟨offset, needed, stop, n, hmissing⟩ | hsame
  · rw [hmissing]
    exact .missing
  · rw [hsame]
    rcases decoder.skipBytes tag run.cursor.window with ⟨e, n⟩ | n
    · exact .error
    · exact .ok

/-- Inside a range that fits, the body does not see what is around. -/
theorem Widens.inRange (declared : Nat) (body : Decode σ Unit) :
    Widens (Decode.inRange declared body) := by
  intro run limit hc hlimit
  rw [inRange_eq, inRange_eq]
  by_cases hfit : run.cursor.position + declared ≤ run.cursor.limit
  · have hfit' : (run.withLimit limit).cursor.position + declared ≤
        (run.withLimit limit).cursor.limit := Nat.le_trans hfit hlimit
    rw [if_pos hfit, if_pos hfit']
    cases hr : body ⟨run.state, run.cursor.withLimit (run.cursor.position + declared)⟩ with
    | error e after =>
      have hr' : body ⟨(run.withLimit limit).state, (run.withLimit limit).cursor.withLimit
          ((run.withLimit limit).cursor.position + declared)⟩ = .error e after := hr
      rw [hr']
      exact .error
    | ok u after =>
      have hr' : body ⟨(run.withLimit limit).state, (run.withLimit limit).cursor.withLimit
          ((run.withLimit limit).cursor.position + declared)⟩ = .ok u after := hr
      rw [hr']
      by_cases hend : after.cursor.position = run.cursor.position + declared
      · have hend' : after.cursor.position =
            (run.withLimit limit).cursor.position + declared := hend
        simp only
        rw [if_pos hend, if_pos hend']
        exact .ok
      · have hend' : after.cursor.position ≠
            (run.withLimit limit).cursor.position + declared := hend
        simp only
        rw [if_neg hend, if_neg hend']
        exact .error
  · rw [if_neg hfit]
    exact .missing

/-- A loop that went well is the beginning of the loop with a later limit. -/
theorem Widens.repeatWhile {more more' : Cursor → Bool} {round : Decode σ Unit} {limit : Nat}
    (hmore : ∀ c wider : Cursor, wider = c.withLimit limit → more c = true → more' wider = true)
    (hround : Widens round) (hkeeps : Keeps .advancing round)
    (hprogress : ∀ run after, run.cursor.Valid → round run = .ok () after →
      run.cursor.position < after.cursor.position) :
    ∀ (rounds : Nat) (run after : Run σ), run.cursor.Valid → run.cursor.limit ≤ limit →
      Decode.repeatWhile more round rounds run = .ok () after →
      ∃ taken, run.cursor.position + taken ≤ after.cursor.position ∧
        ∀ rounds', Decode.repeatWhile more' round (taken + rounds') (run.withLimit limit) =
          Decode.repeatWhile more' round rounds' (after.withLimit limit) := by
  intro rounds
  induction rounds with
  | zero =>
    intro run after _ _ h
    rw [repeatWhile_zero] at h
    split at h <;> cases h
    exact ⟨0, Nat.le_refl _, fun rounds' => by rw [Nat.zero_add]⟩
  | succ rounds ih =>
    intro run after hc hlimit h
    by_cases hgoes : more run.cursor = true
    · rw [repeatWhile_more hgoes, bind_apply] at h
      cases hr : round run with
      | error e next =>
        simp only [hr] at h
        cases h
      | ok u next =>
        simp only [hr] at h
        have hmove := hkeeps.advances hc hr
        have hend := hround run limit hc hlimit
        obtain ⟨taken, htaken, hsame⟩ := ih next after (Motion.advancing.valid hc hmove)
          (hmove.limit ▸ hlimit) h
        have hp := hprogress run next hc hr
        refine ⟨taken + 1, by omega, fun rounds' => ?_⟩
        rw [Nat.add_right_comm, repeatWhile_more (hmore run.cursor _ rfl hgoes), bind_apply]
        rw [hr] at hend
        generalize round (run.withLimit limit) = result at hend ⊢
        cases hend with
        | ok => exact hsame rounds'
    · rw [Bool.not_eq_true] at hgoes
      rw [repeatWhile_done hgoes] at h
      cases h
      exact ⟨0, Nat.le_refl _, fun rounds' => by rw [Nat.zero_add]⟩

end Decode

/-! ## Decoders -/

namespace Decoder

variable {σ : Type} {visitor : Visitor σ}

theorem widens_checkLength (decoder : Decoder) (length : Nat) :
    Widens (decoder.checkLength length : Decode σ Unit) :=
  decoder.checkLength_induction (fun body (_ : Decode σ Unit) => Widens body) length (.pure ())
    fun _ => .throw _

theorem widens_packedRun (decoder : Decoder) (visitor : Visitor σ) (element : Tag) :
    Widens (decoder.packedRun visitor element) :=
  .bind (.read Reader.stable_uint32) (.read Reader.orderly_uint32) fun _ => .inRange _ _

theorem widens_decode_delimited (decoder : Decoder) (visitor : Visitor σ) :
    Widens (decoder.decode visitor true) :=
  .bind (.read Reader.stable_uint32) (.read Reader.orderly_uint32) fun _ =>
    .bind (widens_checkLength decoder _) (keeps_checkLength decoder _) fun _ => .inRange _ _

theorem widens_merge (decoder : Decoder) {type : MessageType σ}
    (htype : type.visitor? = some visitor) (hkeeps : ∀ tag, Keeps .advancing (visitor tag)) :
    Widens (decoder.merge type) := by
  unfold merge
  rw [htype]
  refine .bind (widens_decode_delimited decoder visitor) (keeps_decode decoder hkeeps true) fun _ =>
    .get_bind (fun _ _ => rfl) fun run => ?_
  split
  · exact .pure ()
  · exact .throw _

theorem widens_field (decoder : Decoder) (hvisitor : ∀ tag, Widens (visitor tag))
    (hkeeps : ∀ tag, Keeps .advancing (visitor tag)) : Widens (decoder.field visitor) := by
  rw [field_eq]
  refine .bind (.read Reader.stable_tag) (.read Reader.orderly_tag) fun tag =>
    .bind (hvisitor tag) (hkeeps tag) fun outcome => ?_
  cases outcome with
  | handled => exact .pure ()
  | unrecognized => exact .skip decoder tag
  | packed element => exact widens_packedRun decoder visitor element

end Decoder

/-! ## Schemas -/

namespace Schema

variable {schema : Schema}

theorem widens_readSub (decoder : Decoder) {levels depth : Nat} (hs : schema.ScriptFree)
    (repeated : Bool) : Widens (readSub decoder levels depth repeated schema) := by
  cases repeated with
  | true => exact Decoder.widens_decode_delimited decoder _
  | false =>
    show Widens (decoder.merge (schema.readableType _))
    exact Decoder.widens_merge decoder rfl (keeps_visitAt decoder levels depth hs)

/-- Values, packed runs and sub-messages are reads of their own: the visit sees no more of the limit
than they do. -/
theorem widens_visitAt (decoder : Decoder) (levels depth : Nat) (hs : schema.ScriptFree)
    (tag : Tag) : Widens (schema.visitAt decoder levels depth tag) := by
  cases levels with
  | zero => exact .throw _
  | succ levels =>
    rw [visitAt_succ]
    refine .cursor_bind (fun _ _ => rfl) fun start => .bind (.onState _) (.onState _) fun _ => ?_
    cases htake : schema.take? tag with
    | none => exact .pure _
    | some taken =>
      obtain ⟨index, action⟩ := taken
      rcases hs.action_cases htake with ⟨kind, rfl⟩ | ⟨kind, rfl⟩ | ⟨repeated, sub, rfl, hsub⟩
      · exact .bind (.read kind.stable_reader) (.read kind.orderly_reader) fun _ =>
          .bind (.onState _) (.onState _) fun _ => .bind (.onState _) (.onState _) fun _ => .pure _
      · exact .pure _
      · exact .bind (.onPart (widens_readSub decoder hsub repeated))
          (.onPart (keeps_readSub decoder (keeps_visitAt decoder levels _ hsub) repeated)) fun _ =>
            .bind (.onState _) (.onState _) fun _ => .pure _

theorem widens_visitor (decoder : Decoder) (hs : schema.ScriptFree) (tag : Tag) :
    Widens (schema.visitor decoder tag) := by
  intro run limit hc hlimit
  exact widens_visitAt decoder _ 0 hs tag run limit hc hlimit

theorem widens_field (decoder : Decoder) (hs : schema.ScriptFree) :
    Widens (decoder.field (schema.visitor decoder)) :=
  Decoder.widens_field decoder (widens_visitor decoder hs) (keeps_visitor decoder hs)

end Schema

end WireFormat
