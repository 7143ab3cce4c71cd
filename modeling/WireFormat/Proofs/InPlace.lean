import WireFormat.Proofs.Placement
import WireFormat.Proofs.SchemaVisitor

/-!
# Fields read in place

Fields that lie inside a region are read as if their bytes were all there is: the same fields come
out, and the same errors further on (`fields_in_place`).

Decoders go through `Alike` as through `Keeps`: what is alike of the visitor is alike of what a
decoder does with it. The sub-messages of a schema bound the induction, since each lies behind a tag
and so has fewer bytes than the message around it.
-/

namespace WireFormat

open Decode

namespace Decoder

variable {σ : Type} {distance bound : Nat} {same : σ → σ → Prop} {visitor visitor' : Visitor σ}

/-! ## Rounds take bytes -/

/-- A tag has a byte at least. -/
theorem read_tag_moves {run after : Run σ} {tag : Tag} (hc : run.cursor.Valid)
    (h : onCursor (Cursor.read Reader.tag) run = .ok tag after) :
    run.cursor.position < after.cursor.position ∧
      after.cursor.remaining < run.cursor.remaining := by
  obtain ⟨n, hn, rfl⟩ := read_eq_ok h
  obtain ⟨hpos, hle⟩ := Reader.tag_bounds hn
  rw [Cursor.length_window hc] at hle
  rw [Cursor.remaining_advance, Cursor.position_advance]
  omega

/-- Nothing behind the tag goes back. -/
theorem field_progress (decoder : Decoder) (hkeeps : ∀ tag, Keeps .narrowing (visitor tag))
    {run after : Run σ} (hc : run.cursor.Valid) (h : decoder.field visitor run = .ok () after) :
    run.cursor.position < after.cursor.position := by
  rw [field_eq] at h
  obtain ⟨tag, mid, hread, hrest⟩ := bind_eq_ok h
  have hvalid := Motion.narrowing.valid hc ((Keeps.read Reader.orderly_tag).narrows hc hread)
  have hkeepsRest : Keeps .narrowing (visitor tag >>= decoder.settle visitor tag) :=
    .bind (hkeeps tag) fun outcome => keeps_settle decoder hkeeps tag outcome
  exact Nat.lt_of_lt_of_le (read_tag_moves hc hread).1 (hkeepsRest.narrows hvalid hrest).position_le

/-- The check at the end of an element leaves only elements that moved. -/
theorem packedElement_progress (decoder : Decoder)
    (hkeeps : ∀ tag, Keeps .narrowing (visitor tag)) (element : Tag) {run after : Run σ}
    (hc : run.cursor.Valid) (h : decoder.packedElement visitor element run = .ok () after) :
    run.cursor.position < after.cursor.position := by
  have hp := ((keeps_packedElement decoder hkeeps element).narrows hc h).position_le
  have hne : after.cursor.position ≠ run.cursor.position := by
    rw [packedElement_eq] at h
    obtain ⟨before, start, hstart, hrest⟩ := bind_eq_ok h
    obtain ⟨outcome, visited, -, hsettle⟩ := bind_eq_ok hrest
    obtain ⟨-, mid, -, hmoved⟩ := bind_eq_ok hsettle
    cases hstart
    by_cases hsame : mid.cursor.position = run.cursor.position
    · rw [requireMoved_apply, if_pos hsame] at hmoved
      cases hmoved
    · rw [requireMoved_apply, if_neg hsame] at hmoved
      cases hmoved
      exact hsame
  omega

/-! ## What is alike of the visitor is alike of the decoder -/

theorem alike_checkLength (decoder : Decoder) (length : Nat) :
    Alike distance same bound (decoder.checkLength length) (decoder.checkLength length) :=
  -- a bound that is exceeded is told without a place, so it is the same at any distance
  decoder.checkLength_induction (Alike distance same bound) length (.pure ()) fun max =>
    .throw rfl (by intro _ _ _ h; cases h)

theorem alike_packedElement (decoder : Decoder)
    (hvisitor : ∀ tag, Alike distance same bound (visitor tag) (visitor' tag))
    (hkeeps : ∀ tag, Keeps .advancing (visitor tag)) (element : Tag) :
    Alike distance same bound (decoder.packedElement visitor element)
      (decoder.packedElement visitor' element) := by
  rw [packedElement_eq, packedElement_eq]
  refine .cursor_bind fun before before' hbefore => .bind (hvisitor element) (hkeeps element)
    fun outcome => .bind ?_ (keeps_settleElement decoder element outcome)
    fun _ => .cursor_bind fun now now' hnow => ?_
  · cases outcome with
    | handled => exact .pure ()
    | unrecognized => exact .skip decoder element
    | packed inner => exact .throw rfl (by intro _ _ _ h; cases h)
  · have hmoved : now'.position = before'.position ↔ now.position = before.position := by
      rw [hnow.position, hbefore.position, Nat.add_right_cancel_iff]
    simp only [hmoved]
    split
    · exact .throw rfl (by intro _ _ _ h; cases h)
    · exact .pure ()

theorem alike_packedRun (decoder : Decoder)
    (hvisitor : ∀ tag, Alike distance same bound (visitor tag) (visitor' tag))
    (hkeeps : ∀ tag, Keeps .advancing (visitor tag)) (element : Tag) :
    Alike distance same bound (decoder.packedRun visitor element)
      (decoder.packedRun visitor' element) := by
  have hmore : ∀ limit (c : Cursor), c.limit = limit →
      ((!c.isExhausted) = true ↔ c.position < limit) := by
    intro limit c hlimit
    rw [Cursor.not_isExhausted_iff, hlimit]
  refine .bind (.read Reader.orderly_uint32) (.read Reader.orderly_uint32) fun length =>
    .inRange (fun run run' h hbound => ?_) ?_ length.toNat
  · exact EndsAlike.repeatWhile (hmore _) (hmore _)
      (alike_packedElement decoder hvisitor hkeeps element)
      (keeps_packedElement decoder hkeeps element)
      (fun run after => packedElement_progress decoder (fun tag => (hkeeps tag).narrowing) element)
      _ _ run run' h rfl hbound
      (Nat.le_of_lt h.cursor.valid.remaining_lt_places)
      (Nat.le_of_lt h.cursor.remaining_lt_places)
  · exact .bind .cursor fun _ => .repeatWhile (keeps_packedElement decoder hkeeps element) _

/-- The value of a field has at least a byte less than the field. -/
theorem alike_field (decoder : Decoder)
    (hvisitor : ∀ tag, Alike distance same bound (visitor tag) (visitor' tag))
    (hkeeps : ∀ tag, Keeps .advancing (visitor tag)) :
    Alike distance same (bound + 1) (decoder.field visitor) (decoder.field visitor') := by
  rw [field_eq, field_eq]
  refine .bindLess (.read Reader.orderly_tag) (.read Reader.orderly_tag) ?_ fun tag =>
    .bind (hvisitor tag) (hkeeps tag) fun outcome => ?_
  · intro run tag after hc hbound hread
    exact Nat.lt_of_lt_of_le (read_tag_moves hc hread).2 (Nat.le_of_lt_succ hbound)
  · cases outcome with
    | handled => exact .pure ()
    | unrecognized => exact .skip decoder tag
    | packed element => exact alike_packedRun decoder hvisitor hkeeps element

theorem alike_fields (decoder : Decoder)
    (hvisitor : ∀ tag, Alike distance same bound (visitor tag) (visitor' tag))
    (hkeeps : ∀ tag, Keeps .advancing (visitor tag)) :
    Alike distance same (bound + 1) (decoder.fields visitor) (decoder.fields visitor') := by
  intro run run' h hbound
  have hlimit := h.cursor.limit
  show EndsAlike distance same run.cursor.limit
    (repeatWhile (fun c => c.position < run.cursor.limit) (decoder.field visitor) _ run)
    (repeatWhile (fun c => c.position < run'.cursor.limit) (decoder.field visitor') _ run')
  refine EndsAlike.repeatWhile ?_ ?_ (alike_field decoder hvisitor hkeeps)
    (keeps_field decoder hkeeps)
    (fun run after => field_progress decoder fun tag => (hkeeps tag).narrowing) _ _ run run' h
    rfl hbound (Nat.le_of_lt h.cursor.valid.remaining_lt_places)
    (Nat.le_of_lt h.cursor.remaining_lt_places)
  · intro c _
    exact decide_eq_true_iff
  · intro c _
    rw [decide_eq_true_iff, hlimit]

theorem alike_decode_delimited (decoder : Decoder)
    (hvisitor : ∀ tag, Alike distance same bound (visitor tag) (visitor' tag))
    (hkeeps : ∀ tag, Keeps .advancing (visitor tag)) :
    Alike distance same (bound + 1) (decoder.decode visitor true)
      (decoder.decode visitor' true) := by
  exact .bind (.read Reader.orderly_uint32) (.read Reader.orderly_uint32) fun length =>
    .bind (alike_checkLength decoder _) (keeps_checkLength decoder _) fun _ =>
      .inRange (alike_fields decoder hvisitor hkeeps) (keeps_fields decoder hkeeps) length.toNat

theorem alike_merge (decoder : Decoder) {type type' : MessageType σ}
    (htype : type.visitor? = some visitor) (htype' : type'.visitor? = some visitor')
    (hcomplete : ∀ s s', same s s' → type.isComplete s = type'.isComplete s')
    (hvisitor : ∀ tag, Alike distance same bound (visitor tag) (visitor' tag))
    (hkeeps : ∀ tag, Keeps .advancing (visitor tag)) :
    Alike distance same (bound + 1) (decoder.merge type) (decoder.merge type') := by
  unfold merge
  rw [htype, htype']
  refine .bind (alike_decode_delimited decoder hvisitor hkeeps)
    (keeps_decode decoder hkeeps true) fun _ => .get_bind fun run run' h => ?_
  rw [hcomplete _ _ h.state]
  split
  · exact .pure ()
  · exact .throw rfl (by intro _ _ _ h; cases h)

end Decoder

/-! ## Schemas -/

/-- The same message, whatever the visits. -/
def Target.SameMessage (t t' : Target) : Prop := t.message = t'.message

theorem Target.SameMessage.refl (t : Target) : t.SameMessage t := rfl

theorem Target.SameMessage.symm {t t' : Target} (h : t.SameMessage t') : t'.SameMessage t :=
  Eq.symm h

theorem Target.SameMessage.trans {t t' t'' : Target} (h : t.SameMessage t')
    (h' : t'.SameMessage t'') : t.SameMessage t'' :=
  Eq.trans h h'

/-- Targets that count as the same, one of them `distance` bytes further on: their messages agree,
and they go on to be the same if both messages are changed in one way and if both record a visit to
the same bytes. -/
structure Target.Likeness (distance : Nat) (same : Target → Target → Prop) : Prop where
  message : ∀ {t t'}, same t t' → t.message = t'.message
  modifyMessage : ∀ {t t'} (change : Message → Message), same t t' →
    same (t.modifyMessage change) (t'.modifyMessage change)
  record : ∀ {t t'} (depth : Nat) (tag : Tag) (position : Nat), same t t' →
    same (t.record ⟨depth, tag, position⟩) (t'.record ⟨depth, tag, position + distance⟩)

theorem Target.SameMessage.likeness (distance : Nat) :
    Target.Likeness distance Target.SameMessage where
  message h := h
  modifyMessage change h := congrArg change h
  record _ _ _ h := h

namespace Schema

variable {distance bound : Nat} {same : Target → Target → Prop}

theorem alike_modifyMessage (hsame : Target.Likeness distance same)
    (change : Message → Message) :
    Alike distance same bound (onState (.modifyMessage change))
      (onState (.modifyMessage change)) :=
  .onState fun _ _ h => hsame.modifyMessage change h

theorem alike_readSub (hsame : Target.Likeness distance same) (decoder : Decoder)
    {levels levels' depth : Nat} {sub : Schema}
    (hvisitor : ∀ tag, Alike distance same bound
      (sub.visitAt decoder levels depth tag) (sub.visitAt decoder levels' depth tag))
    (hkeeps : ∀ tag, Keeps .advancing (sub.visitAt decoder levels depth tag)) (repeated : Bool) :
    Alike distance same (bound + 1) (readSub decoder levels depth repeated sub)
      (readSub decoder levels' depth repeated sub) := by
  cases repeated with
  | true => exact Decoder.alike_decode_delimited decoder hvisitor hkeeps
  | false =>
    show Alike distance same (bound + 1) (decoder.merge (sub.readableType _))
      (decoder.merge (sub.readableType _))
    refine Decoder.alike_merge decoder rfl rfl (fun s s' h => ?_) hvisitor hkeeps
    exact congrArg sub.isComplete (hsame.message h)

/-- The visitor of a schema without scripts does the same at the same bytes, with any number of
levels that is enough for them. -/
theorem alike_visitAt (hsame : Target.Likeness distance same) (decoder : Decoder) :
    ∀ (bound levels levels' depth : Nat) {schema : Schema},
    schema.ScriptFree → bound ≤ levels → bound ≤ levels' → ∀ tag,
    Alike distance same bound (schema.visitAt decoder levels depth tag)
      (schema.visitAt decoder levels' depth tag) := by
  -- a sub-message uses up a level, and a byte
  intro bound
  induction bound with
  | zero =>
    intro _ _ _ _ _ _ _ _ run _ _ hbound
    exact absurd hbound (Nat.not_lt_zero _)
  | succ bound ih =>
    intro levels levels' depth schema hs hlevels hlevels' tag
    obtain ⟨levels, rfl⟩ := Nat.exists_eq_add_of_le' (Nat.le_trans (Nat.succ_pos bound) hlevels)
    obtain ⟨levels', rfl⟩ := Nat.exists_eq_add_of_le' (Nat.le_trans (Nat.succ_pos bound) hlevels')
    rw [visitAt_succ, visitAt_succ]
    refine .cursor_bind fun start start' hstart => .bind (.onState fun s s' h => ?_) (.onState _)
      fun _ => ?_
    · rw [hstart.position]
      exact hsame.record depth tag start.position h
    cases htake : schema.take? tag with
    | none => exact .pure _
    | some taken =>
      obtain ⟨index, action⟩ := taken
      rcases hs.action_cases htake with ⟨kind, rfl⟩ | ⟨kind, rfl⟩ | ⟨repeated, sub, rfl, hsub⟩
      · exact .bind (.read kind.orderly_reader) (.read kind.orderly_reader) fun value =>
          .bind (alike_modifyMessage hsame _) (.onState _) fun _ =>
            .bind (alike_modifyMessage hsame _) (.onState _) fun _ => .pure _
      · exact .pure _
      · have hvisitor := ih levels levels' (depth + 1) hsub (Nat.le_of_succ_le_succ hlevels)
          (Nat.le_of_succ_le_succ hlevels')
        have hkeeps : ∀ tag, Keeps .advancing (sub.visitAt decoder levels (depth + 1) tag) :=
          keeps_visitAt decoder levels (depth + 1) hsub
        have hread : Alike distance same (bound + 1)
            (onPart (.subTarget index repeated sub.blank) (.storeSub index repeated)
              (readSub decoder levels (depth + 1) repeated sub))
            (onPart (.subTarget index repeated sub.blank) (.storeSub index repeated)
              (readSub decoder levels' (depth + 1) repeated sub)) := by
          -- to take a sub-message out and to put it back changes the messages, not the visits
          refine .onPart (fun s s' h => ?_) (fun t t' s s' ht h => ?_)
            (alike_readSub hsame decoder hvisitor hkeeps repeated)
          · exact hsame.modifyMessage (fun message =>
              (message.slot index).current repeated sub.blank) h
          · have hstored := hsame.modifyMessage (fun message =>
              s.message.modifySlot index (Slot.store repeated message)) ht
            simp only [Target.storeSub, ← hsame.message h]
            exact hstored
        exact .bind hread (.onPart (keeps_readSub decoder hkeeps repeated)) fun _ =>
          .bind (alike_modifyMessage hsame _) (.onState _) fun _ => .pure _

theorem alike_visitor_of (hsame : Target.Likeness distance same) (decoder : Decoder)
    {schema : Schema} (hs : schema.ScriptFree) (tag : Tag) :
    Alike distance same bound (schema.visitor decoder tag) (schema.visitor decoder tag) := by
  intro run run' h _
  -- the two regions differ in size, and so do the numbers of levels; both are enough
  have hlevels := schema.remaining_lt_levels h.cursor.valid
  have hlevels' := schema.remaining_lt_levels h.cursor.outer_valid
  rw [h.cursor.remaining_eq] at hlevels'
  exact alike_visitAt hsame decoder (run.cursor.remaining + 1) _ _ 0 hs hlevels hlevels' tag run
    run' h (Nat.lt_succ_self _)

theorem alike_visitor (decoder : Decoder) {schema : Schema} (hs : schema.ScriptFree) (tag : Tag) :
    Alike distance Target.SameMessage bound (schema.visitor decoder tag)
      (schema.visitor decoder tag) :=
  alike_visitor_of (Target.SameMessage.likeness distance) decoder hs tag

end Schema

/-! ## A message in place -/

namespace Decoder

variable {σ : Type} {visitor : Visitor σ}

theorem decode_delimited_apply (decoder : Decoder) {run : Run σ} {length : UInt32} {n : Nat}
    (h : Reader.uint32 run.cursor.window = .ok (length, n)) :
    decoder.decode visitor true run =
      (decoder.checkLength length.toNat >>= fun _ =>
        inRange length.toNat (decoder.fields visitor)) ⟨run.state, run.cursor.advance n⟩ := by
  show (onCursor (Cursor.read Reader.uint32) >>= fun length : UInt32 =>
    decoder.checkLength length.toNat >>= fun _ =>
      inRange length.toNat (decoder.fields visitor)) run = _
  rw [bind_apply, read_apply h]

end Decoder

/-- A run of a payload alone, and a run of the same payload as a range of a larger region. -/
theorem Run.mirrors_in_place {σ : Type} {same : σ → σ → Prop} {s s' : σ} (hsame : same s s')
    (payload before after : Bytes) :
    Run.Mirrors before.length same ⟨s, .ofBytes payload⟩
      ⟨s', ⟨before ++ payload ++ after, before.length, before.length + payload.length⟩⟩ := by
  refine ⟨hsame, Cursor.ofBytes_valid payload, ⟨before, after, rfl, rfl⟩, ?_, ?_⟩
  · exact (Nat.zero_add _).symm
  · exact Nat.add_comm _ _

/-- Behind some bytes, a cursor sees the others. -/
theorem Cursor.window_behind (before after : Bytes) :
    (Cursor.mk (before ++ after) before.length (before ++ after).length).window = after := by
  simp [window, remaining]

/-- A payload behind its length is checked against the bound and read as a range. -/
theorem Decoder.decode_lengthPrefixed {σ : Type} (decoder : Decoder) (visitor : Visitor σ)
    {payload : Bytes} (hlength : payload.length < 2 ^ 32) (before after : Bytes) (state : σ) :
    decoder.decode visitor true ⟨state, ⟨before ++ lengthPrefixed payload ++ after, before.length,
        (before ++ lengthPrefixed payload ++ after).length⟩⟩ =
      (decoder.checkLength payload.length >>= fun _ =>
        inRange payload.length (decoder.fields visitor))
          ⟨state, ⟨before ++ lengthPrefixed payload ++ after,
            before.length + (Varint.encode (UInt64.ofNat payload.length)).length,
            (before ++ lengthPrefixed payload ++ after).length⟩⟩ := by
  have hsplit : before ++ lengthPrefixed payload ++ after =
      before ++ (Varint.encode (UInt64.ofNat payload.length) ++ (payload ++ after)) := by
    simp [lengthPrefixed, List.append_assoc]
  have hread : Reader.uint32 (Cursor.mk (before ++ lengthPrefixed payload ++ after) before.length
      (before ++ lengthPrefixed payload ++ after).length).window =
        .ok (UInt32.ofNat payload.length,
          (Varint.encode (UInt64.ofNat payload.length)).length) := by
    rw [hsplit, Cursor.window_behind]
    exact Reader.uint32_encode_append hlength _
  have hdeclared : (UInt32.ofNat payload.length).toNat = payload.length :=
    UInt32.toNat_ofNat_of_lt' hlength
  rw [decoder.decode_delimited_apply hread, hdeclared]
  rfl

namespace Schema

/-- A message alone and the same message as a range of a larger region. -/
theorem fields_in_place (decoder : Decoder) {schema : Schema} (hs : schema.ScriptFree)
    (target : Target) (payload before after : Bytes) :
    EndsAlike before.length Target.SameMessage payload.length
      (decoder.fields (schema.visitor decoder) ⟨target, .ofBytes payload⟩)
      (decoder.fields (schema.visitor decoder)
        ⟨target, ⟨before ++ payload ++ after, before.length, before.length + payload.length⟩⟩) := by
  have hmirrors := Run.mirrors_in_place (Target.SameMessage.refl target) payload before after
  exact Decoder.alike_fields decoder (alike_visitor decoder hs) (keeps_visitor decoder hs) _ _
    hmirrors (Nat.lt_succ_self _)

end Schema

end WireFormat
