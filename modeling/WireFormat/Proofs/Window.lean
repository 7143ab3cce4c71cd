import WireFormat.Session
import WireFormat.Schema.Encoding
import WireFormat.Proofs.InPlace

/-!
# What lies outside the window has no part

Two cursors agree if they have the same position, limit and window; their regions may be of any
length, and hold any bytes in front of the position and from the limit on. A computation is
`Oblivious` if it does the same wherever two states agree: it gives the same value or the same
error, and leaves states that agree again.

Reads, the narrowing of the limit and the skipping of values are, since they are given the window
and no more. For the fields of a message there is one more thing to be had from `Alike`: what both
cursors see is the window, as a region of its own, and both runs are the run over that region,
moved on by the position (`oblivious_of_alike`). The numbers of levels and rounds go by the length
of the region, but either number is enough for the window.

`Session.perform_agrees` puts it together for the commands of a session.
-/

namespace WireFormat

open Decode

/-! ## Computations that do the same where states agree -/

/-- Two results with the same value or the same error, and with related states. -/
inductive SameEnd {ε σ α : Type} (related : σ → σ → Prop) :
    EStateM.Result ε σ α → EStateM.Result ε σ α → Prop
  | ok {a : α} {s s' : σ} : related s s' → SameEnd related (.ok a s) (.ok a s')
  | error {e : ε} {s s' : σ} : related s s' → SameEnd related (.error e s) (.error e s')

/-- A computation that ends the same from related states. -/
def Oblivious {ε σ α : Type} (related : σ → σ → Prop) (body : EStateM ε σ α) : Prop :=
  ∀ s s', related s s' → SameEnd related (body s) (body s')

namespace Oblivious

variable {ε σ α β : Type} {related : σ → σ → Prop}

theorem pure (a : α) : Oblivious related (Pure.pure a : EStateM ε σ α) :=
  fun _ _ h => .ok h

theorem bind {first : EStateM ε σ α} {next : α → EStateM ε σ β}
    (hfirst : Oblivious related first) (hnext : ∀ a, Oblivious related (next a)) :
    Oblivious related (first >>= next) := by
  intro s s' h
  have hend := hfirst s s' h
  rw [bind_apply, bind_apply]
  generalize first s = result at hend ⊢
  generalize first s' = result' at hend ⊢
  cases hend with
  | ok hrelated => exact hnext _ _ _ hrelated
  | error hrelated => exact .error hrelated

end Oblivious

/-! ## Cursors -/

/-- Two cursors at one position, with one limit, and with the same bytes between. -/
structure Cursor.Agrees (c c' : Cursor) : Prop where
  valid : c.Valid
  valid' : c'.Valid
  position : c.position = c'.position
  limit : c.limit = c'.limit
  window : c.window = c'.window

namespace Cursor

variable {c c' inner : Cursor} {distance : Nat}

theorem Agrees.remaining_eq (h : c.Agrees c') : c.remaining = c'.remaining := by
  simp only [remaining, h.position, h.limit]

theorem Agrees.advance (h : c.Agrees c') {n : Nat} (hn : n ≤ c.remaining) :
    (c.advance n).Agrees (c'.advance n) where
  valid := h.valid.advance hn
  valid' := h.valid'.advance (h.remaining_eq ▸ hn)
  position := congrArg (· + n) h.position
  limit := h.limit
  window := by rw [window_advance, window_advance, h.window]

theorem Agrees.narrowed (h : c.Agrees c') {length : Nat} (hfit : c.position + length ≤ c.limit) :
    (c.withLimit (c.position + length)).Agrees (c'.withLimit (c'.position + length)) where
  valid := h.valid.narrowed hfit
  valid' := h.valid'.narrowed (by rwa [← h.position, ← h.limit])
  position := h.position
  limit := congrArg (· + length) h.position
  window := by
    have hlength : length ≤ c.remaining := Nat.le_sub_of_add_le' hfit
    rw [window_withLimit hlength, window_withLimit (h.remaining_eq ▸ hlength), h.window]

/-- What two cursors see of the same bytes does not depend on where these bytes lie. -/
theorem Inside.agrees (h : inner.Inside distance c) (h' : inner.Inside distance c') :
    c.Agrees c' where
  valid := h.outer_valid
  valid' := h'.outer_valid
  position := h.position.trans h'.position.symm
  limit := h.limit.trans h'.limit.symm
  window := h.window_eq.trans h'.window_eq.symm

/-- What a cursor sees is a region of its own. -/
theorem Valid.inside_window (hc : c.Valid) : (ofBytes c.window).Inside c.position c := by
  have hlength := length_window hc
  obtain ⟨hp, hl⟩ := hc
  refine ⟨ofBytes_valid _, ⟨c.region.take c.position, c.region.drop c.limit, ?_, ?_⟩, ?_, ?_⟩
  · have hbehind : c.region.drop c.limit = (c.region.drop c.position).drop c.remaining := by
      rw [List.drop_drop, remaining, Nat.add_sub_cancel' hp]
    rw [hbehind, List.append_assoc]
    simp only [ofBytes, window, List.take_append_drop]
  · exact List.length_take_of_le (Nat.le_trans hp hl)
  · exact (Nat.zero_add _).symm
  · show c.limit = c.window.length + c.position
    rw [hlength, remaining, Nat.sub_add_cancel hp]

/-- The window of one of two cursors that agree is the part that both see. -/
theorem Agrees.inside (h : c.Agrees c') : (ofBytes c.window).Inside c.position c' := by
  rw [h.window, h.position]
  exact h.valid'.inside_window

theorem oblivious_read {α : Type} {reader : Reader α} (hreader : reader.Orderly) :
    Oblivious Agrees (read reader) := by
  intro c c' h
  unfold read
  rw [← h.window, ← h.position]
  cases hr : reader c.window with
  | error e => exact .error h
  | ok r =>
    obtain ⟨a, n⟩ := r
    have hn := hreader.le_length hr
    rw [length_window h.valid] at hn
    exact .ok (h.advance hn)

theorem oblivious_narrow (length : Nat) : Oblivious Agrees (narrow length) := by
  intro c c' h
  unfold narrow
  by_cases hfit : c.position + length ≤ c.limit
  · have hfit' : c'.position + length ≤ c'.limit := by rwa [← h.position, ← h.limit]
    rw [if_pos hfit, if_pos hfit', h.limit]
    exact .ok (h.narrowed hfit)
  · have hfit' : ¬ c'.position + length ≤ c'.limit := by rwa [← h.position, ← h.limit]
    rw [if_neg hfit, if_neg hfit', h.position, h.limit]
    exact .error h

end Cursor

theorem Decoder.oblivious_skip (decoder : Decoder) (tag : Tag) :
    Oblivious Cursor.Agrees (decoder.skip tag) := by
  intro c c' h
  have hscan := decoder.orderly_skipBytes tag c.window
  unfold skip Cursor.pass
  rw [← h.window, ← h.position]
  rcases hr : decoder.skipBytes tag c.window with ⟨e, n⟩ | n
  all_goals
    have hn := hscan.passed_le
    rw [hr, Cursor.length_window h.valid] at hn
  · exact .error (h.advance hn)
  · exact .ok (h.advance hn)

/-- A step that asks nothing but the cursor's own range: the end of the region and the places
outside the limit are out of its reach. -/
def Step.Local : Step → Prop
  | .restore | .regionLength | .jump _ | .jumpBy _ => False
  | .read _ | .readTag | .skip _ | .narrow _ | .remaining | .isExhausted => True

theorem Step.oblivious_run {step : Step} (hstep : step.Local) (saved : List Nat) :
    Oblivious Cursor.Agrees (step.run saved) := by
  cases step with
  | restore | regionLength | jump _ | jumpBy _ => exact hstep.elim
  | read kind => exact .bind (Cursor.oblivious_read kind.orderly_reader) fun _ => .pure _
  | readTag => exact .bind (Cursor.oblivious_read Reader.orderly_tag) fun _ => .pure _
  | skip count => exact .bind (Cursor.oblivious_read (Reader.orderly_skip count)) fun _ => .pure _
  | narrow length => exact .bind (Cursor.oblivious_narrow length) fun _ => .pure _
  | remaining =>
    intro c c' h
    show SameEnd Cursor.Agrees (.ok (Answer.number c.remaining, saved) c)
      (.ok (Answer.number c'.remaining, saved) c')
    rw [h.remaining_eq]
    exact .ok h
  | isExhausted =>
    intro c c' h
    show SameEnd Cursor.Agrees (.ok (Answer.flag c.isExhausted, saved) c)
      (.ok (Answer.flag c'.isExhausted, saved) c')
    rw [Cursor.isExhausted, Cursor.isExhausted, h.position, h.limit]
    exact .ok h

/-! ## Messages -/

/-- The visit to the same bytes further on. -/
def Visit.shift (distance : Nat) (visit : Visit) : Visit :=
  { visit with position := visit.position + distance }

/-- A target with the message of another one, and with its visits further on, behind earlier ones.
-/
structure Target.Resumes (distance : Nat) (earlier : List Visit) (t t' : Target) : Prop where
  message : t.message = t'.message
  visits : t'.visits = earlier ++ t.visits.map (Visit.shift distance)

namespace Target

variable {distance : Nat} {earlier : List Visit} {t t₁ t₂ : Target}

theorem Resumes.likeness (distance : Nat) (earlier : List Visit) :
    Target.Likeness distance (Target.Resumes distance earlier) where
  message h := h.message
  modifyMessage change h := ⟨congrArg change h.message, h.visits⟩
  record depth tag position h := by
    refine ⟨h.message, ?_⟩
    simp only [record, h.visits, List.map_append, List.append_assoc]
    rfl

/-- The target is known from the other one and the earlier visits. -/
theorem Resumes.unique (h₁ : t.Resumes distance earlier t₁) (h₂ : t.Resumes distance earlier t₂) :
    t₁ = t₂ := by
  obtain ⟨message₁, visits₁⟩ := t₁
  obtain ⟨message₂, visits₂⟩ := t₂
  obtain ⟨rfl, rfl⟩ := h₁
  obtain ⟨rfl, rfl⟩ := h₂
  rfl

theorem Resumes.blank (distance : Nat) (t : Target) :
    Target.Resumes distance t.visits ⟨t.message, []⟩ t :=
  ⟨rfl, (List.append_nil _).symm⟩

end Target

/-- Two runs with the same message, at cursors that agree. -/
structure Run.Agrees {σ : Type} (run run' : Run σ) : Prop where
  state : run.state = run'.state
  cursor : run.cursor.Agrees run'.cursor

/-- What does the same at the same bytes, wherever they lie, is oblivious to what lies around them:
from both cursors it is what it is from the start of the window alone. -/
theorem oblivious_of_alike {α : Type} {body : Decode Target α}
    (hbody : ∀ distance earlier bound,
      Alike distance (Target.Resumes distance earlier) bound body body) :
    Oblivious Run.Agrees body := by
  intro run run' h
  let alone : Run Target := ⟨⟨run.state.message, []⟩, .ofBytes run.cursor.window⟩
  have hmirrors : alone.Mirrors run.cursor.position
      (Target.Resumes run.cursor.position run.state.visits) run :=
    ⟨.blank _ _, h.cursor.valid.inside_window⟩
  have hmirrors' : alone.Mirrors run.cursor.position
      (Target.Resumes run.cursor.position run.state.visits) run' :=
    ⟨h.state ▸ .blank _ _, h.cursor.inside⟩
  have hend := hbody _ _ _ alone run hmirrors (Nat.lt_succ_self _)
  have hend' := hbody _ _ _ alone run' hmirrors' (Nat.lt_succ_self _)
  generalize body alone = result at hend hend'
  generalize body run = result₁ at hend ⊢
  generalize body run' = result₂ at hend' ⊢
  cases hend with
  | ok hm =>
    cases hend' with
    | ok hm' => exact .ok ⟨hm.state.unique hm'.state, hm.cursor.agrees hm'.cursor⟩
  | error hm =>
    cases hend' with
    | error hm' => exact .error ⟨hm.state.unique hm'.state, hm.cursor.agrees hm'.cursor⟩

namespace Schema

variable {schema : Schema}

theorem alike_decode {distance bound : Nat} {same : Target → Target → Prop}
    (hsame : Target.Likeness distance same) (decoder : Decoder) (hs : schema.ScriptFree)
    (delimited : Bool) :
    Alike distance same (bound + 1) (decoder.decode (schema.visitor decoder) delimited)
      (decoder.decode (schema.visitor decoder) delimited) := by
  have hvisitor : ∀ tag, Alike distance same bound (schema.visitor decoder tag)
      (schema.visitor decoder tag) := alike_visitor_of hsame decoder hs
  have hkeeps : ∀ tag, Keeps .advancing (schema.visitor decoder tag) := keeps_visitor decoder hs
  cases delimited with
  | true => exact Decoder.alike_decode_delimited decoder hvisitor hkeeps
  | false =>
    refine .cursor_bind fun start start' hstart => ?_
    rw [hstart.remaining_eq]
    exact .bind (Decoder.alike_checkLength decoder _) (Decoder.keeps_checkLength decoder _)
      fun _ => Decoder.alike_fields decoder hvisitor hkeeps

theorem oblivious_decode (decoder : Decoder) (hs : schema.ScriptFree) (delimited : Bool) :
    Oblivious Run.Agrees (decoder.decode (schema.visitor decoder) delimited) :=
  oblivious_of_alike fun distance earlier _ run run' h hbound =>
    alike_decode (Target.Resumes.likeness distance earlier) decoder hs delimited run run' h
      (Nat.lt_succ_of_lt hbound)

theorem oblivious_merge (decoder : Decoder) (hs : schema.ScriptFree) :
    Oblivious Run.Agrees (decoder.merge (schema.messageType decoder)) :=
  oblivious_of_alike fun distance earlier _ run run' h hbound =>
    Decoder.alike_merge decoder rfl rfl
      (fun _ _ hst => congrArg schema.isComplete hst.message)
      (fun tag => alike_visitor_of (Target.Resumes.likeness distance earlier) decoder hs tag)
      (keeps_visitor decoder hs) run run' h (Nat.lt_succ_of_lt hbound)

end Schema

/-! ## Sessions -/

/-- A command that does not reach out of the window: on the cursor it takes local steps only. -/
def Command.Local : Command → Prop
  | .step taken => taken.Local
  | _ => True

/-- Two sessions with the same message and the same saved limits, at cursors that agree. -/
structure Session.Agrees {σ : Type} (session session' : Session σ) : Prop where
  cursor : session.cursor.Agrees session'.cursor
  saved : session.saved = session'.saved
  message : session.message = session'.message

namespace Session

variable {σ α : Type}

theorem oblivious_onCursor {reading : Reading α} (h : Oblivious Cursor.Agrees reading) :
    Oblivious Agrees (onCursor (σ := σ) reading) := by
  intro session session' hagree
  have hend := h _ _ hagree.cursor
  unfold onCursor
  generalize reading session.cursor = result at hend ⊢
  generalize reading session'.cursor = result' at hend ⊢
  cases hend with
  | ok hcursor => exact .ok ⟨hcursor, hagree.saved, hagree.message⟩
  | error hcursor => exact .error ⟨hcursor, hagree.saved, hagree.message⟩

theorem oblivious_onMessage (body : EStateM DecodeError σ α) :
    Oblivious Agrees (onMessage body) := by
  intro session session' hagree
  unfold onMessage
  rw [← hagree.message]
  cases body session.message with
  | ok a message => exact .ok ⟨hagree.cursor, hagree.saved, rfl⟩
  | error e message => exact .error ⟨hagree.cursor, hagree.saved, rfl⟩

theorem oblivious_onBoth {body : Decode σ α} (h : Oblivious Run.Agrees body) :
    Oblivious Agrees (onBoth body) := by
  intro session session' hagree
  have hend := h ⟨session.message, session.cursor⟩ ⟨session'.message, session'.cursor⟩
    ⟨hagree.message, hagree.cursor⟩
  unfold onBoth
  generalize body ⟨session.message, session.cursor⟩ = result at hend ⊢
  generalize body ⟨session'.message, session'.cursor⟩ = result' at hend ⊢
  cases hend with
  | ok hrun => exact .ok ⟨hrun.cursor, hagree.saved, hrun.state⟩
  | error hrun => exact .error ⟨hrun.cursor, hagree.saved, hrun.state⟩

/-- To ask for a part of the session that agrees is to be told the same. -/
theorem oblivious_get_bind {τ : Type} (part : Session σ → τ)
    (hpart : ∀ session session', Agrees session session' → part session = part session')
    {next : τ → EStateM DecodeError (Session σ) α} (hnext : ∀ a, Oblivious Agrees (next a)) :
    Oblivious Agrees (get >>= fun session => next (part session)) := by
  intro session session' hagree
  have hend := hnext (part session) session session' hagree
  show SameEnd Agrees (next (part session) session) (next (part session') session')
  rwa [← hpart session session' hagree]

theorem oblivious_takeStep {step : Step} (hstep : step.Local) :
    Oblivious Agrees (takeStep (σ := σ) step) := by
  refine oblivious_get_bind Session.saved (fun _ _ h => h.saved) fun saved =>
    .bind (oblivious_onCursor (step.oblivious_run hstep saved)) fun answer => ?_
  exact .bind (fun _ _ h => .ok ⟨h.cursor, rfl, h.message⟩) fun _ => .pure _

/-- A command that stays inside the limit does the same in two sessions that agree, on messages of
a schema without scripts: the answer, or the error, is the same, and so are the message, the visits,
the position and the limit. -/
theorem perform_agrees (decoder : Decoder) {schema : Schema} (hs : schema.ScriptFree)
    {command : Command} (hlocal : command.Local) {session session' : Session Target}
    (h : session.Agrees session') :
    SameEnd Agrees (perform decoder (schema.messageType decoder) command session)
      (perform decoder (schema.messageType decoder) command session') := by
  suffices hoblivious : Oblivious Agrees
      (perform decoder (schema.messageType decoder) command) from hoblivious _ _ h
  cases command with
  | step step => exact oblivious_takeStep hlocal
  | skip tag =>
    exact .bind (oblivious_onCursor (decoder.oblivious_skip tag)) fun _ => .pure _
  | decode delimited =>
    show Oblivious Agrees (onBoth (decoder.decode (schema.visitor decoder) delimited) >>= fun _ =>
      Pure.pure Answer.nothing)
    exact .bind (oblivious_onBoth (Schema.oblivious_decode decoder hs delimited)) fun _ => .pure _
  | merge => exact .bind (oblivious_onBoth (Schema.oblivious_merge decoder hs)) fun _ => .pure _
  | decodeBytes data =>
    exact .bind (.pure _) fun _ => .bind (oblivious_onMessage _) fun _ => .pure _
  | load data => exact .bind (oblivious_onMessage _) fun _ => .pure _
  | loadDefault data => exact .bind (oblivious_onMessage _) fun _ => .pure _
  | reset => exact .bind (oblivious_onMessage _) fun _ => .pure _
  | encode =>
    exact oblivious_get_bind Session.message (fun _ _ h => h.message) fun target : Target =>
      .pure (Answer.scalar (.bytes (schema.encode target.message)))
  | isComplete =>
    exact oblivious_get_bind Session.message (fun _ _ h => h.message) fun target : Target =>
      .pure (Answer.flag (schema.isComplete target.message))
  | isReadable => exact .pure _

/-- Messages with a number, and with messages of the same schema inside. -/
def nodeSchema : Schema := ⟨[.scalar (some 1) .uint32 false, .message (some 2) false none], []⟩

/-- A session on a cursor over a message whose last varint is cut off by the limit, between the
given bytes. -/
def cutSession (before : UInt8) (after : Bytes) : Session Target :=
  .start ⟨before :: ([0x12, 0x03, 0x08, 0x96, 0x80] ++ after), 1, 6⟩ ⟨nodeSchema.blank, []⟩

/-- A varint that is cut off by the limit is the same error whether the next byte would end it or
is not there. -/
theorem perform_agrees_at_cut_varint :
    nodeSchema.ScriptFree ∧ (Command.decode false).Local ∧
      (cutSession 0xff [0x01]).Agrees (cutSession 0x00 []) ∧
      ∃ ended ended', perform {} (nodeSchema.messageType {}) (.decode false)
          (cutSession 0xff [0x01]) = .error (.malformedLength 3 3 4) ended ∧
        perform {} (nodeSchema.messageType {}) (.decode false) (cutSession 0x00 []) =
          .error (.malformedLength 3 3 4) ended' ∧ ended.message = ended'.message := by
  have hs : nodeSchema.ScriptFree := .intro (by simp [nodeSchema]) (by simp [nodeSchema])
  have hagree : (cutSession 0xff [0x01]).Agrees (cutSession 0x00 []) :=
    ⟨⟨by decide, by decide, rfl, rfl, rfl⟩, rfl, rfl⟩
  have hlocal : (Command.decode false).Local := trivial
  obtain ⟨ended, hended⟩ : ∃ ended, perform {} (nodeSchema.messageType {}) (.decode false)
      (cutSession 0xff [0x01]) = .error (.malformedLength 3 3 4) ended := ⟨_, rfl⟩
  have hend := perform_agrees {} hs hlocal hagree
  rw [hended] at hend
  generalize perform {} (nodeSchema.messageType {}) (.decode false) (cutSession 0x00 []) = result
    at hend ⊢
  cases hend with
  | @error _ _ ended' hstates =>
    exact ⟨hs, hlocal, hagree, ended, ended', hended, rfl, hstates.message⟩

end Session

end WireFormat
