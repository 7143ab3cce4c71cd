import WireFormat.Session
import WireFormat.Proofs.Exactness

/-!
# The ranges of a session lie inside each other

The position, the limit, the limits that were kept, from the newest to the oldest, and the end of
the region come in this order, whatever is done in a session and however it ends
(`Session.Nested`), as long as no step starts over with a new cursor. So the bytes up to the limit
are there to be read, and restoring a limit never lowers it.

`Session.LeadsTo` is what one thing that is done keeps, and `history_nested` what a whole session
keeps.
-/

namespace WireFormat

/-! ## What a session keeps -/

namespace Session

variable {σ α β : Type}

/-- The position, the limit, the limits kept, newest first, and the end of the region come in this
order. -/
structure Nested (session : Session σ) : Prop where
  position_le : session.cursor.position ≤ session.cursor.limit
  sorted : (session.cursor.limit :: session.saved).Pairwise (· ≤ ·)
  le_length : ∀ limit ∈ session.cursor.limit :: session.saved,
    limit ≤ session.cursor.region.length

/-- A session went on to another one, in the same region and not backwards. -/
structure LeadsTo (session next : Session σ) : Prop where
  nested : next.Nested
  region : next.cursor.region = session.cursor.region
  position_le : session.cursor.position ≤ next.cursor.position

variable {session next last : Session σ}

theorem Nested.valid (h : session.Nested) : session.cursor.Valid :=
  ⟨h.position_le, h.le_length _ List.mem_cons_self⟩

theorem Nested.refl (h : session.Nested) : session.LeadsTo session := ⟨h, rfl, Nat.le_refl _⟩

theorem LeadsTo.trans (h : session.LeadsTo next) (h' : next.LeadsTo last) : session.LeadsTo last :=
  ⟨h'.nested, h'.region.trans h.region, Nat.le_trans h.position_le h'.position_le⟩

/-- A cursor that goes on and keeps its limit leaves the nesting as it is. -/
theorem Nested.advances (h : session.Nested) {cursor : Cursor}
    (hadvances : session.cursor.Advances cursor) (message : σ) :
    session.LeadsTo ⟨cursor, session.saved, message⟩ := by
  refine ⟨⟨hadvances.le_limit, ?_, ?_⟩, hadvances.region, hadvances.position_le⟩
  · rw [hadvances.limit]
    exact h.sorted
  · rw [hadvances.limit, hadvances.region]
    exact h.le_length

/-- A narrowed limit is the innermost, and a restored one was next to it. -/
theorem Nested.moves (h : session.Nested) {cursor : Cursor} {saved : List Nat}
    (hmoves : Step.Moves session.cursor session.saved cursor saved) :
    session.LeadsTo ⟨cursor, saved, session.message⟩ := by
  obtain ⟨hbefore, hbehind⟩ := List.pairwise_cons.1 h.sorted
  cases hmoves with
  | advance hn => exact h.advances (Motion.advancing.advance h.valid hn) session.message
  | @narrow length hfit =>
    refine ⟨⟨Nat.le_add_right _ _, ?_, ?_⟩, rfl, Nat.le_refl _⟩
    · refine List.pairwise_cons.2 ⟨fun limit hlimit => ?_, h.sorted⟩
      rcases List.mem_cons.1 hlimit with rfl | hsaved
      · exact hfit
      · exact Nat.le_trans hfit (hbefore limit hsaved)
    · refine List.forall_mem_cons.2 ⟨?_, h.le_length⟩
      exact Nat.le_trans hfit (h.le_length _ List.mem_cons_self)
  | @restore old older hsaved =>
    rw [hsaved] at hbefore hbehind
    have hold : session.cursor.limit ≤ old := hbefore old List.mem_cons_self
    refine ⟨⟨Nat.le_trans h.position_le hold, hbehind, fun limit hlimit => ?_⟩, rfl, Nat.le_refl _⟩
    exact h.le_length limit (List.mem_cons_of_mem _ (hsaved ▸ hlimit))

/-! ## Commands -/

/-- Where a computation left the session, well or not. -/
def ended : EStateM.Result DecodeError (Session σ) α → Session σ
  | .ok _ session => session
  | .error _ session => session

/-- A computation leads a session whose limits are nested to another such session. -/
def Keeps (body : EStateM DecodeError (Session σ) α) : Prop :=
  ∀ session : Session σ, session.Nested → session.LeadsTo (ended (body session))

theorem Keeps.pure (a : α) : Keeps (Pure.pure a : EStateM DecodeError (Session σ) α) :=
  fun _ h => h.refl

theorem Keeps.bind {first : EStateM DecodeError (Session σ) α}
    {next : α → EStateM DecodeError (Session σ) β} (hfirst : Keeps first)
    (hnext : ∀ a, Keeps (next a)) : Keeps (first >>= next) := by
  intro session h
  have hleads := hfirst session h
  rw [Decode.bind_apply]
  cases hr : first session with
  | error e after =>
    rw [hr] at hleads
    exact hleads
  | ok a after =>
    rw [hr] at hleads
    exact hleads.trans (hnext a after hleads.nested)

theorem Keeps.onBoth {body : Decode σ α} (hbody : Decode.Keeps .advancing body) :
    Keeps (onBoth body) := by
  intro session h
  have hadvances := hbody ⟨session.message, session.cursor⟩ h.valid
  unfold Session.onBoth
  cases hr : body ⟨session.message, session.cursor⟩ with
  | ok a run =>
    rw [hr] at hadvances
    exact h.advances hadvances run.state
  | error e run =>
    rw [hr] at hadvances
    exact h.advances hadvances run.state

theorem Keeps.onCursor {reading : Reading α}
    (hreading : Decode.Keeps .advancing (Decode.onCursor reading : Decode Unit α)) :
    Keeps (onCursor reading : EStateM DecodeError (Session σ) α) := by
  intro session h
  have hadvances := hreading ⟨(), session.cursor⟩ h.valid
  unfold Session.onCursor
  unfold Decode.onCursor at hadvances
  cases hr : reading session.cursor with
  | ok a cursor =>
    rw [hr] at hadvances
    exact h.advances hadvances session.message
  | error e cursor =>
    rw [hr] at hadvances
    exact h.advances hadvances session.message

theorem Keeps.onMessage (body : EStateM DecodeError σ α) : Keeps (onMessage body) := by
  intro session h
  unfold Session.onMessage
  have hstays := Motion.advancing.refl session.cursor h.valid
  cases body session.message with
  | ok a message => exact h.advances hstays message
  | error e message => exact h.advances hstays message

theorem takeStep_apply (step : Step) (session : Session σ) :
    takeStep step session = match step.run session.saved session.cursor with
      | .ok (answer, saved) cursor => .ok answer ⟨cursor, saved, session.message⟩
      | .error e cursor => .error e { session with cursor } := by
  show (onCursor (step.run session.saved) >>= fun answered =>
    modify (fun session => { session with saved := answered.2 }) >>= fun _ =>
      Pure.pure answered.1) session = _
  rw [Decode.bind_apply]
  unfold Session.onCursor
  cases step.run session.saved session.cursor <;> rfl

theorem Keeps.takeStep {step : Step} (hstep : step.GoesOn) :
    Keeps (takeStep step : EStateM DecodeError (Session σ) Answer) := by
  intro session h
  rw [takeStep_apply]
  cases hr : step.run session.saved session.cursor with
  | ok answered cursor =>
    obtain ⟨answer, saved⟩ := answered
    exact h.moves (Step.moves_of_run hstep h.valid hr)
  | error e cursor =>
    rw [Step.eq_of_run_eq_error hr]
    exact h.refl

end Session

/-- A command that does not start over with a new cursor. -/
def Command.GoesOn : Command → Prop
  | .step taken => taken.GoesOn
  | _ => True

namespace Session

/-- What a command keeps, on messages of a schema without scripts. -/
theorem keeps_perform (decoder : Decoder) {schema : Schema} (hs : schema.ScriptFree)
    {command : Command} (hcommand : command.GoesOn) :
    Keeps (perform decoder (schema.messageType decoder) command) := by
  have hvisitor : ∀ tag, Decode.Keeps .advancing (schema.visitor decoder tag) :=
    Schema.keeps_visitor decoder hs
  cases command with
  | step step => exact .takeStep hcommand
  | skip tag => exact .bind (.onCursor (.skip decoder tag)) fun _ => .pure _
  | decode delimited =>
    show Keeps (onBoth (decoder.decode (schema.visitor decoder) delimited) >>= fun _ =>
      Pure.pure Answer.nothing)
    exact .bind (.onBoth (Decoder.keeps_decode decoder hvisitor delimited)) fun _ => .pure _
  | merge =>
    refine .bind (.onBoth (Decoder.keeps_merge decoder fun visitor hsome => ?_)) fun _ => .pure _
    cases hsome
    exact hvisitor
  | decodeBytes data =>
    exact .bind (.pure _) fun _ => .bind (.onMessage _) fun _ => .pure _
  | load data => exact .bind (.onMessage _) fun _ => .pure _
  | loadDefault data => exact .bind (.onMessage _) fun _ => .pure _
  | reset => exact .bind (.onMessage _) fun _ => .pure _
  | encode => exact fun session h => h.refl
  | isComplete => exact fun session h => h.refl
  | isReadable => exact .pure _

end Session

/-! ## Whole sessions -/

/-- What is done next in a session. -/
inductive Turn where
  /-- A command is carried out on a message of a schema, under some bounds. -/
  | perform (decoder : Decoder) (schema : Schema) (command : Command)
  /-- Another message takes the place of the one at hand. -/
  | exchange (message : Target)

/-- A turn of a session that goes on with its cursor, on messages without scripts. -/
def Turn.GoesOn : Turn → Prop
  | .perform _ schema command => schema.ScriptFree ∧ command.GoesOn
  | .exchange _ => True

namespace Session

/-- The session after a turn, whether the command went well or not. -/
def turn (session : Session Target) : Turn → Session Target
  | .perform decoder schema command =>
    ended (perform decoder (schema.messageType decoder) command session)
  | .exchange message => { session with message }

/-- A session and what becomes of it, turn by turn. -/
def history (session : Session Target) : List Turn → List (Session Target)
  | [] => [session]
  | turn :: turns => session :: (session.turn turn).history turns

theorem Nested.turn {session : Session Target} (h : session.Nested) {turn : Turn}
    (hturn : turn.GoesOn) : session.LeadsTo (session.turn turn) := by
  cases turn with
  | perform decoder schema command =>
    obtain ⟨hs, hcommand⟩ := hturn
    exact keeps_perform decoder hs hcommand session h
  | exchange message => exact h.advances (Motion.advancing.refl _ h.valid) message

theorem start_nested {cursor : Cursor} (hc : cursor.Valid) (message : Target) :
    (start cursor message).Nested :=
  ⟨hc.1, List.pairwise_singleton _ _, by simpa [start] using hc.2⟩

/-- A session leads to each that becomes of it, and each of these to the later ones. -/
theorem leadsTo_history {session : Session Target} (h : session.Nested) {turns : List Turn}
    (hturns : ∀ turn ∈ turns, turn.GoesOn) :
    (∀ later ∈ session.history turns, session.LeadsTo later) ∧
      (session.history turns).Pairwise LeadsTo := by
  induction turns generalizing session with
  | nil =>
    refine ⟨fun later hlater => ?_, List.pairwise_singleton _ _⟩
    rw [history, List.mem_singleton] at hlater
    exact hlater ▸ h.refl
  | cons turn turns ih =>
    obtain ⟨hturn, hrest⟩ := List.forall_mem_cons.1 hturns
    have hleads := h.turn hturn
    obtain ⟨hlater, hpairs⟩ := ih hleads.nested hrest
    have hall : ∀ later ∈ (session.turn turn).history turns, session.LeadsTo later :=
      fun later hmem => hleads.trans (hlater later hmem)
    exact ⟨List.forall_mem_cons.2 ⟨h.refl, hall⟩, List.pairwise_cons.2 ⟨hall, hpairs⟩⟩

/-- Whatever is done on a cursor that begins at the start of a region or somewhere else in it, well
or not, in which order and on which messages: after every turn the position, the limit, the limits
kept and the end of the region come in this order, the region is the same, and the position is not
in front of an earlier one. -/
theorem history_nested {region : Bytes} {cursor : Cursor}
    (hcursor : cursor = .ofBytes region ∨ ∃ position, cursor = .atPosition region position)
    (message : Target) {turns : List Turn} (hturns : ∀ turn ∈ turns, turn.GoesOn) :
    (∀ session ∈ (start cursor message).history turns,
      session.Nested ∧ session.cursor.region = region) ∧
    ((start cursor message).history turns).Pairwise fun earlier later =>
      earlier.cursor.position ≤ later.cursor.position := by
  have hstart : cursor.Valid ∧ cursor.region = region := by
    rcases hcursor with rfl | ⟨position, rfl⟩
    · exact ⟨Cursor.ofBytes_valid region, rfl⟩
    · exact ⟨Cursor.atPosition_valid region position, rfl⟩
  obtain ⟨hall, hpairs⟩ := leadsTo_history (start_nested hstart.1 message) hturns
  refine ⟨fun session hsession => ?_, hpairs.imp fun hleads => hleads.position_le⟩
  have hleads := hall session hsession
  exact ⟨hleads.nested, hleads.region.trans hstart.2⟩

/-- Messages with two numbers. -/
def pairSchema : Schema := ⟨[.scalar (some 1) .uint32 false, .scalar (some 2) .uint32 false], []⟩

/-- A limit is narrowed, a message breaks off inside it, the limit cannot be narrowed beyond itself,
and another message is read behind it when it is restored. -/
def brokenTurns : List Turn :=
  [.perform {} pairSchema (.step (.narrow 6)), .perform {} pairSchema (.step .readTag),
    .perform {} pairSchema (.decode true), .perform {} pairSchema (.step (.narrow 9)),
    .exchange ⟨pairSchema.blank, []⟩, .perform {} pairSchema (.skip (Tag.of 1 .varint)),
    .perform {} pairSchema (.step .restore), .perform {} pairSchema (.decode false)]

theorem history_nested_broken :
    let first := start (.ofBytes [0x0a, 0x02, 0x08, 0x96, 0x01, 0x10, 0x05]) ⟨pairSchema.blank, []⟩
    (∀ turn ∈ brokenTurns, turn.GoesOn) ∧
      (first.history brokenTurns).map (fun session =>
        (session.cursor.position, session.cursor.limit, session.saved)) =
        [(0, 7, []), (0, 6, [7]), (1, 6, [7]), (3, 6, [7]), (3, 6, [7]), (3, 6, [7]), (5, 6, [7]),
          (5, 7, []), (7, 7, [])] ∧
      ∀ session ∈ first.history brokenTurns, session.Nested := by
  intro first
  have hs : pairSchema.ScriptFree := .intro (by simp [pairSchema]) (by simp [pairSchema])
  have hturns : ∀ turn ∈ brokenTurns, turn.GoesOn := by
    simp [brokenTurns, Turn.GoesOn, Command.GoesOn, Step.GoesOn, hs]
  refine ⟨hturns, by decide +kernel, fun session hsession => ?_⟩
  exact ((history_nested (.inl rfl) ⟨pairSchema.blank, []⟩ hturns).1 session hsession).1

end Session

end WireFormat
