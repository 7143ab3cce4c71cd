import WireFormat.Proofs.Termination
import WireFormat.Proofs.Verdict

/-!
# Inspections end

`Inspector.guess` recurses on the number of levels that are left. An inspection that counts the
levels down from the payload instead stops where the count is above the bound, and its loops go on
for as long as there are fields. `Inspector.GuessCourse` says how a guess of such an inspection may
end; one that does not end, or ends in an overflow, has no course. Each has just one, the one of the
levels that are left (`Inspector.guessCourse_iff`), and so has the inspection
(`Inspector.inspectCourse_iff`). An inspection takes no value for a packed run, and so counts
nothing that could overflow.
-/

namespace WireFormat.Inspector

open Decode

variable {inspector : Inspector}

/-- What bytes are taken for, by how reading their fields ended. -/
def guessOf (bytes : Bytes) : EStateM.Result DecodeError (Run Shown) Unit → Option Json
  | .error _ _ => none
  | .ok () run =>
    if run.state.isEmpty || (isText bytes && run.state.any fun field => isReserved field.1) then
      none
    else some (Json.gather run.state)

/-- What a payload is shown as, by how reading its fields ended. -/
def inspectionOf : EStateM.Result DecodeError (Run Shown) Unit → Except DecodeError Json
  | .error e _ => .error e
  | .ok () run => .ok (Json.gather run.state)

/-- The fields of some bytes, as they are read from the front. -/
def decodeFront (inspector : Inspector) (deeper : Bytes → Option Json) (bytes : Bytes) :
    EStateM.Result DecodeError (Run Shown) Unit :=
  inspector.decoder.decode (inspector.collect deeper) false ⟨[], .ofBytes bytes⟩

theorem guess_succ (levels : Nat) (bytes : Bytes) :
    inspector.guess (levels + 1) bytes =
      if bytes.isEmpty || isPrintable bytes then none
      else guessOf bytes (inspector.decodeFront (inspector.guess levels) bytes) := by
  unfold guess fields Decoder.decodeBytes decodeFront guessOf
  cases inspector.decoder.decode _ false ⟨[], .ofBytes bytes⟩ <;> rfl

theorem inspect_eq (data : Bytes) :
    inspector.inspect data = inspectionOf
      (inspector.decodeFront (inspector.guess inspector.decoder.maxMessageDepth) data) := by
  unfold inspect fields Decoder.decodeBytes decodeFront inspectionOf
  cases inspector.decoder.decode _ false ⟨[], .ofBytes data⟩ <;> rfl

/-- How a guess so many messages below the payload may end, if it ends, and if all those that are
one message further down do. -/
inductive GuessCourse (inspector : Inspector) (arithmetic : Arithmetic) :
    Nat → Bytes → Option Json → Prop
  | tooDeep {depth : Nat} {bytes : Bytes} : inspector.decoder.maxMessageDepth < depth →
      GuessCourse inspector arithmetic depth bytes none
  | dismissed {depth : Nat} {bytes : Bytes} : (bytes.isEmpty || isPrintable bytes) = true →
      GuessCourse inspector arithmetic depth bytes none
  | looked {depth : Nat} {bytes : Bytes} {deeper : Bytes → Option Json}
      {ended : EStateM.Result DecodeError (Run Shown) Unit} :
      depth ≤ inspector.decoder.maxMessageDepth → (bytes.isEmpty || isPrintable bytes) = false →
      (∀ inner, GuessCourse inspector arithmetic (depth + 1) inner (deeper inner)) →
      inspector.decoder.decodeCourse arithmetic (inspector.collect deeper) false
        ⟨[], .ofBytes bytes⟩ (.ended ended) →
      GuessCourse inspector arithmetic depth bytes (guessOf bytes ended)

/-- How an inspection may end, if it and all guesses of what is inside end. -/
def InspectCourse (inspector : Inspector) (arithmetic : Arithmetic) (data : Bytes)
    (result : Except DecodeError Json) : Prop :=
  ∃ deeper ended, (∀ inner, inspector.GuessCourse arithmetic 1 inner (deeper inner)) ∧
    inspector.decoder.decodeCourse arithmetic (inspector.collect deeper) false
      ⟨[], .ofBytes data⟩ (.ended ended) ∧
    result = inspectionOf ended

/-- An inspection takes no value for a packed run. -/
theorem collect_ne_packed {deeper : Bytes → Option Json} {tag element : Tag}
    {run after : Run Shown} : inspector.collect deeper tag run ≠ .ok (.packed element) after := by
  intro h
  unfold collect at h
  cases hvalue : inspector.value? deeper tag with
  | none =>
    rw [hvalue] at h
    cases h
  | some reader =>
    rw [hvalue] at h
    obtain ⟨json, moved, -, hstore⟩ := bind_eq_ok h
    cases hstore

/-- Reading fields ends in one way, whatever is guessed of the bytes inside. -/
theorem decodeCourse_collect_iff {arithmetic : Arithmetic} {deeper : Bytes → Option Json}
    {bytes : Bytes} {ended : EStateM.Result DecodeError (Run Shown) Unit} :
    inspector.decoder.decodeCourse arithmetic (inspector.collect deeper) false
        ⟨[], .ofBytes bytes⟩ (.ended ended) ↔
      ended = inspector.decodeFront deeper bytes := by
  have hdetermined : Course.Determined (fun _ => True)
      (inspector.decoder.decodeCourse arithmetic (inspector.collect deeper) false)
      (inspector.decoder.decode (inspector.collect deeper) false) :=
    inspector.decoder.determined_payload
      (fun tag => (keeps_collect inspector deeper tag).narrowing)
      fun _ _ _ _ h => absurd h collect_ne_packed
  rw [hdetermined.of_calm (Cursor.ofBytes_valid bytes) trivial, Ending.ended.injEq]
  rfl

/-- A guess ends in one way, which is that of the levels that are left. -/
theorem guessCourse_iff {arithmetic : Arithmetic} {depth : Nat} {bytes : Bytes}
    {result : Option Json} :
    inspector.GuessCourse arithmetic depth bytes result ↔
      result = inspector.guess (inspector.decoder.maxMessageDepth + 1 - depth) bytes := by
  induction hlevels : inspector.decoder.maxMessageDepth + 1 - depth
    generalizing depth bytes result with
  | zero =>
    have hdeep : inspector.decoder.maxMessageDepth < depth := by omega
    constructor
    · intro h
      cases h with
      | tooDeep => rfl
      | dismissed => rfl
      | looked hdepth => omega
    · rintro rfl
      exact .tooDeep hdeep
  | succ levels ih =>
    have hdepth : depth ≤ inspector.decoder.maxMessageDepth := by omega
    have hdeeper : ∀ {inner : Bytes} {json : Option Json},
        inspector.GuessCourse arithmetic (depth + 1) inner json ↔
          json = inspector.guess levels inner :=
      ih (by omega)
    rw [guess_succ]
    by_cases hdismissed : (bytes.isEmpty || isPrintable bytes) = true
    · rw [if_pos hdismissed]
      constructor
      · intro h
        cases h with
        | tooDeep => rfl
        | dismissed => rfl
        | looked _ hlooked =>
          rw [hdismissed] at hlooked
          cases hlooked
      · rintro rfl
        exact .dismissed hdismissed
    · rw [if_neg hdismissed]
      constructor
      · intro h
        cases h with
        | tooDeep hdeep => omega
        | dismissed hdismissed' => exact absurd hdismissed' hdismissed
        | @looked _ _ deeper ended _ _ hinner hcourse =>
          have hsame : deeper = inspector.guess levels :=
            funext fun inner => hdeeper.1 (hinner inner)
          rw [decodeCourse_collect_iff.1 hcourse, hsame]
      · rintro rfl
        exact .looked hdepth (Bool.not_eq_true _ ▸ hdismissed) (fun inner => hdeeper.2 rfl)
          (decodeCourse_collect_iff.2 rfl)

/-- An inspection ends in one way. -/
theorem inspectCourse_iff {arithmetic : Arithmetic} {data : Bytes}
    {result : Except DecodeError Json} :
    inspector.InspectCourse arithmetic data result ↔ result = inspector.inspect data := by
  rw [inspect_eq]
  constructor
  · rintro ⟨deeper, ended, hinner, hcourse, rfl⟩
    have hsame : deeper = inspector.guess inspector.decoder.maxMessageDepth :=
      funext fun inner => guessCourse_iff.1 (hinner inner)
    rw [decodeCourse_collect_iff.1 hcourse, hsame]
  · rintro rfl
    exact ⟨_, _, fun inner => guessCourse_iff.2 rfl, decodeCourse_collect_iff.2 rfl, rfl⟩

end WireFormat.Inspector
