import WireFormat.Inspector
import WireFormat.Proofs.Passing
import WireFormat.Proofs.SchemaVisitor

/-!
# One verdict on a payload

Whether a payload is well formed does not depend on who asks. Reading its fields as single values of
any kind but text, passing over all of them, and inspecting them come to the same end: all go well,
or all fail with one error (`one_verdict`). Each way of reading is compared with passing over the
fields, value by value; what an inspection makes of the bytes of a value has no part in this.
-/

namespace WireFormat

open Decode

/-- Nothing is refused, and errors are the same. -/
def Comparison.equal : Comparison where
  refuses := fun _ => False
  fails := fun e e' => e = e'
  refuses_shift := fun _ h => h
  fails_shift := fun _ h => congrArg _ h
  fails_refl := fun _ => rfl
  fails_of_refuses := fun _ h => h.elim

/-- Whether a computation went well, or with which error it failed. -/
def verdict {σ α : Type} : EStateM.Result DecodeError σ α → Except DecodeError Unit
  | .ok _ _ => .ok ()
  | .error e _ => .error e

/-! ## Passing over everything -/

/-- Knows no field and keeps nothing. -/
def passing : Visitor Unit := fun _ => pure .unrecognized

theorem passing_passes : passing.Passes := fun _ run => ⟨run.state, rfl⟩

namespace Decoder

variable {σ : Type} {decoder decoder' : Decoder} {visitor : Visitor σ}

/-- A visitor that takes of each value what is passed over has the verdict of passing over all. -/
theorem verdict_eq_passing (hkeeps : ∀ tag, Keeps .advancing (visitor tag))
    (h : ∀ bound tag, Compares .equal bound (visitor tag >>= decoder.settle visitor tag)
      (onCursor (decoder.skip tag) : Decode Unit Unit)) (data : Bytes) (state : σ) :
    verdict (decoder.decodeBytes visitor data state) =
      verdict (decoder.decodeBytes passing data ()) := by
  rcases decoder.admits_or_lt data.length with hadmits | ⟨max, hmax, hless⟩
  · have hends := compares_payload decoder hkeeps passing_passes h data state ()
    rw [decodeBytes_of_admits hadmits, decodeBytes_of_admits hadmits]
    generalize decoder.fields visitor ⟨state, .ofBytes data⟩ = result at hends ⊢
    generalize decoder.fields passing ⟨(), .ofBytes data⟩ = result' at hends ⊢
    cases hends with
    | ok => rfl
    | refused he => exact he.elim
    | error he => exact congrArg Except.error he
  · rw [decodeBytes_of_lt hmax hless, decodeBytes_of_lt hmax hless]
    rfl

/-! ## The bound on inspections -/

theorem skipStep_congr (h : decoder.maxGroupDepth = decoder'.maxGroupDepth) (tag : Tag)
    (opened : List UInt32) : decoder.skipStep tag opened = decoder'.skipStep tag opened := by
  unfold skipStep
  rw [h]

theorem skipOpened_congr (h : decoder.maxGroupDepth = decoder'.maxGroupDepth)
    (opened : List UInt32) (src : Bytes) :
    decoder.skipOpened opened src = decoder'.skipOpened opened src := by
  induction hsize : src.length using Nat.strongRecOn generalizing opened src with
  | ind size ih =>
    subst hsize
    cases opened with
    | nil => rw [skipOpened_nil, skipOpened_nil]
    | cons field outer =>
      rw [skipOpened_cons, skipOpened_cons]
      cases htag : Reader.tag src with
      | error e => rfl
      | ok r =>
        obtain ⟨tag, k⟩ := r
        obtain ⟨hpos, hk⟩ := Reader.tag_bounds htag
        have hgoes : ∀ opened' j, k ≤ j →
            decoder.skipOpened opened' (src.drop j) = decoder'.skipOpened opened' (src.drop j) := by
          intro opened' j hj
          refine ih _ ?_ opened' (src.drop j) rfl
          rw [List.length_drop]
          omega
        simp only [skipInside, skipStep_congr h, List.drop_drop, hgoes outer k (Nat.le_refl _)]
        cases decoder'.skipStep tag (field :: outer) (src.drop k) with
        | error e => rfl
        | ok r =>
          obtain ⟨opened', n⟩ := r
          simp only [hgoes opened' (k + n) (Nat.le_add_right _ _)]

theorem skip_congr (h : decoder.maxGroupDepth = decoder'.maxGroupDepth) :
    decoder.skip = decoder'.skip := by
  funext tag
  have hscan : decoder.skipBytes tag = decoder'.skipBytes tag := by
    funext src
    simp only [skipBytes, skipStep_congr h, skipOpened_congr h]
  rw [skip, skip, hscan]

/-- How deep an inspection may go says nothing to a decoder. -/
theorem decodeBytes_maxMessageDepth (decoder : Decoder) (depth : Nat) (visitor : Visitor σ)
    (data : Bytes) :
    ({ decoder with maxMessageDepth := depth } : Decoder).decodeBytes visitor data =
      decoder.decodeBytes visitor data := by
  have hskip : ({ decoder with maxMessageDepth := depth } : Decoder).skip = decoder.skip :=
    skip_congr rfl
  unfold decodeBytes decode fields field packedRun packedElement checkLength
  rw [hskip]

end Decoder

/-! ## Reading single values -/

namespace Schema

/-- A schema of single values that are not packed and not text. -/
def SingleValued (schema : Schema) : Prop :=
  ∀ entry ∈ schema.entries, ∃ number kind, entry = .scalar number kind false ∧ kind ≠ .string

variable {schema schema' : Schema}

theorem SingleValued.scriptFree (h : schema.SingleValued) : schema.ScriptFree := by
  refine .intro (fun number wireBits steps reply hmem => ?_) fun number repeated sub hmem => ?_
  · obtain ⟨_, _, heq, -⟩ := h _ hmem
    cases heq
  · obtain ⟨_, _, heq, -⟩ := h _ hmem
    cases heq

theorem SingleValued.take? (h : schema.SingleValued) {tag : Tag} {index : Nat} {action : Action}
    (htake : schema.take? tag = some (index, action)) :
    ∃ kind, action = .value kind ∧ tag.wireType = kind.wireType ∧ kind ≠ .string := by
  obtain ⟨entry, hget, haction⟩ := take?_eq_some htake
  obtain ⟨-, haction⟩ := actionFor?_of_action? haction
  obtain ⟨number, kind, rfl, hkind⟩ := h _ (List.mem_of_getElem? hget)
  by_cases hwire : tag.wireType = kind.wireType
  · rw [Entry.actionFor?, if_pos hwire] at haction
    cases haction
    exact ⟨kind, rfl, hwire, hkind⟩
  · rw [Entry.actionFor?, if_neg hwire] at haction
    cases haction

theorem verdict_singleValued (decoder : Decoder) (h : schema.SingleValued) (data : Bytes)
    (target : Target) :
    verdict (decoder.decodeBytes (schema.visitor decoder) data target) =
      verdict (decoder.decodeBytes passing data ()) := by
  refine Decoder.verdict_eq_passing (keeps_visitor decoder h.scriptFree) (fun bound tag => ?_)
    data target
  refine compares_visitor fun levels index action htake => ?_
  obtain ⟨kind, rfl, hwire, hkind⟩ := h.take? htake
  exact compares_value hwire fun htext => absurd htext hkind

end Schema

/-! ## Inspecting -/

namespace Inspector

variable {inspector : Inspector} {guess : Bytes → Option Json} {tag : Tag}

/-- A value that is shown is read as it is passed over, whatever its bytes are taken for. -/
theorem value?_passer {reader : Reader Json} (h : inspector.value? guess tag = some reader) :
    ∃ passer, tag.wireType.passer? = some passer ∧ reader.Orderly ∧
      ∀ src, Comparison.equal.Takes (reader src) (passer src) := by
  unfold value? at h
  cases hwire : tag.wireType <;> rw [hwire] at h <;> cases h
  · exact ⟨_, rfl, Reader.orderly_uint64.map _,
      fun src => ((Comparison.Takes.self _ src).map _).map_right _⟩
  · exact ⟨_, rfl, ((Reader.orderly_exactly 8).map _).map _,
      fun src => (((Comparison.Takes.self _ src).map _).map _).map_right _⟩
  · exact ⟨_, rfl, Reader.orderly_lengthDelimited.map _,
      fun src => ((Comparison.Takes.self _ src).map _).map_right _⟩
  · exact ⟨_, rfl, ((Reader.orderly_exactly 4).map _).map _,
      fun src => (((Comparison.Takes.self _ src).map _).map _).map_right _⟩

theorem keeps_collect (inspector : Inspector) (guess : Bytes → Option Json) (tag : Tag) :
    Keeps .advancing (inspector.collect guess tag) := by
  unfold collect
  cases hvalue : inspector.value? guess tag with
  | none => exact .pure _
  | some reader =>
    obtain ⟨-, -, horderly, -⟩ := value?_passer hvalue
    exact .bind (.read horderly) fun _ => .bind (.onState _) fun _ => .pure _

theorem compares_collect (inspector : Inspector) (guess : Bytes → Option Json) (bound : Nat)
    (tag : Tag) : Compares .equal bound
      (inspector.collect guess tag >>= inspector.decoder.settle (inspector.collect guess) tag)
      (onCursor (inspector.decoder.skip tag) : Decode Unit Unit) := by
  rw [collect]
  cases hvalue : inspector.value? guess tag with
  | none => exact .onCursor _
  | some reader =>
    obtain ⟨passer, hpasser, -, htakes⟩ := value?_passer hvalue
    simp only [bind_assoc, pure_bind, Decoder.settle, Decoder.skip_eq_read _ hpasser]
    exact .followed (.read htakes) fun value => .bind (.onState _) fun _ => .pure ()

theorem verdict_inspect (inspector : Inspector) (data : Bytes) :
    (inspector.inspect data).map (fun _ => ()) =
      verdict (inspector.decoder.decodeBytes passing data ()) := by
  have h := Decoder.verdict_eq_passing
    (keeps_collect inspector (inspector.guess inspector.decoder.maxMessageDepth))
    (compares_collect inspector _) data []
  rw [← h, inspect, fields]
  cases inspector.decoder.decodeBytes _ data [] <;> rfl

end Inspector

/-- All schemas of single values but text, the one without entries included, and all inspections
come to one verdict on a payload under the same bounds. -/
theorem one_verdict (decoder : Decoder) (data : Bytes) {schema schema' : Schema}
    (h : schema.SingleValued) (h' : schema'.SingleValued) (target target' : Target)
    (form : BytesForm) (depth : Nat) :
    verdict (decoder.decodeBytes (schema.visitor decoder) data target) =
        verdict (decoder.decodeBytes (schema'.visitor decoder) data target') ∧
      (Inspector.inspect ⟨form, { decoder with maxMessageDepth := depth }⟩ data).map
          (fun _ => ()) =
        verdict (decoder.decodeBytes (schema.visitor decoder) data target) := by
  have hread := Schema.verdict_singleValued decoder h data target
  have hread' := Schema.verdict_singleValued decoder h' data target'
  have hinspect := Inspector.verdict_inspect
    ⟨form, { decoder with maxMessageDepth := depth }⟩ data
  rw [Decoder.decodeBytes_maxMessageDepth] at hinspect
  exact ⟨hread.trans hread'.symm, hinspect.trans hread.symm⟩

/-- A schema of byte strings under the number one. -/
def bytesSchema : Schema := ⟨[.scalar (some 1) .bytes false], []⟩

/-- Bytes beyond the end are missed in one place by all three: by a schema that reads them, by one
that passes over them, and by an inspection that looks into nothing. -/
theorem one_verdict_beyond_end :
    bytesSchema.SingleValued ∧ (⟨[], []⟩ : Schema).SingleValued ∧
      verdict (Decoder.decodeBytes {} (bytesSchema.visitor {}) [0x0a, 0x01, 0x07, 0x0a, 0x05, 0x01]
        ⟨bytesSchema.blank, []⟩) = .error (.truncated 5 5 6) ∧
      verdict (Decoder.decodeBytes {} (Schema.visitor {} ⟨[], []⟩)
        [0x0a, 0x01, 0x07, 0x0a, 0x05, 0x01] ⟨⟨[], []⟩, []⟩) = .error (.truncated 5 5 6) ∧
      (Inspector.inspect ⟨.base64, { maxMessageDepth := 0 }⟩
        [0x0a, 0x01, 0x07, 0x0a, 0x05, 0x01]).map (fun _ => ()) = .error (.truncated 5 5 6) := by
  have hbytes : bytesSchema.SingleValued := fun entry hmem =>
    ⟨_, _, List.mem_singleton.1 hmem, by decide⟩
  have hempty : (⟨[], []⟩ : Schema).SingleValued := fun entry hmem => absurd hmem List.not_mem_nil
  have hverdict : verdict (Decoder.decodeBytes {} (bytesSchema.visitor {})
      [0x0a, 0x01, 0x07, 0x0a, 0x05, 0x01] ⟨bytesSchema.blank, []⟩) =
        .error (.truncated 5 5 6) := rfl
  obtain ⟨hread, hshown⟩ := one_verdict {} [0x0a, 0x01, 0x07, 0x0a, 0x05, 0x01] hbytes hempty
    ⟨bytesSchema.blank, []⟩ ⟨⟨[], []⟩, []⟩ .base64 0
  exact ⟨hbytes, hempty, hverdict, hread.symm.trans hverdict, hshown.trans hverdict⟩

end WireFormat
