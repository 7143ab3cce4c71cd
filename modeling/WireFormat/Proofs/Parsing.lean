import WireFormat.Proofs.Filtering

/-!
# The fields that a payload consists of

By the grammar, some bytes are a list of fields if each of these is a tag and a value of that tag
(`RawField.Parses`). They are the fields of one list at most (`RawField.Parses.unique`): a tag is
read off the front in one way only, and passing over the value tells where the field ends.

A decoder goes through the fields of its payload if its visitor goes through values of the grammar.
What is done with the message is then said of the fields: `Decoder.decodeBytes_parses` says it of
all of them if it is known of each.
-/

namespace WireFormat

open Decode

namespace RawField

/-- Some bytes are these fields, each a tag and a value of the grammar with at most so many levels
of groups. -/
structure Parses (levels : Nat) (fields : List RawField) (data : Bytes) : Prop where
  bytes : concat fields = data
  head : ∀ field ∈ fields, Grammar.IsTag field.tag field.head
  value : ∀ field ∈ fields, Grammar.IsValue levels field.tag field.value

variable {levels : Nat} {data : Bytes} {fields : List RawField}

theorem Parses.nil : Parses levels [] [] where
  bytes := rfl
  head _ h := nomatch h
  value _ h := nomatch h

theorem Parses.cons {field : RawField} (hhead : Grammar.IsTag field.tag field.head)
    (hvalue : Grammar.IsValue levels field.tag field.value) (h : Parses levels fields data) :
    Parses levels (field :: fields) (field.bytes ++ data) where
  bytes := by rw [concat_cons, h.bytes]
  head := List.forall_mem_cons.2 ⟨hhead, h.head⟩
  value := List.forall_mem_cons.2 ⟨hvalue, h.value⟩

/-- What is left behind the first field. -/
theorem Parses.tail {field : RawField} (h : Parses levels (field :: fields) data) :
    Parses levels fields (concat fields) where
  bytes := rfl
  head := (List.forall_mem_cons.1 h.head).2
  value := (List.forall_mem_cons.1 h.value).2

/-- A field and what comes behind it can be told from the bytes. -/
theorem append_inj {field field' : RawField} {rest rest' : Bytes}
    (hhead : Grammar.IsTag field.tag field.head) (hhead' : Grammar.IsTag field'.tag field'.head)
    (hvalue : Grammar.IsValue levels field.tag field.value)
    (hvalue' : Grammar.IsValue levels field'.tag field'.value)
    (h : field.bytes ++ rest = field'.bytes ++ rest') : field = field' ∧ rest = rest' := by
  obtain ⟨tag, head, value⟩ := field
  obtain ⟨tag', head', value'⟩ := field'
  simp only [RawField.bytes, List.append_assoc] at hhead hhead' hvalue hvalue' h
  -- a reader takes the tag off the front, and passing over the value tells its end
  have hread := Reader.tag_append hhead (value ++ rest)
  rw [h, Reader.tag_append hhead'] at hread
  obtain ⟨rfl, hlength⟩ := Prod.mk.inj (Except.ok.inj hread)
  obtain ⟨rfl, hbehind⟩ := List.append_inj h hlength.symm
  have hend := @Decoder.skipBytes_of_isValue { maxGroupDepth := levels } _ _ hvalue rest
  rw [hbehind, Decoder.skipBytes_of_isValue hvalue'] at hend
  obtain ⟨rfl, rfl⟩ := List.append_inj hbehind (Except.ok.inj hend).symm
  exact ⟨rfl, rfl⟩

theorem bytes_ne_nil {field : RawField} (h : Grammar.IsTag field.tag field.head) :
    field.bytes ≠ [] := by
  have hpos := h.1.length_pos
  intro hnil
  have hhead := (List.append_eq_nil_iff.1 hnil).1
  rw [hhead] at hpos
  exact Nat.lt_irrefl _ hpos

/-- Bytes are the fields of one list at most. -/
theorem Parses.unique (h : Parses levels fields data) {fields' : List RawField}
    (h' : Parses levels fields' data) : fields = fields' := by
  induction fields generalizing data fields' with
  | nil =>
    cases fields' with
    | nil => rfl
    | cons field' rest' =>
      have hnil : field'.bytes ++ concat rest' = [] := h'.bytes.trans h.bytes.symm
      exact absurd (List.append_eq_nil_iff.1 hnil).1 (bytes_ne_nil (h'.head _ List.mem_cons_self))
  | cons field rest ih =>
    cases fields' with
    | nil =>
      have hnil : field.bytes ++ concat rest = [] := h.bytes.trans h'.bytes.symm
      exact absurd (List.append_eq_nil_iff.1 hnil).1 (bytes_ne_nil (h.head _ List.mem_cons_self))
    | cons field' rest' =>
      have hsame : field.bytes ++ concat rest = field'.bytes ++ concat rest' :=
        h.bytes.trans h'.bytes.symm
      obtain ⟨rfl, hrest⟩ := append_inj (h.head _ List.mem_cons_self)
        (h'.head _ List.mem_cons_self) (h.value _ List.mem_cons_self)
        (h'.value _ List.mem_cons_self) hsame
      exact congrArg _ (ih h.tail (hrest ▸ h'.tail))

end RawField

namespace Decoder

variable {σ : Type} {decoder : Decoder} {visitor : Visitor σ}
variable {tells : List RawField → σ → σ → Prop}

/-- A value that is passed over is a value of the grammar. -/
theorem skip_eq_ok {tag : Tag} {run after : Run σ}
    (h : onCursor (decoder.skip tag) run = .ok () after) :
    ∃ m, after = ⟨run.state, run.cursor.advance m⟩ ∧
      Grammar.IsValue decoder.maxGroupDepth tag (run.cursor.window.take m) := by
  unfold onCursor skip Cursor.pass at h
  rcases hscan : decoder.skipBytes tag run.cursor.window with ⟨e, m⟩ | m
  · simp only [hscan] at h
    cases h
  · simp only [hscan] at h
    cases h
    exact ⟨m, rfl, (isValue_of_skipBytes hscan).2⟩

/-- A value of the grammar that comes next is passed over. -/
theorem skip_apply {tag : Tag} {bytes rest : Bytes}
    (h : Grammar.IsValue decoder.maxGroupDepth tag bytes) {run : Run σ}
    (hwindow : run.cursor.window = bytes ++ rest) :
    onCursor (decoder.skip tag) run = .ok () ⟨run.state, run.cursor.advance bytes.length⟩ := by
  have hskip := skipBytes_of_isValue h rest
  rw [← hwindow] at hskip
  unfold onCursor skip Cursor.pass
  rw [hskip]

/-- Behind a tag, whatever its bytes are, the visitor and the decoder go through a value of the
grammar, and what they do with the message is as it is said of the field. -/
def GoesThrough (decoder : Decoder) (visitor : Visitor σ) (tells : List RawField → σ → σ → Prop) :
    Prop :=
  ∀ (tag : Tag) (head : Bytes) (run after : Run σ),
    (visitor tag >>= decoder.settle visitor tag) run = .ok () after →
    ∃ m, after.cursor = run.cursor.advance m ∧
      Grammar.IsValue decoder.maxGroupDepth tag (run.cursor.window.take m) ∧
      tells [⟨tag, head, run.cursor.window.take m⟩] run.state after.state

/-- A field that is read well is a field of the grammar in front of what is left. -/
theorem field_parses (hvisitor : decoder.GoesThrough visitor tells) {run after : Run σ}
    (h : decoder.field visitor run = .ok () after) :
    ∃ field : RawField, Grammar.IsTag field.tag field.head ∧
      Grammar.IsValue decoder.maxGroupDepth field.tag field.value ∧
      run.cursor.window = field.bytes ++ after.cursor.window ∧
      tells [field] run.state after.state := by
  rw [field_eq] at h
  obtain ⟨tag, tagged, hread, hrest⟩ := bind_eq_ok h
  obtain ⟨n, hn, rfl⟩ := read_eq_ok hread
  obtain ⟨-, hhead⟩ := Reader.tag_eq_ok_iff.1 hn
  obtain ⟨m, hcursor, hvalue, htells⟩ := hvisitor tag (run.cursor.window.take n) _ _ hrest
  refine ⟨⟨tag, run.cursor.window.take n, (run.cursor.advance n).window.take m⟩, hhead, hvalue, ?_,
    htells⟩
  have hleft : after.cursor.window = (run.cursor.advance n).window.drop m := by
    rw [hcursor, Cursor.window_advance]
  rw [hleft, RawField.bytes, List.append_assoc, List.take_append_drop, Cursor.window_advance,
    List.take_append_drop]

/-- Fields that are read well one after another are fields of the grammar in front of what is left,
and what is said of each is said of all of them. -/
theorem repeatWhile_parses (hvisitor : decoder.GoesThrough visitor tells) (hnil : ∀ s, tells [] s s)
    (hcons : ∀ {field fields s s' s''}, tells [field] s s' → tells fields s' s'' →
      tells (field :: fields) s s'') {more : Cursor → Bool} (rounds : Nat) {run after : Run σ}
    (h : repeatWhile more (decoder.field visitor) rounds run = .ok () after) :
    ∃ fields taken, RawField.Parses decoder.maxGroupDepth fields taken ∧
      run.cursor.window = taken ++ after.cursor.window ∧ tells fields run.state after.state := by
  induction rounds generalizing run with
  | zero =>
    rw [repeatWhile_zero] at h
    split at h
    · cases h
    · cases h
      exact ⟨[], [], .nil, rfl, hnil _⟩
  | succ rounds ih =>
    by_cases hmore : more run.cursor
    · rw [repeatWhile_more hmore] at h
      obtain ⟨_, next, hfield, hrest⟩ := bind_eq_ok h
      obtain ⟨field, hhead, hvalue, hwindow, htells⟩ := field_parses hvisitor hfield
      obtain ⟨fields, taken, hparses, hwindows, htellsRest⟩ := ih hrest
      refine ⟨field :: fields, field.bytes ++ taken, hparses.cons hhead hvalue, ?_,
        hcons htells htellsRest⟩
      rw [hwindow, hwindows, List.append_assoc]
    · rw [Bool.not_eq_true] at hmore
      rw [repeatWhile_done hmore] at h
      cases h
      exact ⟨[], [], .nil, rfl, hnil _⟩

/-- A payload that is read well consists of fields of the grammar. -/
theorem decodeBytes_parses (hkeeps : ∀ tag, Keeps .advancing (visitor tag))
    (hvisitor : decoder.GoesThrough visitor tells) (hnil : ∀ s, tells [] s s)
    (hcons : ∀ {field fields s s' s''}, tells [field] s s' → tells fields s' s'' →
      tells (field :: fields) s s'') {data : Bytes} {state ended : σ}
    (h : decoder.decodeBytes visitor data state = .ok () ended) :
    ∃ fields, RawField.Parses decoder.maxGroupDepth fields data ∧ tells fields state ended := by
  obtain ⟨after, hfields, rfl⟩ := fields_of_decodeBytes_eq_ok h
  have hmove := (keeps_fields decoder hkeeps).advances (Cursor.ofBytes_valid data) hfields
  obtain ⟨fields, taken, hparses, hwindow, htells⟩ :=
    repeatWhile_parses hvisitor hnil hcons _ hfields
  -- the loop ended because no byte was left
  have hend : after.cursor.window = [] := by
    have hmore := more_of_repeatWhile_eq_ok hfields
    rw [decide_eq_false_iff_not, Nat.not_lt, ← hmove.limit] at hmore
    rw [Cursor.window, Cursor.remaining, Nat.sub_eq_zero_of_le hmore, List.take_zero]
  rw [hend, List.append_nil, Cursor.window_ofBytes] at hwindow
  exact ⟨fields, hwindow ▸ hparses, htells⟩

end Decoder

end WireFormat
