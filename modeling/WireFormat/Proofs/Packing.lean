import WireFormat.Proofs.RoundTrip

/-!
# Packed runs and single values of one field

The values of a field may come in packed runs, each behind a tag of its own, or in any mixture of
the two. They are cut into chunks, and a choice is made for each chunk. Whatever the chunks and the
choices, decoding gives the values in their order (`decodeBytes_chunks`).

A chunk adds its values behind those that are there, in either encoding (`rounds_chunk`), and so
chunk by chunk all of them come in.
-/

namespace WireFormat

open Decode

/-! ## Chunks -/

/-- Some values of a field, which are written as a packed run or each behind a tag of its own. -/
structure Chunk where
  /-- Whether they are written as a packed run. -/
  packed : Bool
  /-- The values. -/
  values : List Scalar

/-- What is written of a chunk under a field number. -/
def Chunk.items (number : UInt32) (kind : Kind) (chunk : Chunk) : List Item :=
  if chunk.packed then [.packed number chunk.values]
  else chunk.values.flatMap fun value => [.tag number kind.wireType, .scalar value]

namespace Item

theorem writeAll_append (items items' : List Item) :
    writeAll (items ++ items') = writeAll items ++ writeAll items' := by
  induction items with
  | nil => rfl
  | cons item items ih => rw [List.cons_append, writeAll, ih, writeAll, List.append_assoc]

theorem writeAll_flatMap {α : Type} (items : α → List Item) (as : List α) :
    writeAll (as.flatMap items) = as.flatMap fun a => writeAll (items a) := by
  induction as with
  | nil => rfl
  | cons a as ih => rw [List.flatMap_cons, writeAll_append, ih, List.flatMap_cons]

end Item

theorem Chunk.writeAll_items (number : UInt32) (kind : Kind) (chunk : Chunk) :
    Item.writeAll (chunk.items number kind) =
      if chunk.packed then packedField number chunk.values
      else chunk.values.flatMap (Schema.writeValue number kind) := by
  unfold Chunk.items
  by_cases hpacked : chunk.packed = true
  · rw [if_pos hpacked, if_pos hpacked]
    exact List.append_nil _
  · have hvalue : ∀ value : Scalar, Item.writeAll [.tag number kind.wireType, .scalar value] =
        Schema.writeValue number kind value :=
      fun value => congrArg ((Tag.of number kind.wireType).write ++ ·) (List.append_nil value.write)
    rw [if_neg hpacked, if_neg hpacked, Item.writeAll_flatMap]
    simp only [hvalue]

/-! ## Schemas -/

namespace Schema

variable {schema : Schema} {number : UInt32} {kind : Kind} {decoder : Decoder}
variable {visitor : Visitor Target} {entriesBefore entriesAfter : List (Entry Schema)}

/-- The first entry of a schema that is for a field number is for values of a kind, single ones and
packed runs. -/
structure FirstPacked (schema : Schema) (number : UInt32) (kind : Kind)
    (entriesBefore entriesAfter : List (Entry Schema)) : Prop where
  entries : ∃ own, schema.entries = entriesBefore ++ .scalar own kind true :: entriesAfter ∧
    (own = none ∨ own = some number)
  before : ∀ other ∈ entriesBefore, other.fits number = false

/-- A blank message but for the values of one entry. -/
def blankBut (entriesBefore entriesAfter : List (Entry Schema)) (values : List Scalar) : Message :=
  ⟨entriesBefore.map Entry.blank ++ .scalars values :: entriesAfter.map Entry.blank, []⟩

theorem FirstPacked.blank_eq (h : schema.FirstPacked number kind entriesBefore entriesAfter) :
    schema.blank = blankBut entriesBefore entriesAfter [] := by
  obtain ⟨⟨own, hentries, -⟩, -⟩ := h
  rw [blank, hentries, List.map_append, List.map_cons]
  rfl

theorem FirstPacked.unpacks (h : schema.FirstPacked number kind entriesBefore entriesAfter)
    (hnumber : number.toNat < 2 ^ 29) (hkind : .lengthDelimited ≠ kind.wireType) :
    schema.Unpacks number kind (entriesBefore.map Entry.blank : List (Slot Message)).length := by
  obtain ⟨⟨own, hentries, hown⟩, hbefore⟩ := h
  have hfits : (Entry.scalar own kind true : Entry Schema).fits number = true := by
    rcases hown with rfl | rfl <;> simp [Entry.fits, Entry.number]
  have htake : ∀ {wire : WireType} {action : Action}, wire.bits.toNat < 8 →
      (Entry.scalar own kind true).actionFor? schema (Tag.of number wire) = some action →
      schema.take? (Tag.of number wire) = some (entriesBefore.length, action) := by
    intro wire action hwire haction
    have hfield := Tag.field_of hnumber hwire
    exact take?_eq_some_of hentries (hfield.symm ▸ hbefore) (hfield.symm ▸ hfits) haction
  rw [List.length_map]
  exact ⟨hnumber, hkind, htake kind.bits_wireType_lt (actionFor?_value hnumber own),
    htake (by decide) (actionFor?_packed hnumber hkind own)⟩

theorem FirstPacked.content_blank (h : schema.FirstPacked number kind entriesBefore entriesAfter) :
    Target.content ⟨schema.blank, []⟩ = blankBut entriesBefore entriesAfter [] :=
  (Message.content_blank schema).trans h.blank_eq

/-- A chunk adds its values behind those that are there. -/
theorem rounds_chunk {before after : List (Slot Message)} {size : Nat}
    (hserves : Serves decoder schema size visitor)
    (hunpacks : schema.Unpacks number kind before.length) {chunk : Chunk}
    (hkinds : ∀ value ∈ chunk.values, value.kind = kind)
    (hlength : chunk.packed = true → (chunk.values.flatMap Scalar.write).length < 2 ^ 32)
    (done : List Scalar) :
    Rounds Target.content (decoder.field visitor) (Item.writeAll (chunk.items number kind))
      ⟨before ++ .scalars done :: after, []⟩
      ⟨before ++ .scalars (done ++ chunk.values) :: after, []⟩ := by
  rw [Chunk.writeAll_items]
  by_cases hpacked : chunk.packed = true
  · rw [if_pos hpacked]
    exact rounds_packed hserves hunpacks hkinds (hlength hpacked) done
  · rw [if_neg hpacked]
    refine rounds_values hserves hunpacks.value hkinds (fun value hvalue => ?_) done
    simp [hunpacks.bodies_eq_nil (hkinds value hvalue)]

/-- Chunks that follow each other add their values in their order. -/
theorem rounds_chunks {before after : List (Slot Message)} {size : Nat}
    (hserves : Serves decoder schema size visitor)
    (hunpacks : schema.Unpacks number kind before.length) {chunks : List Chunk}
    (hkinds : ∀ chunk ∈ chunks, ∀ value ∈ chunk.values, value.kind = kind)
    (hlengths : ∀ chunk ∈ chunks, chunk.packed = true →
      (chunk.values.flatMap Scalar.write).length < 2 ^ 32)
    (done : List Scalar) :
    Rounds Target.content (decoder.field visitor)
      (Item.writeAll (chunks.flatMap (Chunk.items number kind)))
      ⟨before ++ .scalars done :: after, []⟩
      ⟨before ++ .scalars (done ++ chunks.flatMap Chunk.values) :: after, []⟩ := by
  induction chunks generalizing done with
  | nil =>
    rw [List.flatMap_nil, List.flatMap_nil, List.append_nil]
    exact .nil
  | cons chunk chunks ih =>
    obtain ⟨hkind, hkinds⟩ := List.forall_mem_cons.1 hkinds
    obtain ⟨hlength, hlengths⟩ := List.forall_mem_cons.1 hlengths
    have hrest := ih hkinds hlengths (done ++ chunk.values)
    rw [List.append_assoc] at hrest
    rw [List.flatMap_cons, List.flatMap_cons, Item.writeAll_append]
    exact (rounds_chunk hserves hunpacks hkind hlength done).append hrest

/-- However the values of a field are cut into chunks, and whichever chunks are packed runs and
which are single values behind tags, they are read in their order, under the default bounds into a
blank message, and nothing else is in that message. -/
theorem decodeBytes_chunks (hfirst : schema.FirstPacked number kind entriesBefore entriesAfter)
    (hnumber : number.toNat < 2 ^ 29) (hstring : kind ≠ .string) (hbytes : kind ≠ .bytes)
    {values : List Scalar} (hkinds : ∀ value ∈ values, value.kind = kind) {chunks : List Chunk}
    (hchunks : chunks.flatMap Chunk.values = values)
    (hlengths : ∀ chunk ∈ chunks, chunk.packed = true →
      (chunk.values.flatMap Scalar.write).length < 2 ^ 32) :
    ∃ target, Decoder.decodeBytes {} (schema.visitor {})
        (Item.writeAll (chunks.flatMap (Chunk.items number kind))) ⟨schema.blank, []⟩ =
          .ok () target ∧
      target.message.slot entriesBefore.length = .scalars values ∧
      target.message.content = blankBut entriesBefore entriesAfter values := by
  subst hchunks
  have hunpacks := hfirst.unpacks hnumber (Kind.wireType_ne_lengthDelimited hstring hbytes)
  have hrounds : Rounds Target.content (Decoder.field {} (schema.visitor {}))
      (Item.writeAll (chunks.flatMap (Chunk.items number kind)))
      (blankBut entriesBefore entriesAfter [])
      (blankBut entriesBefore entriesAfter (chunks.flatMap Chunk.values)) :=
    rounds_chunks (serves_visitor {} schema 0) hunpacks
      (fun chunk hchunk value hvalue =>
        hkinds value (List.mem_flatMap.2 ⟨chunk, hchunk, hvalue⟩)) hlengths []
  obtain ⟨target, hok, hcontent⟩ := Decoder.decodeBytes_eq_ok rfl hrounds hfirst.content_blank
  have hslot := Message.slot_eq_scalars hcontent
  rw [List.length_map] at hslot
  exact ⟨target, hok, hslot, hcontent⟩

/-- Numbers in zig-zag order, for all fields that are not sub-messages. -/
def samplesSchema : Schema := ⟨[.message (some 2) true none, .scalar none .sint32 true], []⟩

/-- Three numbers: one behind a tag, an empty packed run, and two in a packed run. -/
def samples : List Chunk :=
  [⟨false, [.sint32 (-1)]⟩, ⟨true, []⟩, ⟨true, [.sint32 150, .sint32 (-3)]⟩]

theorem decodeBytes_chunks_samples :
    Item.writeAll (samples.flatMap (Chunk.items 7 .sint32)) =
        [0x38, 0x01, 0x3a, 0x00, 0x3a, 0x03, 0xac, 0x02, 0x05] ∧
      ∃ target, Decoder.decodeBytes {} (samplesSchema.visitor {})
          (Item.writeAll (samples.flatMap (Chunk.items 7 .sint32))) ⟨samplesSchema.blank, []⟩ =
            .ok () target ∧
        target.message.slot 1 = .scalars [.sint32 (-1), .sint32 150, .sint32 (-3)] := by
  have hfirst : samplesSchema.FirstPacked 7 .sint32 [.message (some 2) true none] [] :=
    ⟨⟨none, rfl, .inl rfl⟩, by simp [Entry.fits, Entry.number]⟩
  have hkinds : ∀ value ∈ samples.flatMap Chunk.values, value.kind = .sint32 := by decide
  obtain ⟨target, hok, hslot, -⟩ := decodeBytes_chunks hfirst (by decide) (by decide) (by decide)
    hkinds rfl (by decide)
  exact ⟨by decide, target, hok, hslot⟩

end Schema

end WireFormat
