import WireFormat.Cursor
import WireFormat.Decoder

/-!
# Skipping values

A value whose tag is unknown is passed over by its wire type alone. Varints, fixed widths and
length-delimited values are single reads. A group is passed over as a unit: everything up to the
end tag of its own number, groups inside included. `skipOpened` does so for a stack of opened
groups, innermost first, so that one recursion along the bytes covers any nesting, and the height
of the stack is the depth that `maxGroupDepth` bounds.

A scan along bytes may stop after it has passed some of them, and where it stopped is part of its
answer (`Passage`).
-/

namespace WireFormat

/-- How a scan along some bytes ended: how many bytes it passed, and the error if it stopped. -/
abbrev Passage := Except (DecodeError × Nat) Nat

/-- A passage that starts some bytes further on, seen from the first of them. -/
def Passage.after (distance : Nat) : Passage → Passage
  | .ok n => .ok (distance + n)
  | .error (e, n) => .error (e.shift distance, distance + n)

theorem Passage.after_after (first second : Nat) (passage : Passage) :
    (passage.after second).after first = passage.after (first + second) := by
  rcases passage with ⟨e, n⟩ | n
  · simp only [after, DecodeError.shift_shift, Nat.add_assoc, Nat.add_comm second first]
  · simp only [after, Nat.add_assoc]

/-- Runs a scan over the window of the cursor, which ends where the scan stopped. -/
def Cursor.pass (scan : Bytes → Passage) : Reading Unit := fun c =>
  match scan c.window with
  | .ok n => .ok () (c.advance n)
  | .error (e, n) => .error (e.shift c.position) (c.advance n)

namespace Decoder

/-- Passes over the value behind a tag, inside the opened groups; if it is a group, it is opened.
End tags are not values. -/
def skipStep (decoder : Decoder) (tag : Tag) (opened : List UInt32) : Reader (List UInt32) :=
  match tag.wireType with
  | .varint => Reader.uint64.map fun _ => opened
  | .fixed32 => (Reader.skip 4).map fun _ => opened
  | .fixed64 => (Reader.skip 8).map fun _ => opened
  | .lengthDelimited => Reader.lengthDelimited.map fun _ => opened
  | .groupStart => fun _ =>
    if opened.length < decoder.maxGroupDepth then .ok (tag.field :: opened, 0)
    else .error (.recursionLimitExceeded decoder.maxGroupDepth)
  | .groupEnd | .invalid _ => fun _ => .error (.unknownWireType tag.wireBits 0)

/-- Passes over what is left of the opened groups, innermost first. -/
def skipOpened (decoder : Decoder) (opened : List UInt32) (src : Bytes) : Passage :=
  match opened with
  | [] => .ok 0
  | field :: outer =>
    match _htag : Reader.tag src with
    | .error e => .error (e, 0)
    | .ok (tag, k) =>
      if tag.wireType = .groupEnd then
        if tag.field = field then
          (skipOpened decoder outer (src.drop k)).after k
        else .error (.unbalancedGroup field tag.field 0, k)
      else
        match decoder.skipStep tag (field :: outer) (src.drop k) with
        | .error e => .error (e.shift k, k)
        | .ok (opened, n) =>
          (skipOpened decoder opened (src.drop (k + n))).after (k + n)
termination_by src.length
decreasing_by
  all_goals
    have hk := Reader.tag_bounds _htag
    simp only [List.length_drop]
    omega

/-- Passes over the value behind a tag. -/
def skipBytes (decoder : Decoder) (tag : Tag) (src : Bytes) : Passage :=
  match decoder.skipStep tag [] src with
  | .error e => .error (e, 0)
  | .ok (opened, n) => (decoder.skipOpened opened (src.drop n)).after n

/-- Moves a cursor past the value behind a tag. -/
def skip (decoder : Decoder) (tag : Tag) : Reading Unit :=
  Cursor.pass (decoder.skipBytes tag)

end Decoder

end WireFormat
