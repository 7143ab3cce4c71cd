import WireFormat.Tag
import WireFormat.Varint.Groups

/-!
# The grammar of fields

What tags, values and runs of fields look like, said of whole byte strings and without reading
them. A value is allowed so many levels of groups: a group takes one level, and its fields have the
rest. End tags are not values, so they occur nowhere but at the end of their group.
-/

namespace WireFormat.Grammar

/-- Some bytes are the varint of a tag, of which the low 32 bits count. -/
def IsTag (tag : Tag) (bytes : Bytes) : Prop :=
  Varint.IsVarint bytes ∧ tag.raw.toNat = Varint.value bytes % 2 ^ 32

mutual

/-- Some bytes are the value behind a tag, with at most so many levels of groups. -/
inductive IsValue : Nat → Tag → Bytes → Prop
  | varint {levels : Nat} {tag : Tag} {bytes : Bytes} :
      tag.wireType = .varint → Varint.IsVarint bytes → IsValue levels tag bytes
  | fixed32 {levels : Nat} {tag : Tag} {bytes : Bytes} :
      tag.wireType = .fixed32 → bytes.length = 4 → IsValue levels tag bytes
  | fixed64 {levels : Nat} {tag : Tag} {bytes : Bytes} :
      tag.wireType = .fixed64 → bytes.length = 8 → IsValue levels tag bytes
  | lengthDelimited {levels : Nat} {tag : Tag} {length body : Bytes} :
      tag.wireType = .lengthDelimited → Varint.IsVarint length →
      body.length = Varint.value length % 2 ^ 32 → IsValue levels tag (length ++ body)
  | group {levels : Nat} {tag stop : Tag} {fields last : Bytes} :
      tag.wireType = .groupStart → IsFields levels fields → IsTag stop last →
      stop.wireType = .groupEnd → stop.field = tag.field →
      IsValue (levels + 1) tag (fields ++ last)

/-- Some bytes are fields, one after another, each a tag and a value with at most so many levels of
groups. -/
inductive IsFields : Nat → Bytes → Prop
  | nil {levels : Nat} : IsFields levels []
  | cons {levels : Nat} {tag : Tag} {head value rest : Bytes} :
      IsTag tag head → IsValue levels tag value → IsFields levels rest →
      IsFields levels (head ++ value ++ rest)

end

end WireFormat.Grammar
