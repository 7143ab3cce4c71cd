import Mathlib.Data.List.Forall2
import WireFormat.Proofs.Placement
import WireFormat.Proofs.Scalar
import WireFormat.Script
import WireFormat.Writer

/-!
# What is written one after another is read back

Each item that a step reads back is taken off the front of any bytes by that step, which moves the
cursor past the bytes of the item and no further (`Item.Legible.run_step`). So the steps for a list
of items read back all of them, whatever was written before and whatever stands behind
(`Writer.run_steps_of_items`).
-/

namespace WireFormat

/-! ## Items and the steps that read them -/

namespace Item

/-- An item that a step reads back: a tag that fits its word, or a value with less than 4 GiB behind
its length. -/
def Legible : Item → Prop
  | .tag field wire => field.toNat < 2 ^ 29 ∧ wire.bits.toNat < 8
  | .scalar value => ∀ body ∈ value.bodies, body.length < 2 ^ 32
  | _ => False

instance (item : Item) : Decidable item.Legible :=
  match item with
  | .tag field wire => inferInstanceAs (Decidable (field.toNat < 2 ^ 29 ∧ wire.bits.toNat < 8))
  | .scalar value => inferInstanceAs (Decidable (∀ body ∈ value.bodies, body.length < 2 ^ 32))
  | .raw _ | .groupStart _ | .groupEnd _ | .nested _ | .packed _ _ =>
    inferInstanceAs (Decidable False)

/-- The step that reads an item back, if a single one does. -/
def step? : Item → Option Step
  | .tag _ _ => some .readTag
  | .scalar value => some (.read value.kind)
  | _ => none

/-- What a step answers is the item: a tag with its field number and its wire type bits, or the
value. -/
def ReadAs : Item → Answer → Prop
  | .tag field wire, .tag read => read.field = field ∧ read.wireBits = wire.bits
  | .scalar value, .scalar read => read = value
  | _, _ => False

end Item

/-- Takes steps one after another, up to the first that fails. -/
def Step.runAll : List Step → List Nat → Reading (List Answer × List Nat)
  | [], saved => return ([], saved)
  | step :: steps, saved => do
    let (answer, saved) ← step.run saved
    let (answers, saved) ← runAll steps saved
    return (answer :: answers, saved)

/-! ## One item -/

theorem Cursor.read_bind {α β : Type} {reader : Reader α} {next : α → Reading β} {c : Cursor}
    {a : α} {n : Nat} (h : reader c.window = .ok (a, n)) :
    (Cursor.read reader >>= next) c = next a (c.advance n) := by
  rw [Decode.bind_apply]
  unfold Cursor.read
  rw [h]

/-- The step for an item takes the bytes of the item off the front of any others. -/
theorem Item.Legible.run_step {item : Item} (h : item.Legible) :
    ∃ step answer, item.step? = some step ∧ item.ReadAs answer ∧
      ∀ (saved : List Nat) (c : Cursor) (rest : Bytes), c.window = item.write ++ rest →
        step.run saved c = .ok (answer, saved) (c.advance item.write.length) := by
  cases item with
  | tag field wire =>
    refine ⟨.readTag, .tag (Tag.of field wire), rfl,
      ⟨Tag.field_of h.1 h.2, Tag.wireBits_of h.1 h.2⟩, fun saved c rest hwindow => ?_⟩
    have hread : Reader.tag c.window =
        .ok (Tag.of field wire, (Tag.of field wire).write.length) := by
      rw [hwindow]
      exact Tag.tag_write_append _ rest
    exact Cursor.read_bind hread
  | scalar value =>
    refine ⟨.read value.kind, .scalar value, rfl, rfl, fun saved c rest hwindow => ?_⟩
    have hread : value.kind.reader c.window = .ok (value, value.write.length) := by
      rw [hwindow]
      exact Scalar.reader_write_append value h rest
    exact Cursor.read_bind hread
  | raw _ | groupStart _ | groupEnd _ | nested _ | packed _ _ => exact h.elim

/-! ## One item after another -/

/-- The steps for some items take the bytes of all of them off the front of any others. -/
theorem Step.runAll_of_items {items : List Item} (hlegible : ∀ item ∈ items, item.Legible) :
    ∃ answers, List.Forall₂ Item.ReadAs items answers ∧
      ∀ (saved : List Nat) (c : Cursor) (rest : Bytes), c.window = Item.writeAll items ++ rest →
        runAll (items.filterMap Item.step?) saved c =
          .ok (answers, saved) (c.advance (Item.writeAll items).length) := by
  induction items with
  | nil => exact ⟨[], .nil, fun _ _ _ _ => rfl⟩
  | cons item items ih =>
    obtain ⟨hitem, hitems⟩ := List.forall_mem_cons.1 hlegible
    obtain ⟨step, answer, hfor, hanswer, hstep⟩ := hitem.run_step
    obtain ⟨answers, hanswers, hsteps⟩ := ih hitems
    refine ⟨answer :: answers, .cons hanswer hanswers, fun saved c rest hwindow => ?_⟩
    rw [Item.writeAll, List.append_assoc] at hwindow
    have hbehind : (c.advance item.write.length).window = Item.writeAll items ++ rest := by
      rw [Cursor.window_advance, hwindow, List.drop_left]
    have hfirst := hstep saved c _ hwindow
    have hothers := hsteps saved _ rest hbehind
    rw [List.filterMap_cons_some hfor, runAll, Decode.bind_apply, hfirst]
    simp only [Decode.bind_apply, hothers]
    rw [Item.writeAll, List.length_append]
    simp only [Cursor.advance, Nat.add_assoc]
    rfl

namespace Writer

theorem bytes_foldl_write (items : List Item) (writer : Writer) :
    (items.foldl write writer).bytes = writer.bytes ++ Item.writeAll items := by
  induction items generalizing writer with
  | nil => exact (List.append_nil _).symm
  | cons item items ih => rw [List.foldl_cons, ih, write, Item.writeAll, List.append_assoc]

/-- Whatever was written before some tags and values and whatever stands behind them, the steps for
them, in the same order, read them all back from where the first one starts, and leave the cursor
where the last one ends. -/
theorem run_steps_of_items {items : List Item} (hlegible : ∀ item ∈ items, item.Legible)
    (before : Writer) (rest : Bytes) (saved : List Nat) {c : Cursor}
    (hregion : c.region = (items.foldl write before).bytes ++ rest)
    (hposition : c.position = before.length)
    (hlimit : (items.foldl write before).length ≤ c.limit) :
    ∃ answers after,
      Step.runAll (items.filterMap Item.step?) saved c = .ok (answers, saved) after ∧
        List.Forall₂ Item.ReadAs items answers ∧
        after = { c with position := (items.foldl write before).length } ∧
        after.region.drop after.position = rest := by
  obtain ⟨answers, hanswers, hrun⟩ := Step.runAll_of_items hlegible
  have hbytes := bytes_foldl_write items before
  have hlength : (items.foldl write before).length =
      before.length + (Item.writeAll items).length := by
    rw [length, hbytes, List.length_append, length]
  have hwindow : c.window = Item.writeAll items ++
      rest.take (c.limit - (items.foldl write before).length) := by
    have hdrop : c.region.drop c.position = Item.writeAll items ++ rest := by
      rw [hregion, hbytes, hposition, List.append_assoc, length, List.drop_left]
    have hremaining : c.remaining =
        (Item.writeAll items).length + (c.limit - (items.foldl write before).length) := by
      rw [Cursor.remaining]
      omega
    rw [Cursor.window, hdrop, hremaining, List.take_length_add_append]
  have hafter : c.advance (Item.writeAll items).length =
      { c with position := (items.foldl write before).length } := by
    rw [Cursor.advance, hposition, hlength]
  refine ⟨answers, _, hrun saved c _ hwindow, hanswers, hafter, ?_⟩
  rw [hafter]
  show c.region.drop (items.foldl write before).bytes.length = rest
  rw [hregion, List.drop_left]

/-- A negative number of ten bytes, a tag whose bits name no wire type, a zig-zag number, a text and
a truth value. -/
def mixedItems : List Item :=
  [.scalar (.int32 (-1)), .tag 536870911 (.invalid 7), .scalar (.sint32 (-2)),
    .scalar (.string "é"), .scalar (.bool true)]

/-- Their bytes, with a byte in front of them and one behind them that make up no item. -/
def mixedRegion : Bytes :=
  [0xff, 0xff, 0xff, 0xff, 0xff, 0xff, 0xff, 0xff, 0xff, 0xff, 0x01, 0xff, 0xff, 0xff, 0xff, 0x0f,
    0x03, 0x02, 0xc3, 0xa9, 0x01, 0x80]

theorem run_steps_of_items_mixed :
    (∀ item ∈ mixedItems, item.Legible) ∧ ∃ answers after,
      Step.runAll [.read .int32, .readTag, .read .sint32, .read .string, .read .bool] []
          (.atPosition mixedRegion 1) = .ok (answers, []) after ∧
        List.Forall₂ Item.ReadAs mixedItems answers ∧ after.position = 21 := by
  have hlegible : ∀ item ∈ mixedItems, item.Legible := by decide
  obtain ⟨answers, after, hrun, hanswers, hafter, -⟩ :=
    run_steps_of_items hlegible ⟨[0xff]⟩ [0x80] [] (c := .atPosition mixedRegion 1) rfl rfl
      (by decide)
  refine ⟨hlegible, answers, after, hrun, hanswers, ?_⟩
  rw [hafter]
  rfl

end Writer

end WireFormat
