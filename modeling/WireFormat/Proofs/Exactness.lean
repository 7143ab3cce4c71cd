import WireFormat.Proofs.Widening

/-!
# Steps take what they need, or nothing

The bytes that a reader takes are enough for it, whatever stands behind them (`Sufficient`), and
fewer of them are too few (`Stable.misses_of_lt`). So a step of a script that takes bytes is all or
nothing: either it leaves the cursor as it was, or the bytes that it has gone past are what it
needs, no more and no less (`Step.run_atomic`).

`Step.Moves` lists what steps do to a cursor and to the limits that were kept, apart from those that
start over.
-/

namespace WireFormat

/-! ## Readers -/

namespace Reader

variable {α β : Type}

/-- What a reader took is enough for it. -/
def Sufficient (reader : Reader α) : Prop :=
  ∀ src a n, reader src = .ok (a, n) → reader (src.take n) = .ok (a, n)

theorem Sufficient.map {reader : Reader α} (h : reader.Sufficient) (f : α → β) :
    (reader.map f).Sufficient := by
  intro src b n hb
  obtain ⟨a, ha, rfl⟩ := map_eq_ok_iff.1 hb
  exact map_ok f (h src a n ha)

theorem sufficient_varint {width groups : Nat} (hwidth : 7 ≤ width) (hgroups : width ≤ 7 * groups)
    (make : BitVec width → α) : (varint groups make).Sufficient := by
  intro src a n h
  obtain ⟨hn, hvarint, hvalue⟩ := (varint_eq_ok_iff hwidth hgroups).1 h
  rw [varint_eq_ok_iff hwidth hgroups, List.take_take, Nat.min_self, List.length_take]
  exact ⟨by omega, hvarint, hvalue⟩

theorem sufficient_tag : tag.Sufficient :=
  (sufficient_varint (by decide) (by decide) UInt32.ofBitVec).map Tag.mk

theorem sufficient_exactly (count : Nat) : (exactly count).Sufficient := by
  intro src bytes n h
  obtain ⟨rfl, hn, rfl⟩ := exactly_eq_ok_iff.1 h
  rw [exactly_eq_ok_iff, List.take_take, Nat.min_self, List.length_take]
  exact ⟨rfl, by omega, rfl⟩

theorem sufficient_skip (count : Nat) : (skip count).Sufficient := (sufficient_exactly count).map _

theorem sufficient_lengthDelimited : lengthDelimited.Sufficient := by
  intro src body n h
  obtain ⟨length, htaken, hvarint, hbody⟩ := take_of_lengthDelimited h
  have hn := orderly_lengthDelimited.le_length h
  have hlength := congrArg List.length htaken
  rw [List.length_take, Nat.min_eq_left hn] at hlength
  -- the bytes taken are a length and its body, which are read back with nothing behind them
  have halone := lengthDelimited_append hvarint hbody []
  rwa [List.append_nil, ← htaken, List.length_take, Nat.min_eq_left hn] at halone

theorem sufficient_text : text.Sufficient := by
  intro src s n h
  obtain ⟨bytes, hbytes, hdecode⟩ := text_eq_ok_iff.1 h
  exact text_eq_ok_iff.2 ⟨bytes, sufficient_lengthDelimited _ _ _ hbytes, hdecode⟩

/-- Fewer bytes than a reader took are too few for it. -/
theorem Stable.misses_of_lt {reader : Reader α} (h : reader.Stable) (horderly : reader.Orderly)
    {src : Bytes} {a : α} {n m : Nat} (hread : reader src = .ok (a, n)) (hm : m < n) :
    reader.Misses (src.take m) := by
  rcases h (src.take m) (src.drop m) with hmisses | hsame
  · exact hmisses
  · rw [List.take_append_drop, hread] at hsame
    have hle := horderly.le_length hsame.symm
    rw [List.length_take] at hle
    omega

end Reader

theorem Kind.sufficient_reader (kind : Kind) : kind.reader.Sufficient :=
  Kind.reader_induction (P := Reader.Sufficient) (fun h f => h.map f)
    (fun make hwidth hgroups => Reader.sufficient_varint hwidth hgroups make)
    (fun count _ _ => Reader.sufficient_exactly count) Reader.sufficient_lengthDelimited
    Reader.sufficient_text kind

/-! ## Cursors -/

namespace Cursor

variable {α : Type} {reader : Reader α} {c after : Cursor}

/-- The bytes from the position of a cursor to that of another one further on. -/
def bytesTo (c after : Cursor) : Bytes :=
  (c.region.drop c.position).take (after.position - c.position)

theorem bytesTo_advance {n : Nat} (hn : n ≤ c.remaining) :
    c.bytesTo (c.advance n) = c.window.take n := by
  rw [bytesTo, position_advance, Nat.add_sub_cancel_left, window, List.take_take,
    Nat.min_eq_left hn]

/-- A read that goes well goes past some of the bytes in front of the limit. -/
theorem read_eq_ok (hreader : reader.Orderly) (hc : c.Valid) {a : α}
    (h : read reader c = .ok a after) :
    ∃ n, reader c.window = .ok (a, n) ∧ n ≤ c.remaining ∧ after = c.advance n := by
  unfold read at h
  cases hr : reader c.window with
  | error e =>
    rw [hr] at h
    cases h
  | ok r =>
    obtain ⟨b, n⟩ := r
    have hn := hreader.le_length hr
    rw [length_window hc] at hn
    rw [hr] at h
    cases h
    exact ⟨n, rfl, hn, rfl⟩

theorem eq_of_read_eq_error {e : DecodeError} (h : read reader c = .error e after) : after = c := by
  unfold read at h
  cases hr : reader c.window with
  | error e' =>
    rw [hr] at h
    cases h
    rfl
  | ok r =>
    rw [hr] at h
    cases h

/-- What a reader takes of some bytes, alone. -/
theorem read_ofBytes {bytes : Bytes} {a : α} (h : reader bytes = .ok (a, bytes.length)) :
    read reader (ofBytes bytes) = .ok a ((ofBytes bytes).advance bytes.length) := by
  unfold read
  rw [window_ofBytes, h]

theorem read_ofBytes_of_misses {bytes : Bytes} (h : reader.Misses bytes) :
    ∃ offset needed limit,
      read reader (ofBytes bytes) = .error (.truncated offset needed limit) (ofBytes bytes) := by
  obtain ⟨offset, needed, limit, hmisses⟩ := h
  unfold read
  rw [window_ofBytes, hmisses]
  exact ⟨_, _, _, rfl⟩

end Cursor

/-! ## Steps -/

namespace Step

/-- A step that takes bytes. -/
def Takes : Step → Prop
  | .read _ | .readTag | .skip _ => True
  | _ => False

/-- A step that does not start over with a new cursor. -/
def GoesOn : Step → Prop
  | .jump _ | .jumpBy _ => False
  | _ => True

variable {step : Step} {saved saved' : List Nat} {c after : Cursor} {answer : Answer}

/-- To take bytes is to read them with a reader. -/
theorem Takes.exists_reader (h : step.Takes) :
    ∃ reader : Reader Answer, reader.Orderly ∧ reader.Stable ∧ reader.Sufficient ∧
      ∀ saved, step.run saved = Cursor.read (reader.map fun answer => (answer, saved)) := by
  have hrun : ∀ {α : Type} (reader : Reader α) (f : α → Answer) (saved : List Nat),
      (do let a ← Cursor.read reader; return (f a, saved) : Reading (Answer × List Nat)) =
        Cursor.read ((reader.map f).map fun answer => (answer, saved)) := by
    intro α reader f saved
    funext c
    rw [Decode.bind_apply]
    unfold Cursor.read Reader.map
    cases reader c.window <;> rfl
  cases step with
  | read kind =>
    exact ⟨kind.reader.map .scalar, kind.orderly_reader.map _, kind.stable_reader.map _,
      kind.sufficient_reader.map _, hrun kind.reader .scalar⟩
  | readTag =>
    exact ⟨Reader.tag.map .tag, Reader.orderly_tag.map _, Reader.stable_tag.map _,
      Reader.sufficient_tag.map _, hrun Reader.tag .tag⟩
  | skip count =>
    exact ⟨(Reader.skip count).map fun _ => .nothing, (Reader.orderly_skip count).map _,
      (Reader.stable_exactly count |>.map _ |>.map _), (Reader.sufficient_skip count).map _,
      hrun (Reader.skip count) fun _ => .nothing⟩
  | _ => exact h.elim

/-- What steps do to a cursor and to the limits that were kept, unless they start over: they go
past some bytes, narrow the limit and keep the one it was, or restore the newest that was kept. -/
inductive Moves (c : Cursor) (saved : List Nat) : Cursor → List Nat → Prop
  | advance {n : Nat} : n ≤ c.remaining → Moves c saved (c.advance n) saved
  | narrow {length : Nat} : c.position + length ≤ c.limit →
      Moves c saved (c.withLimit (c.position + length)) (c.limit :: saved)
  | restore {old : Nat} {older : List Nat} : saved = old :: older →
      Moves c saved (c.withLimit old) older

/-- A step that only asks moves by no byte. -/
theorem Moves.refl (c : Cursor) (saved : List Nat) : Moves c saved c saved :=
  .advance (n := 0) (Nat.zero_le _)

theorem moves_of_run (hstep : step.GoesOn) (hc : c.Valid)
    (h : step.run saved c = .ok (answer, saved') after) : Moves c saved after saved' := by
  have htakes : step.Takes → Moves c saved after saved' := by
    intro htakes
    obtain ⟨reader, horderly, -, -, hrun⟩ := htakes.exists_reader
    rw [hrun] at h
    obtain ⟨n, hread, hn, rfl⟩ := Cursor.read_eq_ok (horderly.map _) hc h
    obtain ⟨answer, -, heq⟩ := Reader.map_eq_ok_iff.1 hread
    cases heq
    exact .advance hn
  cases step with
  | read _ | readTag | skip _ => exact htakes trivial
  | narrow length =>
    simp only [run, Decode.bind_apply, Decode.narrow_eq] at h
    by_cases hfit : c.position + length ≤ c.limit
    · rw [if_pos hfit] at h
      cases h
      exact .narrow hfit
    · rw [if_neg hfit] at h
      cases h
  | restore =>
    cases saved with
    | nil =>
      cases h
      exact .refl c []
    | cons old older =>
      cases h
      exact .restore rfl
  | remaining | isExhausted | regionLength =>
    cases h
    exact .refl c saved
  | jump _ | jumpBy _ => exact hstep.elim

/-- A step that fails leaves the cursor as it was. -/
theorem eq_of_run_eq_error {e : DecodeError} (h : step.run saved c = .error e after) :
    after = c := by
  have htakes : step.Takes → after = c := by
    intro htakes
    obtain ⟨reader, -, -, -, hrun⟩ := htakes.exists_reader
    rw [hrun] at h
    exact Cursor.eq_of_read_eq_error h
  cases step with
  | read _ | readTag | skip _ => exact htakes trivial
  | narrow length =>
    simp only [run, Decode.bind_apply, Decode.narrow_eq] at h
    by_cases hfit : c.position + length ≤ c.limit
    · rw [if_pos hfit] at h
      cases h
    · rw [if_neg hfit] at h
      cases h
      rfl
  | restore => cases saved <;> cases h
  | remaining | isExhausted | regionLength | jump _ | jumpBy _ => cases h

/-- Some bytes are what a step needs for an answer: with nothing behind them they are enough, and
none are left over, and no first part of them is enough. -/
structure Needs (step : Step) (bytes : Bytes) (answer : Answer) : Prop where
  enough : ∀ saved, step.run saved (.ofBytes bytes) =
    .ok (answer, saved) ((Cursor.ofBytes bytes).advance bytes.length)
  fewer : ∀ saved (part : Bytes), part <+: bytes → part ≠ bytes → ∃ offset needed limit,
    step.run saved (.ofBytes part) = .error (.truncated offset needed limit) (.ofBytes part)

/-- Every step that fails, because there are too few bytes or because they are wrong, leaves the
cursor as it was. A step that takes bytes and goes well takes bytes in front of the limit, the ones
that it needs for its answer, and leaves the limit where it was. -/
theorem run_atomic (step : Step) (saved : List Nat) {c : Cursor} (hc : c.Valid) :
    (∀ e after, step.run saved c = .error e after → after = c) ∧
      (step.Takes → ∀ answer saved' after, step.run saved c = .ok (answer, saved') after →
        c.Advances after ∧ saved' = saved ∧ step.Needs (c.bytesTo after) answer) := by
  refine ⟨fun e after h => eq_of_run_eq_error h, fun htakes answer saved' after h => ?_⟩
  obtain ⟨reader, horderly, hstable, hsufficient, hrun⟩ := htakes.exists_reader
  rw [hrun] at h
  obtain ⟨n, hread, hn, rfl⟩ := Cursor.read_eq_ok (horderly.map _) hc h
  obtain ⟨answer, hanswer, heq⟩ := Reader.map_eq_ok_iff.1 hread
  cases heq
  have htaken := Cursor.bytesTo_advance hn
  have hlength : (c.window.take n).length = n := by
    rw [List.length_take, Cursor.length_window hc, Nat.min_eq_left hn]
  refine ⟨Motion.advancing.advance hc hn, rfl, fun saved => ?_, fun saved part hpart hne => ?_⟩
  · rw [htaken, hrun]
    refine Cursor.read_ofBytes (Reader.map_ok _ ?_)
    rw [hlength]
    exact hsufficient _ _ _ hanswer
  · rw [htaken] at hpart hne
    have hless : part.length < n := by
      have hle := hpart.length_le
      have hproper : part.length ≠ n := fun heq =>
        hne (hpart.eq_of_length (heq.trans hlength.symm))
      omega
    have hpart' : part = c.window.take part.length :=
      List.prefix_iff_eq_take.1 (hpart.trans (List.take_prefix _ _))
    rw [hrun]
    refine Cursor.read_ofBytes_of_misses ?_
    rw [hpart']
    exact (hstable.map _).misses_of_lt (horderly.map _) (Reader.map_ok _ hanswer) hless

/-- A length that is spelled with more bytes than it needs is taken with all of them. -/
theorem run_atomic_padded_length :
    let c : Cursor := ⟨[0xff, 0x83, 0x80, 0x00, 0x61, 0x62, 0x63, 0xff], 1, 8⟩
    c.Valid ∧ (Step.read .bytes).Takes ∧
      (Step.read .bytes).run [] c = .ok (.scalar (.bytes [0x61, 0x62, 0x63]), []) (c.advance 6) ∧
      (Step.read .bytes).Needs [0x83, 0x80, 0x00, 0x61, 0x62, 0x63]
        (.scalar (.bytes [0x61, 0x62, 0x63])) := by
  intro c
  have hc : c.Valid := by decide
  have hrun : (Step.read .bytes).run [] c =
      .ok (.scalar (.bytes [0x61, 0x62, 0x63]), []) (c.advance 6) := rfl
  exact ⟨hc, trivial, hrun, ((run_atomic (.read .bytes) [] hc).2 trivial _ _ _ hrun).2.2⟩

end Step

end WireFormat
