import WireFormat.Proofs.Reader
import WireFormat.Skip

/-!
# Skipping and the grammar

Skipping a value goes through exactly the bytes that the grammar calls one. The scan keeps a stack
of opened groups where the grammar has levels, so both directions speak of the scan in the middle
of some groups. `IsRest` says what such a scan has before it. A scan that succeeds went through that
(`isRest_of_skipOpened`, by induction on the scan); a value in front of the scan is passed over, or
goes beyond the depth that is allowed (`skipInside_value`, by induction on the derivation).
-/

namespace WireFormat

/-! ## Slices and passages -/

/-- The front of a window is a slice of the region. -/
theorem Cursor.take_window {c : Cursor} {q : Nat} (hp : c.position ≤ q) (hq : q ≤ c.limit) :
    c.window.take (q - c.position) = (c.region.take q).drop c.position := by
  rw [window, List.take_take, List.drop_take, Nat.min_eq_left]
  simp only [remaining]
  omega

theorem Passage.after_eq_ok_iff {distance n : Nat} {passage : Passage} :
    passage.after distance = .ok n ↔ ∃ m, passage = .ok m ∧ n = distance + m := by
  rcases passage with ⟨e, m⟩ | m
  · simp [after]
  · simp only [after, Except.ok.injEq, exists_eq_left']
    exact eq_comm

/-- How many bytes a scan passed, wherever it stopped. -/
def Passage.passed : Passage → Nat
  | .ok n => n
  | .error (_, n) => n

/-- A scan of so many bytes passed no more, and what it missed it missed at their end. -/
structure Passage.Orderly (length : Nat) (passage : Passage) : Prop where
  passed_le : passage.passed ≤ length
  truncated : ∀ {offset needed limit n},
    passage = .error (.truncated offset needed limit, n) → limit = length

theorem Passage.Orderly.after {length distance : Nat} {passage : Passage}
    (hd : distance ≤ length) (h : passage.Orderly (length - distance)) :
    (passage.after distance).Orderly length := by
  obtain ⟨hpassed, htruncated⟩ := h
  rcases passage with ⟨e, n⟩ | n
  · simp only [passed] at hpassed
    refine ⟨by simp only [Passage.after, passed]; omega, ?_⟩
    intro offset needed limit m h
    -- shifting an error makes no truncation of another
    cases e <;> simp only [Passage.after, DecodeError.shift] at h <;> cases h
    have hlimit := htruncated rfl
    omega
  · simp only [passed] at hpassed
    exact ⟨by simp only [Passage.after, passed]; omega, by intro _ _ _ _ h; cases h⟩

theorem Passage.after_zero (passage : Passage) : passage.after 0 = passage := by
  rcases passage with ⟨e, m⟩ | m <;> simp [after]

/-- A limit on nesting has no place in the bytes, so it stays what it is from further back. -/
theorem Passage.after_recursionLimit {passage : Passage} {bound n : Nat} (distance : Nat)
    (h : passage = .error (.recursionLimitExceeded bound, n)) :
    ∃ m, passage.after distance = .error (.recursionLimitExceeded bound, m) := by
  subst h
  exact ⟨_, rfl⟩

namespace Grammar

/-- What is left of some opened groups, innermost first, when groups may nest `bound` deep: for each
of them further fields and its end tag. -/
inductive IsRest (bound : Nat) : List UInt32 → Bytes → Prop
  | nil : IsRest bound [] []
  | cons {field : UInt32} {outer : List UInt32} {fields last rest : Bytes} {stop : Tag} :
      IsFields (bound - (outer.length + 1)) fields → IsTag stop last →
      stop.wireType = .groupEnd → stop.field = field → IsRest bound outer rest →
      IsRest bound (field :: outer) (fields ++ last ++ rest)

/-- A further field of the innermost group. -/
theorem IsRest.field {bound : Nat} {field : UInt32} {outer : List UInt32} {tag : Tag}
    {head value rest : Bytes} (hhead : IsTag tag head)
    (hvalue : IsValue (bound - (outer.length + 1)) tag value)
    (h : IsRest bound (field :: outer) rest) :
    IsRest bound (field :: outer) (head ++ value ++ rest) := by
  cases h with
  | @cons _ _ fields last more stop hfields hlast hend hfield hmore =>
    have hcons := IsRest.cons (.cons hhead hvalue hfields) hlast hend hfield hmore
    simpa only [List.append_assoc] using hcons

/-- Levels count for groups only. -/
theorem IsValue.of_flat {levels : Nat} {tag : Tag} {bytes : Bytes}
    (hflat : tag.wireType ≠ .groupStart) (h : IsValue levels tag bytes) (levels' : Nat) :
    IsValue levels' tag bytes := by
  cases h with
  | varint hwire hvarint => exact .varint hwire hvarint
  | fixed32 hwire hlen => exact .fixed32 hwire hlen
  | fixed64 hwire hlen => exact .fixed64 hwire hlen
  | lengthDelimited hwire hvarint hbody => exact .lengthDelimited hwire hvarint hbody
  | group hwire => exact absurd hwire hflat

/-- End tags are no values. -/
theorem IsValue.ne_groupEnd {levels : Nat} {tag : Tag} {bytes : Bytes}
    (h : IsValue levels tag bytes) : tag.wireType ≠ .groupEnd := by
  cases h <;> simp_all

end Grammar

open Grammar

namespace Decoder

variable (decoder : Decoder)

/-- Passes over the value behind a tag inside some opened groups, and then over what is left of
those. -/
def skipInside (tag : Tag) (opened : List UInt32) (src : Bytes) : Passage :=
  match decoder.skipStep tag opened src with
  | .error e => .error (e, 0)
  | .ok (opened, n) => (decoder.skipOpened opened (src.drop n)).after n

theorem skipBytes_eq_skipInside (tag : Tag) (src : Bytes) :
    decoder.skipBytes tag src = decoder.skipInside tag [] src := rfl

theorem skipOpened_nil (src : Bytes) : decoder.skipOpened [] src = .ok 0 := by
  rw [skipOpened]

variable {decoder}

/-! ## One step -/

/-- A step passes over a value that is no group, or opens one. -/
theorem skipStep_sound {tag : Tag} {opened opened' : List UInt32} {src : Bytes} {n : Nat}
    (h : decoder.skipStep tag opened src = .ok (opened', n)) :
    (opened' = opened ∧ n ≤ src.length ∧ ∀ levels, IsValue levels tag (src.take n)) ∨
      (opened' = tag.field :: opened ∧ n = 0 ∧ tag.wireType = .groupStart ∧
        opened.length < decoder.maxGroupDepth) := by
  unfold skipStep at h
  cases hwire : tag.wireType with
  | varint =>
    simp only [hwire] at h
    obtain ⟨v, hv, rfl⟩ := Reader.map_eq_ok_iff.1 h
    obtain ⟨hn, hvarint, -⟩ := Reader.uint64_eq_ok_iff.1 hv
    exact .inl ⟨rfl, hn, fun _ => .varint hwire hvarint⟩
  | fixed32 =>
    simp only [hwire] at h
    obtain ⟨_, hv, rfl⟩ := Reader.map_eq_ok_iff.1 h
    obtain ⟨rfl, hn⟩ := Reader.skip_eq_ok_iff.1 hv
    exact .inl ⟨rfl, hn, fun _ => .fixed32 hwire (List.length_take_of_le hn)⟩
  | fixed64 =>
    simp only [hwire] at h
    obtain ⟨_, hv, rfl⟩ := Reader.map_eq_ok_iff.1 h
    obtain ⟨rfl, hn⟩ := Reader.skip_eq_ok_iff.1 hv
    exact .inl ⟨rfl, hn, fun _ => .fixed64 hwire (List.length_take_of_le hn)⟩
  | lengthDelimited =>
    simp only [hwire] at h
    obtain ⟨body, hv, rfl⟩ := Reader.map_eq_ok_iff.1 h
    obtain ⟨length, htake, hvarint, hbody⟩ := Reader.take_of_lengthDelimited hv
    refine .inl ⟨rfl, Reader.orderly_lengthDelimited.le_length hv, fun _ => ?_⟩
    rw [htake]
    exact .lengthDelimited hwire hvarint hbody
  | groupStart =>
    simp only [hwire] at h
    by_cases hdepth : opened.length < decoder.maxGroupDepth
    · rw [if_pos hdepth] at h
      cases h
      exact .inr ⟨rfl, rfl, rfl, hdepth⟩
    · rw [if_neg hdepth] at h
      cases h
  | groupEnd =>
    simp only [hwire] at h
    cases h
  | invalid bits =>
    simp only [hwire] at h
    cases h

/-- Values that are no groups are passed over in one step. -/
theorem skipStep_flat {levels : Nat} {tag : Tag} {bytes : Bytes} (hvalue : IsValue levels tag bytes)
    (hflat : tag.wireType ≠ .groupStart) (opened : List UInt32) (rest : Bytes) :
    decoder.skipStep tag opened (bytes ++ rest) = .ok (opened, bytes.length) := by
  unfold skipStep
  cases hvalue with
  | varint hwire hvarint =>
    simp only [hwire]
    exact Reader.map_eq_ok_iff.2 ⟨_, Reader.uint64_append hvarint rest, rfl⟩
  | fixed32 hwire hlen =>
    simp only [hwire]
    exact Reader.map_eq_ok_iff.2 ⟨(), Reader.skip_eq_ok_iff.2 ⟨hlen, by simp⟩, rfl⟩
  | fixed64 hwire hlen =>
    simp only [hwire]
    exact Reader.map_eq_ok_iff.2 ⟨(), Reader.skip_eq_ok_iff.2 ⟨hlen, by simp⟩, rfl⟩
  | lengthDelimited hwire hvarint hbody =>
    simp only [hwire]
    exact Reader.map_eq_ok_iff.2 ⟨_, Reader.lengthDelimited_append hvarint hbody rest, rfl⟩
  | group hwire => exact absurd hwire hflat

theorem skipStep_group {tag : Tag} (hwire : tag.wireType = .groupStart) (opened : List UInt32)
    (src : Bytes) :
    decoder.skipStep tag opened src =
      if opened.length < decoder.maxGroupDepth then .ok (tag.field :: opened, 0)
      else .error (.recursionLimitExceeded decoder.maxGroupDepth) := by
  unfold skipStep
  simp only [hwire]

/-! ## The scan in the middle of groups -/

theorem skipOpened_cons (field : UInt32) (outer : List UInt32) (src : Bytes) :
    decoder.skipOpened (field :: outer) src =
      match Reader.tag src with
      | .error e => .error (e, 0)
      | .ok (tag, k) =>
        if tag.wireType = .groupEnd then
          if tag.field = field then (decoder.skipOpened outer (src.drop k)).after k
          else .error (.unbalancedGroup field tag.field 0, k)
        else (decoder.skipInside tag (field :: outer) (src.drop k)).after k := by
  rw [skipOpened]
  split
  · rename_i e he
    rw [he]
  · rename_i tag k htag
    rw [htag]
    by_cases hend : tag.wireType = .groupEnd
    · simp only [if_pos hend]
    · simp only [if_neg hend, skipInside]
      cases decoder.skipStep tag (field :: outer) (src.drop k) with
      | error e => rfl
      | ok r =>
        obtain ⟨opened, n⟩ := r
        simp only [Passage.after_after, List.drop_drop]

/-! ## What a scan went through -/

/-- A scan of a value and what is left of the opened groups went through just these, if every scan
that it goes on with does. -/
theorem skipInside_sound {tag : Tag} {opened : List UInt32} {src : Bytes} {n : Nat}
    (hdepth : opened.length ≤ decoder.maxGroupDepth)
    (hrest : ∀ opened' k m, k ≤ src.length → opened'.length ≤ decoder.maxGroupDepth →
      decoder.skipOpened opened' (src.drop k) = .ok m →
      m ≤ (src.drop k).length ∧ IsRest decoder.maxGroupDepth opened' ((src.drop k).take m))
    (h : decoder.skipInside tag opened src = .ok n) :
    n ≤ src.length ∧ ∃ value rest, src.take n = value ++ rest ∧
      IsValue (decoder.maxGroupDepth - opened.length) tag value ∧
      IsRest decoder.maxGroupDepth opened rest := by
  unfold skipInside at h
  cases hstep : decoder.skipStep tag opened src with
  | error e =>
    rw [hstep] at h
    cases h
  | ok r =>
    obtain ⟨opened', k⟩ := r
    rw [hstep] at h
    obtain ⟨m, hm, rfl⟩ := Passage.after_eq_ok_iff.1 h
    rcases skipStep_sound hstep with ⟨rfl, hk, hvalue⟩ | ⟨rfl, rfl, hwire, hless⟩
    · obtain ⟨hlen, hafter⟩ := hrest _ k m hk hdepth hm
      rw [List.length_drop] at hlen
      exact ⟨by omega, _, _, List.take_add, hvalue _, hafter⟩
    · obtain ⟨hlen, hafter⟩ := hrest (tag.field :: opened) 0 m (Nat.zero_le _) hless hm
      rw [List.drop_zero] at hlen hafter
      rw [Nat.zero_add]
      refine ⟨hlen, ?_⟩
      generalize src.take m = bytes at hafter
      cases hafter with
      | @cons _ _ fields last rest stop hfields hlast hend hfield hmore =>
        -- the group that was opened is one value of the group around it
        have hlevels : decoder.maxGroupDepth - opened.length =
            decoder.maxGroupDepth - (opened.length + 1) + 1 := by omega
        refine ⟨fields ++ last, rest, rfl, ?_, hmore⟩
        rw [hlevels]
        exact .group hwire hfields hlast hend hfield

theorem isRest_of_skipOpened {opened : List UInt32} {src : Bytes} {n : Nat}
    (hdepth : opened.length ≤ decoder.maxGroupDepth)
    (h : decoder.skipOpened opened src = .ok n) :
    n ≤ src.length ∧ IsRest decoder.maxGroupDepth opened (src.take n) := by
  -- each step goes past a tag, so the induction is on the bytes that are left
  induction hsize : src.length using Nat.strongRecOn generalizing opened src n with
  | ind size ih =>
    subst hsize
    cases opened with
    | nil =>
      rw [skipOpened_nil] at h
      cases h
      exact ⟨Nat.zero_le _, .nil⟩
    | cons field outer =>
      rw [skipOpened_cons] at h
      cases htag : Reader.tag src with
      | error e =>
        rw [htag] at h
        cases h
      | ok r =>
        obtain ⟨tag, k⟩ := r
        obtain ⟨hpos, hk⟩ := Reader.tag_bounds htag
        obtain ⟨-, hhead⟩ := Reader.tag_eq_ok_iff.1 htag
        have hless : (src.drop k).length < src.length := by
          rw [List.length_drop]
          omega
        simp only [htag] at h
        by_cases hend : tag.wireType = .groupEnd
        · rw [if_pos hend] at h
          by_cases hfield : tag.field = field
          · rw [if_pos hfield] at h
            obtain ⟨m, hm, rfl⟩ := Passage.after_eq_ok_iff.1 h
            have houter : outer.length ≤ decoder.maxGroupDepth := Nat.le_of_succ_le hdepth
            obtain ⟨hlen, hrest⟩ := ih _ hless houter hm rfl
            rw [List.length_drop] at hlen
            refine ⟨by omega, ?_⟩
            rw [List.take_add]
            exact .cons .nil hhead hend hfield hrest
          · rw [if_neg hfield] at h
            cases h
        · rw [if_neg hend] at h
          obtain ⟨m, hm, rfl⟩ := Passage.after_eq_ok_iff.1 h
          obtain ⟨hlen, value, rest, heq, hvalue, hrest⟩ := skipInside_sound hdepth
            (fun opened' j i _ hle hi => by
              have hdrop : ((src.drop k).drop j).length < src.length := by
                rw [List.length_drop]
                omega
              exact ih _ hdrop hle hi rfl) hm
          rw [List.length_drop] at hlen
          refine ⟨by omega, ?_⟩
          rw [List.take_add, heq, ← List.append_assoc]
          exact hrest.field hhead hvalue

/-- What was skipped behind a tag is a value by the grammar. -/
theorem isValue_of_skipBytes {tag : Tag} {src : Bytes} {n : Nat}
    (h : decoder.skipBytes tag src = .ok n) :
    n ≤ src.length ∧ IsValue decoder.maxGroupDepth tag (src.take n) := by
  rw [skipBytes_eq_skipInside] at h
  obtain ⟨hlen, value, rest, heq, hvalue, hrest⟩ :=
    @skipInside_sound decoder tag [] src n (Nat.zero_le _)
      (fun opened' k m _ hle hm => isRest_of_skipOpened hle hm) h
  -- no group was open in front of the value, so nothing is left behind it
  cases hrest
  rw [heq, List.append_nil]
  exact ⟨hlen, hvalue⟩

/-! ## Scans stay within the bytes -/

theorem orderly_skipStep (tag : Tag) (opened : List UInt32) :
    (decoder.skipStep tag opened).Orderly := by
  unfold skipStep
  cases tag.wireType with
  | varint => exact Reader.orderly_uint64.map _
  | fixed32 => exact (Reader.orderly_skip 4).map _
  | fixed64 => exact (Reader.orderly_skip 8).map _
  | lengthDelimited => exact Reader.orderly_lengthDelimited.map _
  | groupStart =>
    constructor
    · intro src opened' n h
      simp only at h
      split at h <;> cases h
      exact Nat.zero_le _
    · intro src offset needed limit h
      simp only at h
      split at h <;> cases h
  | groupEnd | invalid bits =>
    constructor
    · intro src opened' n h
      cases h
    · intro src offset needed limit h
      cases h

theorem orderly_skipInside {tag : Tag} {opened : List UInt32} {src : Bytes}
    (hrest : ∀ opened' k, k ≤ src.length →
      (decoder.skipOpened opened' (src.drop k)).Orderly (src.length - k)) :
    (decoder.skipInside tag opened src).Orderly src.length := by
  unfold skipInside
  cases hstep : decoder.skipStep tag opened src with
  | error e =>
    refine ⟨Nat.zero_le _, ?_⟩
    intro offset needed limit n h
    cases h
    exact (orderly_skipStep tag opened).truncated hstep
  | ok r =>
    obtain ⟨opened', k⟩ := r
    have hk := (orderly_skipStep tag opened).le_length hstep
    exact (hrest opened' k hk).after hk

theorem orderly_skipOpened (opened : List UInt32) (src : Bytes) :
    (decoder.skipOpened opened src).Orderly src.length := by
  induction hsize : src.length using Nat.strongRecOn generalizing opened src with
  | ind size ih =>
    subst hsize
    cases opened with
    | nil =>
      rw [skipOpened_nil]
      exact ⟨Nat.zero_le _, by intro _ _ _ _ h; cases h⟩
    | cons field outer =>
      rw [skipOpened_cons]
      cases htag : Reader.tag src with
      | error e =>
        refine ⟨Nat.zero_le _, ?_⟩
        intro offset needed limit n h
        cases h
        exact Reader.orderly_tag.truncated htag
      | ok r =>
        obtain ⟨tag, k⟩ := r
        obtain ⟨hpos, hk⟩ := Reader.tag_bounds htag
        have hgoes : ∀ opened' j, k ≤ j → j ≤ src.length →
            (decoder.skipOpened opened' (src.drop j)).Orderly (src.length - j) := by
          intro opened' j hkj hj
          have hless : (src.drop j).length < src.length := by
            rw [List.length_drop]
            omega
          have h := ih _ hless opened' (src.drop j) rfl
          rwa [List.length_drop] at h
        simp only
        split
        · split
          · exact (hgoes outer k (Nat.le_refl _) hk).after hk
          · exact ⟨hk, by intro _ _ _ _ h; cases h⟩
        · refine Passage.Orderly.after hk ?_
          rw [← List.length_drop]
          refine orderly_skipInside fun opened' j hj => ?_
          rw [List.length_drop] at hj ⊢
          rw [List.drop_drop, Nat.sub_sub]
          exact hgoes opened' (k + j) (by omega) (by omega)

theorem orderly_skipBytes (tag : Tag) (src : Bytes) :
    (decoder.skipBytes tag src).Orderly src.length := by
  rw [skipBytes_eq_skipInside]
  refine orderly_skipInside fun opened' k _ => ?_
  rw [← List.length_drop]
  exact orderly_skipOpened opened' (src.drop k)

/-! ## What a scan goes over -/

theorem skipInside_flat {levels : Nat} {tag : Tag} {bytes : Bytes}
    (hvalue : IsValue levels tag bytes) (hflat : tag.wireType ≠ .groupStart)
    (opened : List UInt32) (rest : Bytes) :
    decoder.skipInside tag opened (bytes ++ rest) =
      (decoder.skipOpened opened rest).after bytes.length := by
  rw [skipInside, skipStep_flat hvalue hflat]
  simp only [List.drop_left]

mutual

/-- A value inside some opened groups is passed over, or the groups in it nest too deep. -/
theorem skipInside_value {levels : Nat} {tag : Tag} {bytes : Bytes}
    (hvalue : IsValue levels tag bytes) (opened : List UInt32) (rest : Bytes)
    (hdepth : opened.length ≤ decoder.maxGroupDepth) :
    (IsValue (decoder.maxGroupDepth - opened.length) tag bytes ∧
      decoder.skipInside tag opened (bytes ++ rest) =
        (decoder.skipOpened opened rest).after bytes.length) ∨
    (decoder.maxGroupDepth < opened.length + levels ∧
      ∃ n, decoder.skipInside tag opened (bytes ++ rest) =
        .error (.recursionLimitExceeded decoder.maxGroupDepth, n)) := by
  -- groups are the one kind of value that the induction goes into
  by_cases hflat : tag.wireType ≠ .groupStart
  · exact .inl ⟨hvalue.of_flat hflat _, skipInside_flat hvalue hflat opened rest⟩
  match hvalue with
  | @IsValue.group levels _ stop fields last hwire hfields hlast hend hfield =>
    rw [skipInside, skipStep_group hwire]
    by_cases hless : opened.length < decoder.maxGroupDepth
    · simp only [if_pos hless, List.drop_zero, Passage.after_zero, List.append_assoc]
      rcases skipOpened_fields hfields tag.field opened (last ++ rest) hless with
        ⟨hfits, hpass⟩ | ⟨hdeep, hstop⟩
      · have hlevels : decoder.maxGroupDepth - opened.length =
            decoder.maxGroupDepth - (opened.length + 1) + 1 := by omega
        refine .inl ⟨?_, ?_⟩
        · rw [hlevels]
          exact .group hwire hfits hlast hend hfield
        · rw [hpass, skipOpened_cons, Reader.tag_append hlast]
          simp only [if_pos hend, if_pos hfield, List.drop_left, Passage.after_after,
            List.length_append]
      · exact .inr ⟨by omega, hstop⟩
    · rw [if_neg hless]
      exact .inr ⟨by omega, 0, rfl⟩
  | .varint hwire _ | .fixed32 hwire _ | .fixed64 hwire _ | .lengthDelimited hwire _ _ =>
    exact absurd (by simp [hwire]) hflat

/-- Fields of the innermost opened group are passed over, or the groups in them nest too deep. -/
theorem skipOpened_fields {levels : Nat} {bytes : Bytes} (hfields : IsFields levels bytes)
    (field : UInt32) (outer : List UInt32) (rest : Bytes)
    (hdepth : outer.length < decoder.maxGroupDepth) :
    (IsFields (decoder.maxGroupDepth - (outer.length + 1)) bytes ∧
      decoder.skipOpened (field :: outer) (bytes ++ rest) =
        (decoder.skipOpened (field :: outer) rest).after bytes.length) ∨
    (decoder.maxGroupDepth < outer.length + 1 + levels ∧
      ∃ n, decoder.skipOpened (field :: outer) (bytes ++ rest) =
        .error (.recursionLimitExceeded decoder.maxGroupDepth, n)) := by
  match hfields with
  | .nil => exact .inl ⟨.nil, by simp [Passage.after_zero]⟩
  | @IsFields.cons _ tag head value more hhead hvalue hmore =>
    have hstep : decoder.skipOpened (field :: outer) (head ++ value ++ more ++ rest) =
        (decoder.skipInside tag (field :: outer) (value ++ (more ++ rest))).after head.length := by
      rw [skipOpened_cons]
      simp only [List.append_assoc, Reader.tag_append hhead, if_neg hvalue.ne_groupEnd,
        List.drop_left]
    rw [hstep]
    rcases skipInside_value hvalue (field :: outer) (more ++ rest) hdepth with
      ⟨hfits, hpass⟩ | ⟨hdeep, n, hstop⟩
    · rw [hpass, Passage.after_after]
      rcases skipOpened_fields hmore field outer rest hdepth with
        ⟨hmoreFits, hmorePass⟩ | ⟨hdeep, n, hstop⟩
      · refine .inl ⟨.cons hhead hfits hmoreFits, ?_⟩
        rw [hmorePass, Passage.after_after]
        simp only [List.length_append]
      · exact .inr ⟨hdeep, Passage.after_recursionLimit _ hstop⟩
    · exact .inr ⟨hdeep, Passage.after_recursionLimit _ hstop⟩

end

theorem skipBytes_value (decoder : Decoder) {levels : Nat} {tag : Tag} {bytes : Bytes}
    (hvalue : IsValue levels tag bytes) (rest : Bytes) :
    (IsValue decoder.maxGroupDepth tag bytes ∧
      decoder.skipBytes tag (bytes ++ rest) = .ok bytes.length) ∨
    (decoder.maxGroupDepth < levels ∧
      ∃ n, decoder.skipBytes tag (bytes ++ rest) =
        .error (.recursionLimitExceeded decoder.maxGroupDepth, n)) := by
  have h := @skipInside_value decoder levels tag bytes hvalue [] rest (Nat.zero_le _)
  rw [skipOpened_nil, List.length_nil, Nat.zero_add, ← skipBytes_eq_skipInside] at h
  exact h

/-- A value with no more levels of groups than allowed is passed over, whatever comes behind it. -/
theorem skipBytes_of_isValue {decoder : Decoder} {tag : Tag} {bytes : Bytes}
    (h : IsValue decoder.maxGroupDepth tag bytes) (rest : Bytes) :
    decoder.skipBytes tag (bytes ++ rest) = .ok bytes.length := by
  rcases skipBytes_value decoder h rest with ⟨-, hok⟩ | ⟨hless, -⟩
  · exact hok
  · exact absurd hless (Nat.lt_irrefl _)

/-! ## Skipping -/

/-- Skipping a value ends at `q` exactly if the bytes up to there are a value of the tag with as
many levels of groups as allowed. If they are one with other levels only, it is the depth that is
reported. -/
theorem skip_eq_ok_iff_isValue (decoder : Decoder) (tag : Tag) {c : Cursor} (hc : c.Valid) :
    (∀ q, decoder.skip tag c = .ok () { c with position := q } ↔
      c.position ≤ q ∧ q ≤ c.limit ∧
        IsValue decoder.maxGroupDepth tag ((c.region.take q).drop c.position)) ∧
    (∀ q levels, c.position ≤ q → q ≤ c.limit →
      IsValue levels tag ((c.region.take q).drop c.position) →
      ¬ IsValue decoder.maxGroupDepth tag ((c.region.take q).drop c.position) →
      ∃ after, decoder.skip tag c =
        .error (.recursionLimitExceeded decoder.maxGroupDepth) after) ∧
    ∀ after, decoder.skip tag c = .ok () after → after = { c with position := after.position } := by
  have hwindow := Cursor.length_window hc
  obtain ⟨hle, -⟩ := hc
  refine ⟨fun q => ⟨fun h => ?_, ?_⟩, ?_, ?_⟩
  · unfold skip Cursor.pass at h
    split at h
    · rename_i n hn
      obtain ⟨hlen, hvalue⟩ := isValue_of_skipBytes hn
      simp only [Cursor.advance, EStateM.Result.ok.injEq, Cursor.mk.injEq, true_and,
        and_true] at h
      subst h
      rw [hwindow, Cursor.remaining] at hlen
      refine ⟨by omega, by omega, ?_⟩
      rw [← Cursor.take_window (by omega) (by omega), Nat.add_sub_cancel_left]
      exact hvalue
    · cases h
  · intro h
    obtain ⟨hp, hq, hvalue⟩ := h
    rw [← Cursor.take_window hp hq] at hvalue
    have hlen : (c.window.take (q - c.position)).length = q - c.position := by
      rw [List.length_take, hwindow, Cursor.remaining]
      omega
    rcases skipBytes_value decoder hvalue (c.window.drop (q - c.position)) with
      ⟨-, hpass⟩ | ⟨hdeep, -⟩
    · rw [List.take_append_drop, hlen] at hpass
      simp only [skip, Cursor.pass, hpass, Cursor.advance]
      rw [show c.position + (q - c.position) = q by omega]
    · exact absurd hdeep (Nat.lt_irrefl _)
  · intro q levels hp hq hvalue hnot
    rw [← Cursor.take_window hp hq] at hvalue hnot
    rcases skipBytes_value decoder hvalue (c.window.drop (q - c.position)) with
      ⟨hfits, -⟩ | ⟨-, n, hstop⟩
    · exact absurd hfits hnot
    · rw [List.take_append_drop] at hstop
      exact ⟨c.advance n, by simp only [skip, Cursor.pass, hstop, DecodeError.shift]⟩
  · intro after h
    unfold skip Cursor.pass at h
    split at h
    · cases h
      rfl
    · cases h

/-- A group of one varint field, between bytes that do not belong to it: skipped where one level is
allowed, and too deep where none is. -/
theorem skip_group_between_bytes :
    let c : Cursor := ⟨[0xff, 0x08, 0x01, 0x14, 0x05], 1, 5⟩
    let group : Tag := Tag.of 2 .groupStart
    c.Valid ∧ Decoder.skip { maxGroupDepth := 1 } group c = .ok () { c with position := 4 } ∧
      ∃ after, Decoder.skip { maxGroupDepth := 0 } group c =
        .error (.recursionLimitExceeded 0) after := by
  intro c group
  have hvalid : c.Valid := by decide
  have hone : ∀ b : UInt8, b < 0x80 → Varint.IsVarint [b] := fun _ => Varint.isVarint_singleton
  have hfields : IsFields 0 [0x08, 0x01] :=
    @IsFields.cons 0 (Tag.of 1 .varint) [0x08] [0x01] []
      ⟨hone _ (by decide), by decide⟩ (.varint rfl (hone _ (by decide))) .nil
  have hvalue : IsValue 1 group [0x08, 0x01, 0x14] :=
    @IsValue.group 0 group (Tag.of 2 .groupEnd) [0x08, 0x01] [0x14] (by decide) hfields
      ⟨hone _ (by decide), by decide⟩ (by decide) (by decide)
  have hnot : ¬ IsValue 0 group [0x08, 0x01, 0x14] := by
    have hwire : group.wireType = .groupStart := by decide
    generalize ([0x08, 0x01, 0x14] : Bytes) = bytes
    intro h
    cases h <;> simp_all
  exact ⟨hvalid,
    ((skip_eq_ok_iff_isValue { maxGroupDepth := 1 } group hvalid).1 4).2
      ⟨by decide, by decide, hvalue⟩,
    (skip_eq_ok_iff_isValue { maxGroupDepth := 0 } group hvalid).2.1 4 1 (by decide) (by decide)
      hvalue hnot⟩

end Decoder

end WireFormat
