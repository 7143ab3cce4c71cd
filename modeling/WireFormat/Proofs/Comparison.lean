import WireFormat.Proofs.Placement

/-!
# Two computations on one cursor

Two computations that fill different messages, or none, may still treat the cursor alike. A
`Comparison` says how far apart their errors may be. Two computations `Compare` if from one cursor
they end well at one place, or fail in a way that is allowed. What the decoder does for a field is
compared for each tag, and then all that is read in fields is compared (`compares_fields`).

Computations that do not move the cursor (`Quiet`) may stand in front of what is compared, or behind
it.
-/

namespace WireFormat

open Decode

/-- How the errors of two computations may differ. -/
structure Comparison where
  /-- The first may fail with this error where the second ends well. -/
  refuses : DecodeError → Prop
  /-- The first may fail with the one error where the second fails with the other. -/
  fails : DecodeError → DecodeError → Prop
  refuses_shift : ∀ {e : DecodeError} (distance : Nat), refuses e → refuses (e.shift distance)
  fails_shift : ∀ {e e' : DecodeError} (distance : Nat), fails e e' →
    fails (e.shift distance) (e'.shift distance)
  fails_refl : ∀ e : DecodeError, fails e e
  fails_of_refuses : ∀ {e : DecodeError} (e' : DecodeError), refuses e → fails e e'

namespace Comparison

variable {σ τ α β : Type}

/-- The second computation ends well where the first does, and fails otherwise unless the first
refuses. -/
inductive Ends (comparison : Comparison) :
    EStateM.Result DecodeError (Run σ) α → EStateM.Result DecodeError (Run τ) β → Prop
  | ok {a : α} {b : β} {run : Run σ} {run' : Run τ} :
      run.cursor = run'.cursor → Ends comparison (.ok a run) (.ok b run')
  | refused {e : DecodeError} {b : β} {run : Run σ} {run' : Run τ} :
      comparison.refuses e → Ends comparison (.error e run) (.ok b run')
  | error {e e' : DecodeError} {run : Run σ} {run' : Run τ} :
      comparison.fails e e' → Ends comparison (.error e run) (.error e' run')

/-- The same of what two readers say of some bytes. -/
inductive Takes (comparison : Comparison) :
    Except DecodeError (α × Nat) → Except DecodeError (β × Nat) → Prop
  | ok {a : α} {b : β} {n : Nat} : Takes comparison (.ok (a, n)) (.ok (b, n))
  | refused {e : DecodeError} {b : β} {n : Nat} :
      comparison.refuses e → Takes comparison (.error e) (.ok (b, n))
  | error {e e' : DecodeError} :
      comparison.fails e e' → Takes comparison (.error e) (.error e')

end Comparison

namespace Decode

variable {σ τ α β γ δ : Type} {comparison : Comparison} {bound : Nat}

/-- Two computations compare if they do so from every cursor with less than `bound` bytes left. -/
def Compares (comparison : Comparison) (bound : Nat) (body : Decode σ α) (body' : Decode τ β) :
    Prop :=
  ∀ (run : Run σ) (run' : Run τ), run.cursor = run'.cursor → run.cursor.Valid →
    run.cursor.remaining < bound → comparison.Ends (body run) (body' run')

/-- A computation leaves the cursor where it is, or it refuses. -/
def Quiet (comparison : Comparison) (body : Decode σ α) : Prop :=
  ∀ run : Run σ, (∃ a state, body run = .ok a ⟨state, run.cursor⟩) ∨
    ∃ e after, body run = .error e after ∧ comparison.refuses e

/-! ## Quiet computations -/

theorem Quiet.pure (a : α) : Quiet comparison (Pure.pure a : Decode σ α) := by
  intro run
  exact .inl ⟨a, run.state, rfl⟩

theorem Quiet.cursor : Quiet comparison (Decode.cursor : Decode σ Cursor) := by
  intro run
  exact .inl ⟨run.cursor, run.state, rfl⟩

theorem Quiet.onState (change : σ → σ) : Quiet comparison (Decode.onState change) := by
  intro run
  exact .inl ⟨(), change run.state, rfl⟩

theorem Quiet.throw {e : DecodeError} (h : comparison.refuses e) :
    Quiet comparison (throw e : Decode σ α) := by
  intro run
  exact .inr ⟨e, run, rfl, h⟩

theorem Quiet.bind {first : Decode σ α} {next : α → Decode σ β} (hfirst : Quiet comparison first)
    (hnext : ∀ a, Quiet comparison (next a)) : Quiet comparison (first >>= next) := by
  intro run
  rw [bind_apply]
  rcases hfirst run with ⟨a, state, hok⟩ | ⟨e, after, herror, he⟩
  · rw [hok]
    exact hnext a ⟨state, run.cursor⟩
  · rw [herror]
    exact .inr ⟨e, after, rfl, he⟩

theorem Quiet.get_bind {next : Run σ → Decode σ α} (hnext : ∀ run, Quiet comparison (next run)) :
    Quiet comparison (get >>= next) := by
  intro run
  exact hnext run run

/-! ## Computations that compare -/

theorem Compares.bind {first : Decode σ α} {next : α → Decode σ β} {first' : Decode τ γ}
    {next' : γ → Decode τ δ} (hfirst : Compares comparison bound first first')
    (hkeeps : Keeps .advancing first)
    (hnext : ∀ a b, Compares comparison bound (next a) (next' b)) :
    Compares comparison bound (first >>= next) (first' >>= next') := by
  intro run run' hc hvalid hbound
  have hends := hfirst run run' hc hvalid hbound
  have hmove : run.cursor.Advances (final (first run)).cursor := hkeeps run hvalid
  rw [bind_apply, bind_apply]
  generalize first run = result at hends hmove ⊢
  generalize first' run' = result' at hends ⊢
  cases hends with
  | @ok a b after after' h =>
    exact hnext a b after after' h (Motion.advancing.valid hvalid hmove)
      (Nat.lt_of_le_of_lt hmove.remaining_le hbound)
  | @refused e b after after' he =>
    -- the second goes on by itself, and may end well or not
    simp only
    cases next' b after' with
    | ok _ _ => exact .refused he
    | error e' _ => exact .error (comparison.fails_of_refuses e' he)
  | error he => exact .error he

/-- A quiet computation in front of the first. -/
theorem Compares.preceded {first : Decode σ α} {next : α → Decode σ β} {body' : Decode τ δ}
    (hfirst : Quiet comparison first) (hnext : ∀ a, Compares comparison bound (next a) body') :
    Compares comparison bound (first >>= next) body' := by
  intro run run' hc hvalid hbound
  rw [bind_apply]
  rcases hfirst run with ⟨a, state, hok⟩ | ⟨e, after, herror, he⟩
  · rw [hok]
    exact hnext a ⟨state, run.cursor⟩ run' hc hvalid hbound
  · rw [herror]
    cases body' run' with
    | ok _ _ => exact .refused he
    | error e' _ => exact .error (comparison.fails_of_refuses e' he)

/-- A quiet computation behind the first. -/
theorem Compares.followed {body : Decode σ α} {next : α → Decode σ β} {body' : Decode τ δ}
    (hbody : Compares comparison bound body body') (hnext : ∀ a, Quiet comparison (next a)) :
    Compares comparison bound (body >>= next) body' := by
  intro run run' hc hvalid hbound
  have hends := hbody run run' hc hvalid hbound
  rw [bind_apply]
  generalize body run = result at hends ⊢
  generalize body' run' = result' at hends ⊢
  cases hends with
  | @ok a b after after' h =>
    rcases hnext a after with ⟨c, state, hok⟩ | ⟨e, last, herror, he⟩
    · simp only [hok]
      exact .ok h
    · simp only [herror]
      exact .refused he
  | refused he => exact .refused he
  | error he => exact .error he

theorem Compares.onPart {υ : Type} {part : σ → υ} {place : υ → σ → σ} {body : Decode υ α}
    {body' : Decode τ β} (hbody : Compares comparison bound body body') :
    Compares comparison bound (Decode.onPart part place body) body' := by
  intro run run' hc hvalid hbound
  have hends := hbody ⟨part run.state, run.cursor⟩ run' hc hvalid hbound
  unfold Decode.onPart
  generalize body ⟨part run.state, run.cursor⟩ = result at hends ⊢
  generalize body' run' = result' at hends ⊢
  cases hends with
  | ok h => exact .ok h
  | refused he => exact .refused he
  | error he => exact .error he

/-- The same moves of the cursor. -/
theorem Compares.onCursor (reading : Reading α) :
    Compares comparison bound (Decode.onCursor reading : Decode σ α)
      (Decode.onCursor reading : Decode τ α) := by
  intro run run' hc _ _
  unfold Decode.onCursor
  rw [← hc]
  cases reading run.cursor with
  | ok a c => exact .ok rfl
  | error e c => exact .error (comparison.fails_refl e)

theorem Compares.read {reader : Reader α} {reader' : Reader β}
    (h : ∀ src, comparison.Takes (reader src) (reader' src)) :
    Compares comparison bound (Decode.onCursor (Cursor.read reader) : Decode σ α)
      (Decode.onCursor (Cursor.read reader') : Decode τ β) := by
  intro run run' hc _ _
  have htakes := h run.cursor.window
  unfold Decode.onCursor Cursor.read
  rw [← hc]
  generalize reader run.cursor.window = result at htakes ⊢
  generalize reader' run.cursor.window = result' at htakes ⊢
  cases htakes with
  | ok => exact .ok rfl
  | refused he => exact .refused (comparison.refuses_shift _ he)
  | error he => exact .error (comparison.fails_shift _ he)

/-- One value that both computations go by. -/
theorem Compares.readBind {reader : Reader γ} (hreader : reader.Orderly) {next : γ → Decode σ α}
    {next' : γ → Decode τ β} (hnext : ∀ c, Compares comparison bound (next c) (next' c)) :
    Compares comparison bound (Decode.onCursor (Cursor.read reader) >>= next)
      (Decode.onCursor (Cursor.read reader) >>= next') := by
  intro run run' hc hvalid hbound
  rw [bind_apply, bind_apply]
  unfold Decode.onCursor Cursor.read
  rw [← hc]
  cases hr : reader run.cursor.window with
  | error e => exact .error (comparison.fails_refl _)
  | ok r =>
    obtain ⟨c, n⟩ := r
    have hn := hreader.le_length hr
    rw [Cursor.length_window hvalid] at hn
    have hless : (run.cursor.advance n).remaining < bound := by
      rw [Cursor.remaining_advance]
      omega
    exact hnext c ⟨run.state, run.cursor.advance n⟩ ⟨run'.state, run.cursor.advance n⟩ rfl
      (hvalid.advance hn) hless

/-- Two loops compare if their rounds do. -/
theorem Compares.repeatWhile {round : Decode σ Unit} {round' : Decode τ Unit}
    (hround : Compares comparison bound round round') (hkeeps : Keeps .advancing round)
    (more : Cursor → Bool) (rounds : Nat) :
    Compares comparison bound (Decode.repeatWhile more round rounds)
      (Decode.repeatWhile more round' rounds) := by
  induction rounds with
  | zero =>
    intro run run' hc _ _
    rw [repeatWhile_zero, repeatWhile_zero, ← hc]
    split
    · exact .error (comparison.fails_refl _)
    · exact .ok hc
  | succ rounds ih =>
    intro run run' hc hvalid hbound
    by_cases hmore : more run.cursor
    · rw [repeatWhile_more hmore, repeatWhile_more (hc ▸ hmore)]
      exact Compares.bind hround hkeeps (fun _ _ => ih) run run' hc hvalid hbound
    · rw [Bool.not_eq_true] at hmore
      rw [repeatWhile_done hmore, repeatWhile_done (hc ▸ hmore)]
      exact .ok hc

end Decode

/-! ## Decoders -/

namespace Decoder

variable {σ τ : Type} {comparison : Comparison} {bound : Nat}
variable {visitor : Visitor σ} {visitor' : Visitor τ}

theorem compares_fields (decoder : Decoder) (hkeeps : ∀ tag, Keeps .advancing (visitor tag))
    (h : ∀ tag, Compares comparison bound (visitor tag >>= decoder.settle visitor tag)
      (visitor' tag >>= decoder.settle visitor' tag)) :
    Compares comparison bound (decoder.fields visitor) (decoder.fields visitor') := by
  intro run run' hc hvalid hbound
  have hfield : Compares comparison bound (decoder.field visitor) (decoder.field visitor') := by
    rw [field_eq, field_eq]
    exact .readBind Reader.orderly_tag h
  have hloop := Compares.repeatWhile hfield (keeps_field decoder hkeeps)
    (fun c => c.position < run.cursor.limit) run.cursor.places run run' hc hvalid hbound
  show comparison.Ends
    (repeatWhile (fun c => c.position < run.cursor.limit) (decoder.field visitor)
      run.cursor.places run)
    (repeatWhile (fun c => c.position < run'.cursor.limit) (decoder.field visitor')
      run'.cursor.places run')
  rwa [← hc]

end Decoder

end WireFormat
