import Mathlib.Data.List.Induction
import Mathlib.Data.List.Nodup
import WireFormat.Json

/-!
# Objects from named values

What `Json.gather` makes of some named values, name by name. An object of theirs has a member for
each name that occurs and no other, and the member is what the values of its name come to, in their
order (`member?_gather`); values of other names in between have no part in it.

What some values come to is one thing by the book (`inRow`): a value stands for itself, and several
are an array of them. By way of insertion it is another (`gathered`), since a first value that is an
array takes the later ones in. The two agree unless it is one (`gathered_eq_inRow`).
-/

namespace WireFormat.Json

/-- What some values under one name should be shown as: the one value, or an array of them all. -/
def inRow : List Json → Option Json
  | [] => none
  | [value] => some value
  | values => some (array values)

/-- The elements of an array, and any other value by itself. -/
def elements : Json → List Json
  | array values => values
  | other => [other]

/-- What some values under one name are shown as: later values go behind the elements of the first.
-/
def gathered : List Json → Option Json
  | [] => none
  | [value] => some value
  | first :: rest => some (array (first.elements ++ rest))

/-- The values with a name, in their order. -/
def named (name : UInt32) (values : List (UInt32 × Json)) : List Json :=
  (values.filter fun value => value.1 = name).map Prod.snd

/-! ## One name -/

theorem add_eq (first next : Json) : first.add next = array (first.elements ++ [next]) := by
  cases first <;> rfl

/-- A further value is added to what the values before it came to. -/
theorem gathered_append_singleton (values : List Json) (next : Json) :
    gathered (values ++ [next]) = some ((gathered values).elim next fun old => old.add next) := by
  match values with
  | [] => rfl
  | [first] => exact congrArg some (add_eq first next).symm
  | first :: second :: rest =>
    show some (array (first.elements ++ (second :: rest ++ [next]))) =
      some (array ((first.elements ++ second :: rest) ++ [next]))
    rw [List.append_assoc]

theorem elements_eq_singleton {value : Json} (h : ∀ values, value ≠ array values) :
    value.elements = [value] := by
  cases value with
  | array values => exact absurd rfl (h values)
  | number _ | text _ | object _ => rfl

/-- Values of which the first is no array are kept apart. -/
theorem gathered_eq_inRow {values : List Json}
    (h : ∀ first ∈ values.head?, ∀ others, first ≠ array others) :
    gathered values = inRow values := by
  match values with
  | [] => rfl
  | [_] => rfl
  | first :: second :: rest =>
    show some (array (first.elements ++ second :: rest)) = some (array (first :: second :: rest))
    rw [elements_eq_singleton (h first rfl), List.singleton_append]

/-! ## All names -/

theorem lookup_insertMember (name : UInt32) (value : Json) (members : List (UInt32 × Json))
    (number : UInt32) :
    (insertMember name value members).lookup number =
      if number = name then some ((members.lookup name).elim value fun old => old.add value)
      else members.lookup number := by
  induction members with
  | nil => by_cases h : number = name <;> simp [insertMember, h]
  | cons member rest ih =>
    obtain ⟨other, old⟩ := member
    by_cases hother : other = name
    · subst hother
      by_cases h : number = other
      · simp [insertMember, h]
      · have hbeq : (number == other) = false := beq_false_of_ne h
        simp [insertMember, h, List.lookup_cons, hbeq]
    · have hname : (name == other) = false := beq_false_of_ne (Ne.symm hother)
      simp only [insertMember, if_neg hother, List.lookup_cons, hname, ih]
      by_cases h : number = name
      · simp [h, hname]
      · simp [h]

/-- Inserting changes no name, and adds one at most. -/
theorem names_insertMember (name : UInt32) (value : Json) (members : List (UInt32 × Json)) :
    (insertMember name value members).map Prod.fst =
      if name ∈ members.map Prod.fst then members.map Prod.fst
      else members.map Prod.fst ++ [name] := by
  induction members with
  | nil => simp [insertMember]
  | cons member rest ih =>
    obtain ⟨other, old⟩ := member
    by_cases hother : other = name
    · simp [insertMember, hother]
    · have hne : name ≠ other := Ne.symm hother
      simp only [insertMember, if_neg hother, List.map_cons, ih, List.mem_cons, hne, false_or]
      split <;> rfl

/-- The members that come of some named values. -/
def membersOf (values : List (UInt32 × Json)) : List (UInt32 × Json) :=
  values.foldl (fun members (name, value) => insertMember name value members) []

theorem membersOf_append_singleton (values : List (UInt32 × Json)) (name : UInt32)
    (value : Json) :
    membersOf (values ++ [(name, value)]) = insertMember name value (membersOf values) :=
  List.foldl_append

theorem named_append_singleton (number : UInt32) (values : List (UInt32 × Json)) (name : UInt32)
    (value : Json) :
    named number (values ++ [(name, value)]) =
      named number values ++ if number = name then [value] else [] := by
  by_cases h : number = name
  · simp [named, h]
  · have hne : name ≠ number := Ne.symm h
    simp [named, h, hne]

/-- Each name has what its values came to, whatever came in between. -/
theorem member?_gather (number : UInt32) (values : List (UInt32 × Json)) :
    (gather values).member? number = gathered (named number values) := by
  show (membersOf values).lookup number = gathered (named number values)
  -- the last value is the one that was inserted last
  induction values using List.reverseRecOn generalizing number with
  | nil => rfl
  | append_singleton values last ih =>
    obtain ⟨name, value⟩ := last
    rw [membersOf_append_singleton, lookup_insertMember, named_append_singleton]
    by_cases h : number = name
    · rw [if_pos h, if_pos h, h, gathered_append_singleton, ih]
    · rw [if_neg h, if_neg h, List.append_nil, ih]

/-- No name has two members. -/
theorem gather_names_nodup (values : List (UInt32 × Json)) :
    ∃ members, gather values = object members ∧ (members.map Prod.fst).Nodup := by
  refine ⟨membersOf values, rfl, ?_⟩
  induction values using List.reverseRecOn with
  | nil => exact List.nodup_nil
  | append_singleton values last ih =>
    obtain ⟨name, value⟩ := last
    rw [membersOf_append_singleton, names_insertMember]
    split
    · exact ih
    · rename_i hnew
      exact List.concat_eq_append ▸ ih.concat hnew

end WireFormat.Json
