/-!
# JSON values of an inspection

What an inspection shows: numbers, texts, arrays, and objects whose members are named by field
numbers. A list of named values is gathered into an object in its order (`Json.gather`): the first
value of a name makes a member, the next turns it into an array, and further ones are added at the
end of the array, whichever way the member came to be one.
-/

namespace WireFormat

/-- A JSON value with field numbers as the names of members. -/
inductive Json where
  /-- A number. -/
  | number (value : Nat)
  /-- A text. -/
  | text (value : String)
  /-- Values in a row. -/
  | array (values : List Json)
  /-- Values by field number. -/
  | object (members : List (UInt32 × Json))

namespace Json

/-- A value with another one after it: an array gets one more element, and anything else becomes
an array of two. -/
def add : Json → Json → Json
  | array values, next => array (values ++ [next])
  | first, next => array [first, next]

/-- Adds a value to the member with a name, or makes it a new member. -/
def insertMember (name : UInt32) (value : Json) : List (UInt32 × Json) → List (UInt32 × Json)
  | [] => [(name, value)]
  | (other, old) :: rest =>
    if other = name then (other, old.add value) :: rest
    else (other, old) :: insertMember name value rest

/-- The object that gathers some named values, which may share names. -/
def gather (values : List (UInt32 × Json)) : Json :=
  object (values.foldl (fun members (name, value) => insertMember name value members) [])

/-- The member of an object with a name. -/
def member? (name : UInt32) : Json → Option Json
  | object members => members.lookup name
  | _ => none

end Json

end WireFormat
