/-!
Ordered maps with text keys, as lists of pairs. A new key goes to the end, and
a new value for an old key takes the place of the old value.
-/

namespace FieldQuery

abbrev Fields (α : Type) := List (String × α)

namespace Fields

variable {α β : Type}

def get? : Fields α → String → Option α
  | [], _ => none
  | (name, value) :: rest, key => if name = key then some value else get? rest key

def has (fields : Fields α) (key : String) : Bool := (get? fields key).isSome

def names (fields : Fields α) : List String := fields.map Prod.fst

def put : Fields α → String → α → Fields α
  | [], key, value => [(key, value)]
  | (name, old) :: rest, key, value =>
      if name = key then (name, value) :: rest else (name, old) :: put rest key value

def erase : Fields α → String → Fields α
  | [], _ => []
  | (name, value) :: rest, key =>
      if name = key then rest else (name, value) :: erase rest key

/-- Puts every field of the second map into the first, in order. -/
def extend (fields more : Fields α) : Fields α :=
  more.foldl (fun fields (key, value) => put fields key value) fields

/-- The map of a list of pairs: a repeated key keeps its first place and its
last value. -/
def ofList (pairs : List (String × α)) : Fields α := extend [] pairs

theorem get?_put (fields : Fields α) (key other : String) (value : α) :
    get? (put fields key value) other = if key = other then some value else get? fields other := by
  induction fields with
  | nil => simp [put, get?]
  | cons field rest ih =>
    obtain ⟨name, old⟩ := field
    by_cases hname : name = key
    · subst hname
      by_cases hkey : name = other <;> simp [put, get?, hkey]
    · by_cases hkey : name = other
      · subst hkey
        simp [put, get?, hname, Ne.symm hname]
      · simp [put, get?, hname, hkey, ih]

end Fields

end FieldQuery
