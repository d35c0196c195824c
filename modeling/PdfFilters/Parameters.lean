/-!
# Names and parameter dictionaries

A name in a document is written with a leading solidus, and callers hand names over with it or
without it. `bareName` takes one solidus off, and no more than one.

A stream may carry, for each of its filters, a dictionary of integer entries. `Parameters` holds
one as a list of entries ordered by key, each key once. A leading solidus on a key is not part of
the key, neither when an entry is made nor when it is looked up.
-/

namespace PdfFilters

/-- A name without the solidus that may stand before it. -/
def bareName (name : String) : String :=
  match name.toList with
  | '/' :: rest => String.ofList rest
  | _ => name

/-- A dictionary of integers, its entries in the order of their keys. -/
structure Parameters where
  entries : List (String × Int) := []
  deriving DecidableEq

namespace Parameters

/-- Put an entry into its place among entries ordered by key, over one with the same key. -/
def place (key : String) (value : Int) : List (String × Int) → List (String × Int)
  | [] => [(key, value)]
  | (k, v) :: rest =>
    if key < k then (key, value) :: (k, v) :: rest
    else if key = k then (key, value) :: rest
    else (k, v) :: place key value rest

/-- The dictionary with an entry added or replaced. -/
def insert (parameters : Parameters) (key : String) (value : Int) : Parameters :=
  ⟨place (bareName key) value parameters.entries⟩

/-- The value of an entry, if there is one. -/
def get? (parameters : Parameters) (key : String) : Option Int :=
  parameters.entries.lookup (bareName key)

/-- The value of an entry, or `default` in its absence. -/
def getD (parameters : Parameters) (key : String) (default : Int) : Int :=
  (parameters.get? key).getD default

theorem lookup_place (key other : String) (value : Int) (entries : List (String × Int)) :
    (place key value entries).lookup other
      = if other = key then some value else entries.lookup other := by
  have cons (k : String) (v : Int) (rest : List (String × Int)) :
      List.lookup other ((k, v) :: rest)
        = if other = k then some v else rest.lookup other := by
    by_cases h : other = k
    · simp [h]
    · simp [List.lookup_cons, beq_false_of_ne h, h]
  induction entries with
  | nil => simp only [place, cons]
  | cons entry rest ih =>
    obtain ⟨k, v⟩ := entry
    simp only [place]
    split
    · simp only [cons]
    · split
      · subst k
        simp only [cons]
        split <;> rfl
      · rename_i hne
        simp only [cons, ih]
        by_cases h : other = k
        · simp [h, Ne.symm hne]
        · simp only [h, if_false]

/-- An entry that was inserted is found under its key, with the solidus or without, and no other
entry is touched. -/
theorem get?_insert (parameters : Parameters) (key other : String) (value : Int) :
    (parameters.insert key value).get? other
      = if bareName other = bareName key then some value else parameters.get? other :=
  lookup_place _ _ _ _

/-- The number of entries. -/
def size (parameters : Parameters) : Nat := parameters.entries.length

/-- Whether there are no entries. -/
def isEmpty (parameters : Parameters) : Bool := parameters.entries.isEmpty

/-- The dictionary of these entries, inserted one after another. -/
def ofList (entries : List (String × Int)) : Parameters :=
  entries.foldl (fun parameters (key, value) => parameters.insert key value) {}

end Parameters

end PdfFilters
