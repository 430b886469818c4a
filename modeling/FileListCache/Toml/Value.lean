/-
  FileListCache.Toml.Value

  The values of a TOML document and the rules for putting them into tables. A table remembers how
  it came to be, since that decides what may be added to it later: a name is given a value once,
  and a table is closed once its notation ends.
-/

namespace FileListCache.Toml

/-- How a table came to be. -/
inductive Origin
  /-- By a header of its own, or as the document itself. -/
  | header
  /-- By the header of a table below it. -/
  | above
  /-- By a key with dots. -/
  | dotted
  /-- By braces, which hold all of it. -/
  | braces
  deriving DecidableEq, Repr

/-- A value. Of numbers with a fraction and of dates only the kind is kept. -/
inductive Value
  | text (s : String)
  | integer (n : Int)
  | fraction
  | boolean (b : Bool)
  | date
  /-- A list; one that grows by headers is told apart. -/
  | array (grows : Bool) (items : List Value)
  | table (origin : Origin) (fields : List (String × Value))

/-- Names and their values, in the order in which they were given. -/
abbrev Fields := List (String × Value)

namespace Fields

/-- The value of a name. -/
def find? (fields : Fields) (key : String) : Option Value := fields.lookup key

/-- Replaces the value of a name that has one. -/
def set (fields : Fields) (key : String) (value : Value) : Fields :=
  fields.map fun f => if f.1 = key then (key, value) else f

/-- Changes the table that a path of names leads to, from a table of the given origin. Tables on
the path are made where they are missing. A path that is part of a key may not enter a table that
has a header. -/
def changeAt (inKey : Bool) (change : Origin → Fields → Option Fields) :
    List String → Origin → Fields → Option Fields
  | [], origin, fields => change origin fields
  | key :: path, _, fields =>
    match fields.find? key with
    | none => do
      let origin := if inKey then .dotted else .above
      return fields ++ [(key, .table origin (← changeAt inKey change path origin []))]
    | some (.table origin inner) =>
      if origin = .braces ∨ (inKey ∧ origin = .header) then none
      else do return set fields key (.table origin (← changeAt inKey change path origin inner))
    | some (.array true items) =>
      match items.getLast? with
      | some (.table origin inner) => do
        let inner ← changeAt inKey change path origin inner
        return set fields key (.array true (items.dropLast ++ [.table origin inner]))
      | _ => none
    | some _ => none

/-- Gives a name its value, unless it has one. -/
def insert (key : String) (value : Value) (fields : Fields) : Option Fields :=
  match fields.find? key with
  | none => some (fields ++ [(key, value)])
  | some _ => none

/-- Gives the name at the end of a key its value. A table that was made by keys takes more names
only by keys, and no other table does. -/
def assign (path : List String) (key : String) (value : Value) (origin : Origin)
    (fields : Fields) : Option Fields :=
  changeAt true (fun parent inner =>
    if (parent = .dotted) = path.isEmpty then none else insert key value inner) path origin fields

/-- Opens a table by its header. -/
def openTable (path : List String) (key : String) (root : Fields) : Option Fields :=
  changeAt false (fun _ inner =>
    match inner.find? key with
    | none => some (inner ++ [(key, .table .header [])])
    | some (.table .above fields) => some (set inner key (.table .header fields))
    | some _ => none) path .header root

/-- Opens one more table of a list by its header. -/
def openElement (path : List String) (key : String) (root : Fields) : Option Fields :=
  changeAt false (fun _ inner =>
    match inner.find? key with
    | none => some (inner ++ [(key, .array true [.table .header []])])
    | some (.array true items) => some (set inner key (.array true (items ++ [.table .header []])))
    | some _ => none) path .header root

end Fields

end FileListCache.Toml
