/-!
# Documents

Descriptions of values as text: names, records and tuples, written on one line or with one field a
line. The two layouts differ in white space and in the commas that end a line only.
-/

set_option autoImplicit false

namespace Latch

/-- A description of a value. -/
inductive Document where
  | atom (text : String)
  /-- A named record. A partial one has more fields than it tells. -/
  | record (name : String) (fields : List (String × Document)) (partially : Bool)
  /-- A named tuple. -/
  | tuple (name : String) (items : List Document)
  deriving Repr

namespace Document

def flag (value : Bool) : Document := atom (if value then "true" else "false")

def number (value : Nat) : Document := atom (toString value)

/-- A value that may be missing. -/
def option : Option Document → Document
  | none => atom "None"
  | some document => tuple "Some" [document]

/-- The opening and closing brace of a record. -/
def opening : String := "\x7b"

def closing : String := "\x7d"

/-- What stands for the fields that a partial record leaves out. -/
def ellipsis : String := ".."

mutual

/-- The description on one line. -/
def flat : Document → String
  | atom text => text
  | record name fields partially =>
      let items := flatFields fields ++ (if partially then [ellipsis] else [])
      if items.isEmpty then name
      else name ++ " " ++ opening ++ " " ++ ", ".intercalate items ++ " " ++ closing
  | tuple name items =>
      if items.isEmpty then name else name ++ "(" ++ ", ".intercalate (flatItems items) ++ ")"

def flatFields : List (String × Document) → List String
  | [] => []
  | (label, document) :: rest => (label ++ ": " ++ document.flat) :: flatFields rest

def flatItems : List Document → List String
  | [] => []
  | document :: rest => document.flat :: flatItems rest

end

/-- One level of indentation. -/
def indentation : String := "    "

/-- The start of a line at a level. -/
def margin (level : Nat) : String := String.join (List.replicate level indentation)

mutual

/-- The lines of a description, of which the first goes on a line that was begun before. -/
def indented (level : Nat) : Document → String
  | atom text => text
  | record name fields partially =>
      let lines := indentedFields (level + 1) fields ++
        (if partially then [margin (level + 1) ++ ellipsis ++ "\n"] else [])
      if lines.isEmpty then name
      else name ++ " " ++ opening ++ "\n" ++ String.join lines ++ margin level ++ closing
  | tuple name items =>
      if items.isEmpty then name
      else name ++ "(\n" ++ String.join (indentedItems (level + 1) items) ++ margin level ++ ")"

def indentedFields (level : Nat) : List (String × Document) → List String
  | [] => []
  | (label, document) :: rest =>
      (margin level ++ label ++ ": " ++ document.indented level ++ ",\n") ::
        indentedFields level rest

def indentedItems (level : Nat) : List Document → List String
  | [] => []
  | document :: rest =>
      (margin level ++ document.indented level ++ ",\n") :: indentedItems level rest

end

/-- The description on one line, or with one field a line. -/
def render (document : Document) (spread : Bool) : String :=
  if spread then document.indented 0 else document.flat

end Document

end Latch
