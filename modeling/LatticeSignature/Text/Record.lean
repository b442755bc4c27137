import LatticeSignature.Bytes

/-!
# Records as text

Values are described by their name and fields: `Name`, then the fields in braces, each with a colon
and its value, separated by commas.

* `Record.closed`, `Record.partly`: all fields, or some of them followed by two dots.
* `Record.list`, `Record.bytes`: lists in brackets.
-/

namespace LatticeSignature.Record

/-- Items in brackets, separated by commas. -/
def list (items : List String) : String := "[" ++ ", ".intercalate items ++ "]"

/-- A byte string as a list of decimal numbers. -/
def bytes (b : Bytes) : String := list (b.map fun x => toString x.toNat)

/-- A field with its value. -/
def field (name value : String) : String := name ++ ": " ++ value

/-- A record of which all fields are shown. -/
def closed (name : String) (fields : List (String × String)) : String :=
  name ++ " \x7b " ++ ", ".intercalate (fields.map fun f => field f.1 f.2) ++ " \x7d"

/-- A record of which only some fields are shown. -/
def partly (name : String) (fields : List (String × String)) : String :=
  name ++ " \x7b " ++ ", ".intercalate ((fields.map fun f => field f.1 f.2) ++ [".."]) ++ " \x7d"

/-- A text without special characters, in quotation marks. -/
def quoted (s : String) : String := "\"" ++ s ++ "\""

end LatticeSignature.Record
