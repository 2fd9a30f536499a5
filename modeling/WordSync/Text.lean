/-!
# Texts of values

How a value with named parts and a value that is a list are written on one line. Both are
built by recursion over their parts, with `", "` between neighbours.
-/

namespace WordSync.Text

/-- The items one after the other, with a comma and a blank between neighbours. -/
def commaSeparated : List String → String
  | [] => ""
  | [item] => item
  | item :: rest => item ++ ", " ++ commaSeparated rest

/-- A list in square brackets. -/
def list (items : List String) : String := "[" ++ commaSeparated items ++ "]"

/-- One named part of a record. -/
def part (field : String × String) : String := field.1 ++ ": " ++ field.2

/-- A record with its parts in braces; without parts the name stands alone. -/
def record (name : String) (fields : List (String × String)) : String :=
  match fields with
  | [] => name
  | _ => name ++ " \x7b " ++ commaSeparated (fields.map part) ++ " \x7d"

/-- A record that shows only some of its parts, and says so by two dots at the end. -/
def openRecord (name : String) (fields : List (String × String)) : String :=
  name ++ " \x7b " ++ commaSeparated (fields.map part ++ [".."]) ++ " \x7d"

/-- A value wrapped in a named constructor. -/
def wrapped (name value : String) : String := name ++ "(" ++ value ++ ")"

/-- A number in hexadecimal, with lower-case digits and the mark that announces them. -/
def hexadecimal (n : Nat) : String := "0x" ++ String.ofList (Nat.toDigits 16 n)

end WordSync.Text
