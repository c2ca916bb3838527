/-!
# Values of several parts

How a value that has parts is written: its kind in front, and the parts with or without names in brackets behind it. What is
written is always one line.
-/

namespace ClassFile.Text

/-- Parts with commas between them. -/
def commas (parts : List String) : String :=
  ", ".intercalate parts

/-- A value of a kind with one part. -/
def tagged (kind part : String) : String :=
  kind ++ "(" ++ part ++ ")"

/-- A value of a kind with named parts. -/
def record (kind : String) (fields : List (String × String)) : String :=
  kind ++ " \x7b " ++ commas (fields.map fun (name, part) => name ++ ": " ++ part) ++ " \x7d"

/-- A list of values. -/
def bracketed (parts : List String) : String :=
  "[" ++ commas parts ++ "]"

end ClassFile.Text
