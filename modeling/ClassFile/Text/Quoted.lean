import ClassFile.Text.Printable

/-!
# Quoted text

A text between double quotes. Quotes and backslashes stand behind a backslash, line breaks and tabs have letters, and any
other character that would not show as itself is written by its number.
-/

namespace ClassFile.Text

/-- A character by its number, in base sixteen and between braces. -/
def escapeNumber (c : Char) : List Char :=
  ['\\', 'u', '\x7b'] ++ Nat.toDigits 16 c.toNat ++ ['\x7d']

/-- A character as it stands between quotes. -/
def escape (c : Char) : List Char :=
  match c with
  | '\x00' => ['\\', '0']
  | '\t' => ['\\', 't']
  | '\n' => ['\\', 'n']
  | '\r' => ['\\', 'r']
  | '\x22' => ['\\', '\x22']
  | '\\' => ['\\', '\\']
  | c => if isPrintable c then [c] else escapeNumber c

/-- A text between quotes. -/
def quote (s : String) : String :=
  String.ofList ('\x22' :: s.toList.flatMap escape ++ ['\x22'])

end ClassFile.Text
