/-!
# JSON values

A JSON value as a tree. Objects keep their members in the order they were written, repeated
names included. Integers are numbers written without fraction and exponent; every other number
keeps its spelling, and so does minus zero, which is no integer.

A string can be well-formed and yet denote no text, because an escape in it is one half of a
surrogate pair without the other. Such a string is garbled, and so is an object with such a
name. Nothing can be read from what is garbled, but it may stand where nothing is read.

A value is written over several lines: two blanks of indentation for each level, one item or
member on a line, a colon and a blank behind a name, and nothing between the brackets of what is
empty. Only quotes, backslashes and control characters are escaped.
-/

namespace Lockstep

/-- A JSON value. -/
inductive Json where
  | null
  | bool (value : Bool)
  | int (value : Int)
  /-- A number that is not written as an integer. -/
  | real (spelling : String)
  | str (value : String)
  | arr (items : List Json)
  | obj (members : List (String × Json))
  /-- A string with half a surrogate pair in it, or an object with such a name. -/
  | garbled

namespace Json

mutual

/-- The number of nested brackets. -/
def depth : Json → Nat
  | .arr items => depthItems items + 1
  | .obj members => depthMembers members + 1
  | _ => 0

/-- The largest depth of some items. -/
def depthItems : List Json → Nat
  | [] => 0
  | item :: rest => max item.depth (depthItems rest)

/-- The largest depth of some members. -/
def depthMembers : List (String × Json) → Nat
  | [] => 0
  | (_, value) :: rest => max value.depth (depthMembers rest)

end

/-! ### Writing -/

/-- A hexadecimal digit. -/
def hexDigit (n : Nat) : Char :=
  if n < 10 then Char.ofNat ('0'.toNat + n) else Char.ofNat ('a'.toNat + (n - 10))

/-- A character inside a string. -/
def escape (c : Char) : List Char :=
  match c with
  | '"' => ['\\', '"']
  | '\\' => ['\\', '\\']
  | '\n' => ['\\', 'n']
  | '\r' => ['\\', 'r']
  | '\t' => ['\\', 't']
  | '\x08' => ['\\', 'b']
  | '\x0c' => ['\\', 'f']
  | c =>
      if c.toNat < 0x20 then
        ['\\', 'u', '0', '0', hexDigit (c.toNat / 16), hexDigit (c.toNat % 16)]
      else [c]

/-- A string in quotes. -/
def quote (s : String) : String :=
  String.ofList ('"' :: s.toList.flatMap escape ++ ['"'])

/-- The indentation of a level. -/
def indentation (level : Nat) : String :=
  String.ofList (List.replicate (2 * level) ' ')

mutual

/-- A value, on lines that are indented to a level from the second on. -/
def prettyAt (level : Nat) : Json → String
  | .null => "null"
  | .bool true => "true"
  | .bool false => "false"
  | .int value => toString value
  | .real spelling => spelling
  | .garbled => "\"\\ud800\""
  | .str value => quote value
  | .arr [] => "[]"
  | .arr (item :: rest) =>
      "[\n" ++ indentation (level + 1) ++ prettyAt (level + 1) item ++
        prettyItems (level + 1) rest ++ "\n" ++ indentation level ++ "]"
  | .obj [] => "\x7b\x7d"
  | .obj ((name, value) :: rest) =>
      "\x7b\n" ++ indentation (level + 1) ++ quote name ++ ": " ++ prettyAt (level + 1) value ++
        prettyMembers (level + 1) rest ++ "\n" ++ indentation level ++ "\x7d"

/-- Items behind the first one. -/
def prettyItems (level : Nat) : List Json → String
  | [] => ""
  | item :: rest =>
      ",\n" ++ indentation level ++ prettyAt level item ++ prettyItems level rest

/-- Members behind the first one. -/
def prettyMembers (level : Nat) : List (String × Json) → String
  | [] => ""
  | (name, value) :: rest =>
      ",\n" ++ indentation level ++ quote name ++ ": " ++ prettyAt level value ++
        prettyMembers level rest

end

/-- A value as text, without a line break at the end. -/
def pretty (value : Json) : String :=
  value.prettyAt 0

end Json

end Lockstep
