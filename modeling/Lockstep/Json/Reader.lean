import Lockstep.Json.Basic

/-!
# Reading JSON

The reader takes a text character by character. A lexical mode says what the next character
continues: nothing, a word, a number or a string. Each finished token moves a stack machine that
knows which brackets are open and what may come next.

The grammar is strict. Blanks, tabs and line breaks may stand between tokens and nothing else
may; a number has no superfluous zero and no plus sign; a string holds no control characters.
A string with half a surrogate pair in it belongs to the grammar but is garbled. Brackets may
nest without end: whoever reads a value says how deep it may be.
-/

namespace Lockstep

namespace Json

/-! ### Tokens -/

/-- What a text consists of. -/
inductive Token where
  | beginArray
  | endArray
  | beginObject
  | endObject
  | comma
  | colon
  /-- A string; none if it is garbled. -/
  | text (value : Option String)
  /-- A word or a number. -/
  | atom (value : Json)

/-- The value of a word. -/
def ofWord? (letters : List Char) : Option Json :=
  if letters = ['n', 'u', 'l', 'l'] then some .null
  else if letters = ['t', 'r', 'u', 'e'] then some (.bool true)
  else if letters = ['f', 'a', 'l', 's', 'e'] then some (.bool false)
  else none

/-- The value of a decimal digit. -/
def digit (c : Char) : Nat :=
  c.toNat - '0'.toNat

/-- The number that a row of digits denotes. -/
def natOfDigits (digits : List Char) : Nat :=
  digits.foldl (fun n c => 10 * n + digit c) 0

/-- Digits without a superfluous zero at their head. -/
def isWhole (digits : List Char) : Bool :=
  match digits with
  | [] => false
  | ['0'] => true
  | '0' :: _ => false
  | _ => digits.all Char.isDigit

/-- Nothing, or `e` or `E` with a sign or none and at least one digit. -/
def isExponent (cs : List Char) : Bool :=
  match cs with
  | [] => true
  | e :: rest =>
      let digits := match rest with
        | '+' :: ds => ds
        | '-' :: ds => ds
        | ds => ds
      (e == 'e' || e == 'E') && !digits.isEmpty && digits.all Char.isDigit

/-- Nothing, or a point with at least one digit, and then an exponent or none. -/
def isFraction (cs : List Char) : Bool :=
  match cs with
  | '.' :: rest =>
      !(rest.takeWhile Char.isDigit).isEmpty && isExponent (rest.dropWhile Char.isDigit)
  | _ => isExponent cs

/-- The value of a number from its sign on. -/
def ofNumber? (cs : List Char) : Option Json :=
  let (negative, body) := match cs with
    | '-' :: rest => (true, rest)
    | _ => (false, cs)
  let whole := body.takeWhile Char.isDigit
  let rest := body.dropWhile Char.isDigit
  if !isWhole whole || !isFraction rest then none
  else if !rest.isEmpty || (negative && natOfDigits whole = 0) then
    some (.real (String.ofList cs))
  else
    some (.int (if negative then -natOfDigits whole else natOfDigits whole))

/-! ### Strings -/

/-- The first half of a surrogate pair. -/
def isHighSurrogate (unit : Nat) : Bool :=
  0xD800 ≤ unit && unit < 0xDC00

/-- The second half of a surrogate pair. -/
def isLowSurrogate (unit : Nat) : Bool :=
  0xDC00 ≤ unit && unit < 0xE000

/-- The character that a surrogate pair stands for. -/
def joinSurrogates (high low : Nat) : Char :=
  Char.ofNat (0x10000 + (high - 0xD800) * 0x400 + (low - 0xDC00))

/-- The characters of the units that a string consists of: the numbers of its plain characters
and those that its escapes give. Halves of surrogate pairs only count together. -/
def charsOfUnits? : List Nat → Option (List Char)
  | [] => some []
  | unit :: rest =>
      if isHighSurrogate unit then
        match rest with
        | low :: rest =>
            if isLowSurrogate low then (charsOfUnits? rest).map (joinSurrogates unit low :: ·)
            else none
        | [] => none
      else if isLowSurrogate unit then none
      else (charsOfUnits? rest).map (Char.ofNat unit :: ·)

/-- The text of the units that a string consists of. -/
def textOfUnits? (units : List Nat) : Option String :=
  (charsOfUnits? units).map String.ofList

/-! ### Lexical modes -/

/-- What the next character continues. What was read so far stands in reverse. -/
inductive Mode where
  /-- Nothing. -/
  | idle
  | word (letters : List Char)
  | number (chars : List Char)
  /-- A string. -/
  | string (units : List Nat)
  /-- A string, behind a backslash. -/
  | escape (units : List Nat)
  /-- A string, in the hexadecimal digits of an escape: how many are missing, and the number so
  far. -/
  | unicode (units : List Nat) (missing unit : Nat)

/-- A character that can continue a number. -/
def isNumberChar (c : Char) : Bool :=
  c.isDigit || c == '+' || c == '-' || c == '.' || c == 'e' || c == 'E'

/-- Behind a token. -/
def startToken (c : Char) : Option (Mode × List Token) :=
  match c with
  | ' ' | '\t' | '\n' | '\r' => some (.idle, [])
  | '[' => some (.idle, [.beginArray])
  | ']' => some (.idle, [.endArray])
  | '\x7b' => some (.idle, [.beginObject])
  | '\x7d' => some (.idle, [.endObject])
  | ',' => some (.idle, [.comma])
  | ':' => some (.idle, [.colon])
  | '"' => some (.string [], [])
  | '-' => some (.number ['-'], [])
  | c =>
      if c.isDigit then some (.number [c], [])
      else if c.isLower then some (.word [c], [])
      else none

/-- The value of a hexadecimal digit. -/
def hexValue? (c : Char) : Option Nat :=
  if c.isDigit then some (c.toNat - '0'.toNat)
  else if 'a' ≤ c ∧ c ≤ 'f' then some (c.toNat - 'a'.toNat + 10)
  else if 'A' ≤ c ∧ c ≤ 'F' then some (c.toNat - 'A'.toNat + 10)
  else none

/-- The character that a short escape stands for. -/
def shortEscape? (c : Char) : Option Char :=
  match c with
  | '"' => some '"'
  | '\\' => some '\\'
  | '/' => some '/'
  | 'b' => some '\x08'
  | 'f' => some '\x0c'
  | 'n' => some '\n'
  | 'r' => some '\r'
  | 't' => some '\t'
  | _ => none

/-- Takes a character: the mode behind it, and the tokens that it finishes. -/
def Mode.step (mode : Mode) (c : Char) : Option (Mode × List Token) :=
  match mode with
  | .idle => startToken c
  | .word letters =>
      if c.isLower then some (.word (c :: letters), [])
      else do
        let value ← ofWord? letters.reverse
        let (mode, tokens) ← startToken c
        return (mode, .atom value :: tokens)
  | .number chars =>
      if isNumberChar c then some (.number (c :: chars), [])
      else do
        let value ← ofNumber? chars.reverse
        let (mode, tokens) ← startToken c
        return (mode, .atom value :: tokens)
  | .string units =>
      if c = '"' then some (.idle, [.text (textOfUnits? units.reverse)])
      else if c = '\\' then some (.escape units, [])
      else if c.toNat < 0x20 then none
      else some (.string (c.toNat :: units), [])
  | .escape units =>
      if c = 'u' then some (.unicode units 4 0, [])
      else (shortEscape? c).map fun c => (.string (c.toNat :: units), [])
  | .unicode units missing unit => do
      let unit := 16 * unit + (← hexValue? c)
      if missing ≤ 1 then
        return (.string (unit :: units), [])
      return (.unicode units (missing - 1) unit, [])

/-- The tokens that the end of the text finishes. -/
def Mode.finish (mode : Mode) : Option (List Token) :=
  match mode with
  | .idle => some []
  | .word letters => (ofWord? letters.reverse).map fun value => [.atom value]
  | .number chars => (ofNumber? chars.reverse).map fun value => [.atom value]
  | _ => none

/-! ### The stack machine -/

/-- The members of an object; a garbled name is none. -/
abbrev Members := List (Option String × Json)

/-- The value of a string. -/
def ofText : Option String → Json
  | some text => .str text
  | none => .garbled

/-- The value of an object. -/
def ofMembers (members : Members) : Json :=
  match members.mapM fun (name, value) => name.map fun name => (name, value) with
  | some members => .obj members
  | none => .garbled

/-- An open bracket around a value that is being read. What was read before stands in
reverse. -/
inductive Frame where
  | item (before : List Json)
  | member (before : Members) (name : Option String)

/-- What may come next. -/
inductive Parser where
  | value (stack : List Frame)
  /-- An item or the end of the array. -/
  | firstItem (stack : List Frame)
  /-- A name or the end of the object. -/
  | firstName (stack : List Frame)
  | nextName (before : Members) (stack : List Frame)
  | colon (before : Members) (name : Option String) (stack : List Frame)
  /-- A comma or the end of the array. -/
  | afterItem (items : List Json) (stack : List Frame)
  /-- A comma or the end of the object. -/
  | afterMember (members : Members) (stack : List Frame)
  /-- Nothing. -/
  | done (value : Json)

/-- Hands a value to the bracket around it. -/
def deliver (value : Json) (stack : List Frame) : Parser :=
  match stack with
  | [] => .done value
  | .item before :: stack => .afterItem (value :: before) stack
  | .member before name :: stack => .afterMember ((name, value) :: before) stack

/-- Takes the first token of a value. -/
def startValue (stack : List Frame) (token : Token) : Option Parser :=
  match token with
  | .atom value => some (deliver value stack)
  | .text text => some (deliver (ofText text) stack)
  | .beginArray => some (.firstItem stack)
  | .beginObject => some (.firstName stack)
  | _ => none

/-- Takes a token. -/
def Parser.step (parser : Parser) (token : Token) : Option Parser :=
  match parser, token with
  | .value stack, token => startValue stack token
  | .firstItem stack, .endArray => some (deliver (.arr []) stack)
  | .firstItem stack, token => startValue (.item [] :: stack) token
  | .firstName stack, .endObject => some (deliver (ofMembers []) stack)
  | .firstName stack, .text name => some (.colon [] name stack)
  | .nextName before stack, .text name => some (.colon before name stack)
  | .colon before name stack, .colon => some (.value (.member before name :: stack))
  | .afterItem items stack, .comma => some (.value (.item items :: stack))
  | .afterItem items stack, .endArray => some (deliver (.arr items.reverse) stack)
  | .afterMember members stack, .comma => some (.nextName members stack)
  | .afterMember members stack, .endObject => some (deliver (ofMembers members.reverse) stack)
  | _, _ => none

/-! ### The reader -/

/-- A text in the middle of being read. -/
structure Reader where
  mode : Mode := .idle
  parser : Parser := .value []

/-- Takes a character. -/
def Reader.step (reader : Reader) (c : Char) : Option Reader := do
  let (mode, tokens) ← reader.mode.step c
  return { mode, parser := ← tokens.foldlM Parser.step reader.parser }

/-- The value, if the text may end here. -/
def Reader.finish (reader : Reader) : Option Json := do
  match ← (← reader.mode.finish).foldlM Parser.step reader.parser with
  | .done value => some value
  | _ => none

/-- The value that a text denotes. -/
def parse? (text : String) : Option Json := do
  (← text.toList.foldlM Reader.step {}).finish

end Json

end Lockstep
