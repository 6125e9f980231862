import Lockstep.Json.Reader
import Mathlib.Data.List.TakeWhile

/-!
# Reading what was written

The printer and the reader are inverse on every value that denotes something: a value without
garbled strings whose numbers are all integers. The text is followed character by character, so
each statement says how the reader goes on behind a part of the text, whatever comes next. Words
and numbers are the exception: nothing marks their end, so what comes next must not continue
them.

## Main results

* `read_quote`: a string is read as itself, escapes and all.
* `read_int`: so is an integer of any size.
* `read_prettyAt`: a value is delivered to the bracket around it, at any level of indentation.
* `parse?_pretty`: the text of a value denotes the value.
-/

namespace Lockstep

namespace Json

variable {c : Char} {cs : List Char} {mode : Mode} {tokens : List Token} {token : Token}
  {parser : Parser} {stack : List Frame} {value : Json} {units : List Nat}

mutual

/-- A value without garbled parts, all of whose numbers are integers. -/
def Plain : Json → Prop
  | .real _ | .garbled => False
  | .arr items => PlainItems items
  | .obj members => PlainMembers members
  | .null | .bool _ | .int _ | .str _ => True

/-- Items that are all plain. -/
def PlainItems : List Json → Prop
  | [] => True
  | item :: rest => item.Plain ∧ PlainItems rest

/-- Members whose values are all plain. -/
def PlainMembers : List (String × Json) → Prop
  | [] => True
  | (_, value) :: rest => value.Plain ∧ PlainMembers rest

end

/-! ### Going on from a point of the text -/

/-- The value of a text of which the rest is still to be read. -/
def Reader.read (reader : Reader) (rest : List Char) : Option Json :=
  (rest.foldlM Reader.step reader).bind Reader.finish

/-- A text is read character by character. -/
theorem parse?_eq_read (text : String) : parse? text = Reader.read {} text.toList := rfl

/-- At the end of the text the reader gives what it has read. -/
theorem read_nil (reader : Reader) : reader.read [] = reader.finish := rfl

/-- The first character is read first, and the rest from where it leads. -/
theorem read_cons (reader : Reader) (c : Char) (cs : List Char) :
    reader.read (c :: cs) = (reader.step c).bind (·.read cs) := by
  rw [Reader.read, List.foldlM_cons]
  cases reader.step c <;> rfl

/-- A character that only changes the mode. -/
theorem read_mode (next : Mode) (h : mode.step c = some (next, [])) :
    Reader.read ⟨mode, parser⟩ (c :: cs) = Reader.read ⟨next, parser⟩ cs := by
  rw [read_cons, Reader.step, h]
  rfl

/-- A character that is a token, or finishes one. -/
theorem read_token (token : Token) (h : mode.step c = some (.idle, [token])) :
    Reader.read ⟨mode, parser⟩ (c :: cs) =
      (parser.step token).bind fun parser => Reader.read ⟨.idle, parser⟩ cs := by
  rw [read_cons, Reader.step, h]
  cases hstep : parser.step token <;> simp [hstep]

/-- A bracket, a comma or a colon. -/
theorem read_mark (token : Token) (next : Parser) (hc : startToken c = some (.idle, [token]))
    (h : parser.step token = some next) :
    Reader.read ⟨.idle, parser⟩ (c :: cs) = Reader.read ⟨.idle, next⟩ cs := by
  have hmode : Mode.idle.step c = some (.idle, [token]) := hc
  rw [read_token token hmode, h, Option.bind_some]

/-- Indentation is read over. -/
theorem read_indentation (level : Nat) :
    Reader.read ⟨.idle, parser⟩ ((indentation level).toList ++ cs) =
      Reader.read ⟨.idle, parser⟩ cs := by
  rw [indentation, String.toList_ofList]
  induction 2 * level with
  | zero => rfl
  | succ n ih => rw [List.replicate_succ, List.cons_append, read_mode .idle rfl, ih]

/-! ### Strings -/

/-- A hexadecimal digit is read as the number that it was written for. -/
theorem hexValue?_hexDigit : ∀ n < 16, hexValue? (hexDigit n) = some n := by
  decide

/-- A character as it is written in a string is read as its number. -/
theorem read_escape :
    Reader.read ⟨.string units, parser⟩ (escape c ++ cs) =
      Reader.read ⟨.string (c.toNat :: units), parser⟩ cs := by
  unfold escape
  split
  case h_8 hquote hbackslash _ _ _ _ _ =>
    split
    case isTrue hlt =>
      have hhigh := hexValue?_hexDigit (c.toNat / 16) (by omega)
      have hlow := hexValue?_hexDigit (c.toNat % 16) (by omega)
      have hsum : 16 * (c.toNat / 16) + c.toNat % 16 = c.toNat := Nat.div_add_mod _ _
      simp only [List.cons_append, List.nil_append]
      rw [read_mode (.escape units) rfl, read_mode (.unicode units 4 0) rfl,
        read_mode (.unicode units 3 0) rfl, read_mode (.unicode units 2 0) rfl,
        read_mode (.unicode units 1 (c.toNat / 16)) (by simp [Mode.step, hhigh]),
        read_mode (.string (c.toNat :: units)) (by simp [Mode.step, hlow, hsum])]
    case isFalse hge =>
      exact read_mode _ (by rw [Mode.step, if_neg hquote, if_neg hbackslash, if_neg hge])
  all_goals rfl

/-- The escaped characters of a string are read as the characters. -/
theorem read_escapes (chars : List Char) :
    Reader.read ⟨.string units, parser⟩ (chars.flatMap escape ++ cs) =
      Reader.read ⟨.string ((chars.map Char.toNat).reverse ++ units), parser⟩ cs := by
  induction chars generalizing units with
  | nil => rfl
  | cons c chars ih =>
      rw [List.flatMap_cons, List.append_assoc, read_escape, ih, List.map_cons,
        List.reverse_cons, List.append_assoc, List.singleton_append]

/-- Characters are no halves of surrogate pairs. -/
theorem charsOfUnits?_toNat (chars : List Char) :
    charsOfUnits? (chars.map Char.toNat) = some chars := by
  induction chars with
  | nil => rfl
  | cons c chars ih =>
      have hvalid : c.toNat < 0xD800 ∨ 0xDFFF < c.toNat ∧ c.toNat < 0x110000 := c.valid
      have hhigh : isHighSurrogate c.toNat = false := by
        simp only [isHighSurrogate, Bool.and_eq_false_iff, decide_eq_false_iff_not]
        omega
      have hlow : isLowSurrogate c.toNat = false := by
        simp only [isLowSurrogate, Bool.and_eq_false_iff, decide_eq_false_iff_not]
        omega
      rw [List.map_cons, charsOfUnits?.eq_def]
      simp [hhigh, hlow, ih]

/-- A string is read as a token. -/
theorem read_quote (text : String) :
    Reader.read ⟨.idle, parser⟩ ((quote text).toList ++ cs) =
      (parser.step (.text (some text))).bind fun parser => Reader.read ⟨.idle, parser⟩ cs := by
  have htext : textOfUnits? (text.toList.map Char.toNat) = some text := by
    rw [textOfUnits?, charsOfUnits?_toNat, Option.map_some, String.ofList_toList]
  rw [quote, String.toList_ofList, List.append_assoc, List.cons_append, read_mode (.string []) rfl,
    read_escapes, List.singleton_append, List.append_nil,
    read_token (.text (textOfUnits? (text.toList.map Char.toNat))) (by simp [Mode.step]), htext]

/-! ### Words and numbers -/

/-- A text that does not go on with a letter of a word or a character of a number. -/
def Ends (rest : List Char) : Prop :=
  ∀ c ∈ rest.head?, c.isLower = false ∧ isNumberChar c = false

/-- A token ends where the text ends. -/
theorem ends_nil : Ends [] := by
  simp [Ends]

/-- A character that continues neither a word nor a number ends a token. -/
theorem ends_cons (hlower : c.isLower = false) (hnumber : isNumberChar c = false) :
    Ends (c :: cs) := by
  simp [Ends, hlower, hnumber]

/-- A word or a number that was read, but is only known to be over when something else comes. -/
structure Mode.Holds (mode : Mode) (value : Json) : Prop where
  finish : mode.finish = some [.atom value]
  step : ∀ c, c.isLower = false → isNumberChar c = false →
    mode.step c = (startToken c).map fun (next, tokens) => (next, .atom value :: tokens)

/-- The letters of a word hold the value that the word stands for. -/
theorem holds_word {letters : List Char} (h : ofWord? letters.reverse = some value) :
    (Mode.word letters).Holds value where
  finish := by rw [Mode.finish, h]; rfl
  step c hlower _ := by
    simp only [Mode.step, hlower, h]
    cases startToken c <;> rfl

/-- The characters of a number hold its value. -/
theorem holds_number {chars : List Char} (h : ofNumber? chars.reverse = some value) :
    (Mode.number chars).Holds value where
  finish := by rw [Mode.finish, h]; rfl
  step c _ hnumber := by
    simp only [Mode.step, hnumber, h]
    cases startToken c <;> rfl

/-- What ends a word or a number makes a token of it. -/
theorem read_held (hmode : mode.Holds value) (hcs : Ends cs) :
    Reader.read ⟨mode, parser⟩ cs =
      (parser.step (.atom value)).bind fun parser => Reader.read ⟨.idle, parser⟩ cs := by
  cases cs with
  | nil =>
      rw [read_nil, Reader.finish, hmode.finish]
      cases hstep : parser.step (.atom value) with
      | none => simp [hstep]
      | some next => simp [hstep, read_nil, Reader.finish, Mode.finish]
  | cons c cs =>
      obtain ⟨hlower, hnumber⟩ := hcs c rfl
      rw [read_cons, Reader.step, hmode.step c hlower hnumber]
      cases hstep : parser.step (.atom value) with
      | none => cases startToken c <;> simp [hstep]
      | some next =>
          cases hstart : startToken c <;>
            simp [hstep, hstart, read_cons, Reader.step, Mode.step]

/-- The digits of a number are digits. -/
theorem isDigit_natDigits (n : Nat) : ∀ c ∈ Nat.toDigits 10 n, c.isDigit = true :=
  fun _ hc => Nat.isDigit_of_mem_toDigits (by decide) (by decide) hc

/-- Only zero is written with a zero at its head. -/
theorem head?_natDigits (n : Nat) (hn : n ≠ 0) : (Nat.toDigits 10 n).head? ≠ some '0' := by
  induction n using Nat.strongRecOn with
  | _ n ih =>
      by_cases hlt : n < 10
      · rw [Nat.toDigits_of_lt_base hlt]
        have hsmall : ∀ d < 10, d ≠ 0 → d.digitChar ≠ '0' := by decide
        simpa using hsmall n hlt hn
      · obtain ⟨d, ds, hds⟩ :=
          List.exists_cons_of_ne_nil (Nat.toDigits_ne_nil (b := 10) (n := n / 10))
        have hhead := ih (n / 10) (by omega) (by omega)
        rw [hds] at hhead
        rwa [Nat.toDigits_of_base_le (by decide) (Nat.le_of_not_lt hlt), hds]

/-- The digits of a number are a whole number without a leading zero. -/
theorem isWhole_natDigits (n : Nat) : isWhole (Nat.toDigits 10 n) = true := by
  by_cases hn : n = 0
  · subst hn
    rfl
  · have hhead := head?_natDigits n hn
    have hdigits := isDigit_natDigits n
    unfold isWhole
    split
    · rename_i hnil
      exact absurd hnil Nat.toDigits_ne_nil
    · rfl
    · rename_i hzero
      exact absurd (by rw [hzero]; rfl) hhead
    · exact List.all_eq_true.mpr hdigits

/-- The digits of a number have it as their value. -/
theorem natOfDigits_natDigits (n : Nat) : natOfDigits (Nat.toDigits 10 n) = n := by
  have h := Nat.ofDigitChars_ten_toDigits (n := n)
  rwa [Nat.ofDigitChars_eq_foldl] at h

/-- The digits of a number are read to their end. -/
theorem takeWhile_natDigits (n : Nat) :
    (Nat.toDigits 10 n).takeWhile Char.isDigit = Nat.toDigits 10 n :=
  List.takeWhile_eq_self_iff.mpr (isDigit_natDigits n)

/-- Nothing is left behind the digits of a number. -/
theorem dropWhile_natDigits (n : Nat) : (Nat.toDigits 10 n).dropWhile Char.isDigit = [] :=
  List.dropWhile_eq_nil_iff.mpr (isDigit_natDigits n)

/-- The digits of a number are read as it. -/
theorem ofNumber?_natDigits (n : Nat) : ofNumber? (Nat.toDigits 10 n) = some (.int n) := by
  unfold ofNumber?
  split
  rename_i negative body hsign
  have hbody : negative = false ∧ body = Nat.toDigits 10 n := by
    split at hsign
    · rename_i rest hminus
      exact absurd (isDigit_natDigits n '-' (hminus ▸ List.mem_cons_self)) (by decide)
    · exact ⟨(Prod.mk.inj hsign).1.symm, (Prod.mk.inj hsign).2.symm⟩
  obtain ⟨rfl, rfl⟩ := hbody
  simp [takeWhile_natDigits, dropWhile_natDigits, isWhole_natDigits, natOfDigits_natDigits,
    isFraction, isExponent]

/-- A minus and the digits of a number are read as its negative, which is why the number is not
zero. -/
theorem ofNumber?_neg_natDigits {n : Nat} (hn : n ≠ 0) :
    ofNumber? ('-' :: Nat.toDigits 10 n) = some (.int (-n)) := by
  simp [ofNumber?, takeWhile_natDigits, dropWhile_natDigits, isWhole_natDigits,
    natOfDigits_natDigits, isFraction, isExponent, hn]

/-- A digit starts a number. -/
theorem startToken_of_isDigit (h : c.isDigit = true) : startToken c = some (.number [c], []) := by
  unfold startToken
  split
  case h_13 => rw [if_pos h]
  all_goals exact absurd h (by decide)

/-- Digits continue a number. -/
theorem read_digits {chars digits : List Char} (h : ∀ c ∈ digits, c.isDigit = true) :
    Reader.read ⟨.number chars, parser⟩ (digits ++ cs) =
      Reader.read ⟨.number (digits.reverse ++ chars), parser⟩ cs := by
  induction digits generalizing chars with
  | nil => rfl
  | cons d digits ih =>
      have hd : isNumberChar d = true := by simp [isNumberChar, h d]
      rw [List.cons_append, read_mode (.number (d :: chars)) (by rw [Mode.step, if_pos hd]),
        ih fun c hc => h c (List.mem_cons_of_mem _ hc), List.reverse_cons, List.append_assoc,
        List.singleton_append]

/-- A number of digits behind a character that starts it is read as its value. -/
theorem read_number {first : Char} {digits : List Char}
    (hfirst : startToken first = some (.number [first], []))
    (hdigits : ∀ c ∈ digits, c.isDigit = true) (h : ofNumber? (first :: digits) = some value)
    (hcs : Ends cs) :
    Reader.read ⟨.idle, parser⟩ (first :: digits ++ cs) =
      (parser.step (.atom value)).bind fun parser => Reader.read ⟨.idle, parser⟩ cs := by
  have hmode : Mode.idle.step first = some (.number [first], []) := hfirst
  rw [List.cons_append, read_mode _ hmode, read_digits hdigits]
  exact read_held (holds_number (by simpa using h)) hcs

/-- A natural number is written in digits. -/
theorem toList_toString_ofNat (n : Nat) :
    (toString (Int.ofNat n)).toList = Nat.toDigits 10 n := by
  rw [show toString (Int.ofNat n) = toString n from rfl, Nat.toString_eq_ofList_toDigits,
    String.toList_ofList]

/-- A negative number is written as a minus and digits. -/
theorem toList_toString_negSucc (n : Nat) :
    (toString (Int.negSucc n)).toList = '-' :: Nat.toDigits 10 (n + 1) := by
  rw [show toString (Int.negSucc n) = "-" ++ toString (n + 1) from rfl,
    Nat.toString_eq_ofList_toDigits, String.toList_append, String.toList_ofList,
    String.toList_ofList, List.singleton_append]

/-- An integer that was written is read as it is. -/
theorem read_int (n : Int) (hcs : Ends cs) :
    Reader.read ⟨.idle, parser⟩ ((toString n).toList ++ cs) =
      (parser.step (.atom (.int n))).bind fun parser => Reader.read ⟨.idle, parser⟩ cs := by
  cases n with
  | ofNat n =>
      obtain ⟨d, ds, hds⟩ := List.exists_cons_of_ne_nil (Nat.toDigits_ne_nil (b := 10) (n := n))
      have hdigits := isDigit_natDigits n
      rw [hds] at hdigits
      rw [toList_toString_ofNat, hds]
      refine read_number (startToken_of_isDigit (hdigits d List.mem_cons_self))
        (fun c hc => hdigits c (List.mem_cons_of_mem _ hc)) ?_ hcs
      rw [← hds]
      exact ofNumber?_natDigits n
  | negSucc n =>
      rw [toList_toString_negSucc]
      exact read_number rfl (isDigit_natDigits (n + 1)) (ofNumber?_neg_natDigits (by omega)) hcs

/-- A word is read as the value that it stands for. -/
theorem read_word (letters : List Char) (value : Json) (h : ofWord? letters = some value)
    (hcs : Ends cs) :
    Reader.read ⟨.idle, parser⟩ (letters ++ cs) =
      (parser.step (.atom value)).bind fun parser => Reader.read ⟨.idle, parser⟩ cs := by
  have hread : Reader.read ⟨.idle, parser⟩ (letters ++ cs) =
      Reader.read ⟨.word letters.reverse, parser⟩ cs := by
    unfold ofWord? at h
    split_ifs at h with hnull htrue hfalse
    · subst hnull
      rfl
    · subst htrue
      rfl
    · subst hfalse
      rfl
  rw [hread]
  exact read_held (holds_word (by rwa [List.reverse_reverse])) hcs

/-! ### The characters of arrays and objects -/

/-- The text of the items behind the first one. -/
theorem toList_prettyItems_cons (level : Nat) (item : Json) (rest : List Json) :
    (prettyItems level (item :: rest)).toList =
      ',' :: '\n' :: ((indentation level).toList ++ ((item.prettyAt level).toList ++
        (prettyItems level rest).toList)) := by
  simp [prettyItems]

/-- The text of the members behind the first one. -/
theorem toList_prettyMembers_cons (level : Nat) (name : String) (value : Json)
    (rest : List (String × Json)) :
    (prettyMembers level ((name, value) :: rest)).toList =
      ',' :: '\n' :: ((indentation level).toList ++ ((quote name).toList ++
        ':' :: ' ' :: ((value.prettyAt level).toList ++ (prettyMembers level rest).toList))) := by
  simp [prettyMembers]

/-- The text of a list that is not empty. -/
theorem toList_prettyAt_arr_cons (level : Nat) (item : Json) (rest : List Json) :
    (prettyAt level (.arr (item :: rest))).toList =
      '[' :: '\n' :: ((indentation (level + 1)).toList ++ ((item.prettyAt (level + 1)).toList ++
        ((prettyItems (level + 1) rest).toList ++
          '\n' :: ((indentation level).toList ++ [']'])))) := by
  simp [prettyAt]

/-- The text of an object that is not empty. -/
theorem toList_prettyAt_obj_cons (level : Nat) (name : String) (value : Json)
    (rest : List (String × Json)) :
    (prettyAt level (.obj ((name, value) :: rest))).toList =
      '\x7b' :: '\n' :: ((indentation (level + 1)).toList ++ ((quote name).toList ++
        ':' :: ' ' :: ((value.prettyAt (level + 1)).toList ++
          ((prettyMembers (level + 1) rest).toList ++
            '\n' :: ((indentation level).toList ++ ['\x7d']))))) := by
  simp [prettyAt]

/-- Behind an item its token ends, whether other items follow or not. -/
theorem ends_prettyItems (level : Nat) (items : List Json) (hcs : Ends cs) :
    Ends ((prettyItems level items).toList ++ cs) := by
  cases items with
  | nil => exact hcs
  | cons item rest =>
      rw [toList_prettyItems_cons]
      exact ends_cons rfl rfl

/-- Behind a value its token ends, whether other members follow or not. -/
theorem ends_prettyMembers (level : Nat) (members : List (String × Json)) (hcs : Ends cs) :
    Ends ((prettyMembers level members).toList ++ cs) := by
  cases members with
  | nil => exact hcs
  | cons member rest =>
      rw [toList_prettyMembers_cons]
      exact ends_cons rfl rfl

/-! ### Values -/

/-- The first token of a value makes the parser go on inside the brackets `stack`. -/
def Parser.Takes (parser : Parser) (stack : List Frame) : Prop :=
  ∀ token, token ≠ .endArray → parser.step token = startValue stack token

/-- A parser that waits for a value takes one. -/
theorem takes_value (stack : List Frame) : (Parser.value stack).Takes stack :=
  fun _ _ => rfl

/-- A parser that waits for the first item of a list takes one. -/
theorem takes_firstItem (stack : List Frame) :
    (Parser.firstItem stack).Takes (.item [] :: stack) := by
  intro token h
  cases token with
  | endArray => exact absurd rfl h
  | _ => rfl

/-- Members as the parser collects them. -/
def named (members : List (String × Json)) : Members :=
  members.map fun member => (some member.1, member.2)

/-- Members that all have names are read as they are. -/
theorem mapM_named {read : Option String × Json → Option (String × Json)}
    (hread : ∀ name value, read (some name, value) = some (name, value))
    (members : List (String × Json)) : (named members).mapM read = some members := by
  induction members with
  | nil => rfl
  | cons member rest ih =>
      rw [named, List.map_cons, List.mapM_cons, hread, ← named, ih]
      rfl

/-- Members that all have names make up an object. -/
theorem ofMembers_named (members : List (String × Json)) :
    ofMembers (named members) = .obj members := by
  rw [ofMembers, mapM_named fun _ _ => rfl]

mutual

/-- The text of a value delivers the value to the bracket around it. -/
theorem read_prettyAt : ∀ (value : Json) (level : Nat) {parser : Parser} {stack : List Frame}
    {cs : List Char}, value.Plain → parser.Takes stack → Ends cs →
    Reader.read ⟨.idle, parser⟩ ((value.prettyAt level).toList ++ cs) =
      Reader.read ⟨.idle, deliver value stack⟩ cs
  | .null, level, parser, stack, cs, _, htakes, hcs => by
      rw [prettyAt, read_word _ .null rfl hcs, htakes _ (by simp)]
      rfl
  | .bool true, level, parser, stack, cs, _, htakes, hcs => by
      rw [prettyAt, read_word _ (.bool true) rfl hcs, htakes _ (by simp)]
      rfl
  | .bool false, level, parser, stack, cs, _, htakes, hcs => by
      rw [prettyAt, read_word _ (.bool false) rfl hcs, htakes _ (by simp)]
      rfl
  | .int n, level, parser, stack, cs, _, htakes, hcs => by
      rw [prettyAt, read_int n hcs, htakes _ (by simp)]
      rfl
  | .str text, level, parser, stack, cs, _, htakes, hcs => by
      rw [prettyAt, read_quote, htakes _ (by simp)]
      rfl
  | .arr [], level, parser, stack, cs, _, htakes, hcs => by
      have htext : (prettyAt level (.arr [])).toList = ['[', ']'] := by simp [prettyAt]
      rw [htext, List.cons_append,
        read_mark .beginArray (.firstItem stack) rfl (htakes _ (by simp))]
      rfl
  | .arr (item :: rest), level, parser, stack, cs, ⟨hitem, hrest⟩, htakes, hcs => by
      rw [toList_prettyAt_arr_cons]
      simp only [List.cons_append, List.append_assoc]
      rw [read_mark .beginArray (.firstItem stack) rfl (htakes _ (by simp)), read_mode .idle rfl,
        read_indentation,
        read_prettyAt item (level + 1) hitem (takes_firstItem stack)
          (ends_prettyItems _ _ (ends_cons rfl rfl)),
        deliver, read_prettyItems rest (level + 1) hrest (ends_cons rfl rfl), read_mode .idle rfl,
        read_indentation, read_mark .endArray _ rfl rfl]
      simp
  | .obj [], level, parser, stack, cs, _, htakes, hcs => by
      have htext : (prettyAt level (.obj [])).toList = ['\x7b', '\x7d'] := by simp [prettyAt]
      rw [htext, List.cons_append,
        read_mark .beginObject (.firstName stack) rfl (htakes _ (by simp))]
      rfl
  | .obj ((name, value) :: rest), level, parser, stack, cs, ⟨hvalue, hrest⟩, htakes, hcs => by
      rw [toList_prettyAt_obj_cons]
      simp only [List.cons_append, List.append_assoc]
      rw [read_mark .beginObject (.firstName stack) rfl (htakes _ (by simp)), read_mode .idle rfl,
        read_indentation, read_quote, Parser.step, Option.bind_some,
        read_mark .colon (.value (.member [] (some name) :: stack)) rfl rfl, read_mode .idle rfl,
        read_prettyAt value (level + 1) hvalue (takes_value _)
          (ends_prettyMembers _ _ (ends_cons rfl rfl)),
        deliver, read_prettyMembers rest (level + 1) hrest (ends_cons rfl rfl), read_mode .idle rfl,
        read_indentation, read_mark .endObject _ rfl rfl]
      have hmembers : ((named rest).reverse ++ [(some name, value)]).reverse =
          named ((name, value) :: rest) := by
        simp [named]
      rw [hmembers, ofMembers_named, List.nil_append]

/-- The items behind the first one join those before them. -/
theorem read_prettyItems : ∀ (items : List Json) (level : Nat) {before : List Json}
    {stack : List Frame} {cs : List Char}, PlainItems items → Ends cs →
    Reader.read ⟨.idle, .afterItem before stack⟩ ((prettyItems level items).toList ++ cs) =
      Reader.read ⟨.idle, .afterItem (items.reverse ++ before) stack⟩ cs
  | [], level, before, stack, cs, _, _ => rfl
  | item :: rest, level, before, stack, cs, ⟨hitem, hrest⟩, hcs => by
      rw [toList_prettyItems_cons]
      simp only [List.cons_append, List.append_assoc]
      rw [read_mark .comma (.value (.item before :: stack)) rfl rfl, read_mode .idle rfl,
        read_indentation,
        read_prettyAt item level hitem (takes_value _) (ends_prettyItems _ _ hcs), deliver,
        read_prettyItems rest level hrest hcs, List.reverse_cons, List.append_assoc,
        List.singleton_append]

/-- So do the members behind the first one. -/
theorem read_prettyMembers : ∀ (members : List (String × Json)) (level : Nat) {before : Members}
    {stack : List Frame} {cs : List Char}, PlainMembers members → Ends cs →
    Reader.read ⟨.idle, .afterMember before stack⟩ ((prettyMembers level members).toList ++ cs) =
      Reader.read ⟨.idle, .afterMember ((named members).reverse ++ before) stack⟩ cs
  | [], level, before, stack, cs, _, _ => rfl
  | (name, value) :: rest, level, before, stack, cs, ⟨hvalue, hrest⟩, hcs => by
      rw [toList_prettyMembers_cons]
      simp only [List.cons_append, List.append_assoc]
      rw [read_mark .comma (.nextName before stack) rfl rfl, read_mode .idle rfl,
        read_indentation, read_quote, Parser.step, Option.bind_some,
        read_mark .colon (.value (.member before (some name) :: stack)) rfl rfl,
        read_mode .idle rfl,
        read_prettyAt value level hvalue (takes_value _) (ends_prettyMembers _ _ hcs), deliver,
        read_prettyMembers rest level hrest hcs]
      simp [named]

end

/-- The text of a value denotes the value. -/
theorem parse?_pretty (h : value.Plain) : parse? value.pretty = some value := by
  have hread := read_prettyAt value 0 h (takes_value []) ends_nil
  rw [List.append_nil] at hread
  rw [parse?_eq_read, pretty, hread]
  rfl

end Json

end Lockstep
