import Lockstep.Proofs.Json.Reader

/-!
# How deep a text nests

The number of brackets that are open inside each other at some point of a text, counted on its
characters. Brackets inside strings do not count, so the count has to know where strings begin
and end. For the text of a value it is the depth of the value, so a bound on the depth of what is
read is a bound on the brackets that can be seen in the text.

## Main results

* `count_prettyAt`: the text of a value leaves as many brackets open as it found, and goes as
  deep as the value.
* `nesting_pretty`: the text of a value nests as deep as the value.
-/

namespace Lockstep

namespace Json

variable {c : Char} {cs : List Char} {opened deepest : Nat}

/-- Where a character of a text stands. -/
inductive Place where
  | outside
  | string
  /-- In a string, behind a backslash. -/
  | escape

/-- A text in the middle of being counted: how many brackets are open, and how many were open at
once so far. -/
structure Count where
  place : Place := .outside
  opened : Nat := 0
  deepest : Nat := 0

/-- Takes a character. -/
def Count.step (count : Count) (c : Char) : Count :=
  match count.place with
  | .outside =>
      match c with
      | '[' | '\x7b' =>
          { count with
            opened := count.opened + 1, deepest := max count.deepest (count.opened + 1) }
      | ']' | '\x7d' => { count with opened := count.opened - 1 }
      | '"' => { count with place := .string }
      | _ => count
  | .string =>
      match c with
      | '"' => { count with place := .outside }
      | '\\' => { count with place := .escape }
      | _ => count
  | .escape => { count with place := .string }

/-- The largest number of brackets that are open at once in a text. -/
def nesting (text : String) : Nat :=
  (text.toList.foldl Count.step {}).deepest

/-! ### Characters outside strings -/

/-- An opening bracket is counted. -/
theorem step_opening (c : Char) (h : c ∈ ['[', '\x7b']) :
    Count.step ⟨.outside, opened, deepest⟩ c =
      ⟨.outside, opened + 1, max deepest (opened + 1)⟩ := by
  simp only [List.mem_cons, List.not_mem_nil, or_false] at h
  rcases h with rfl | rfl <;> rfl

/-- A closing bracket closes one. -/
theorem step_closing (c : Char) (h : c ∈ [']', '\x7d']) :
    Count.step ⟨.outside, opened + 1, deepest⟩ c = ⟨.outside, opened, deepest⟩ := by
  simp only [List.mem_cons, List.not_mem_nil, or_false] at h
  rcases h with rfl | rfl <;> rfl

/-- What stands between values changes no count. -/
theorem step_between (c : Char) (h : c ∈ [',', ':', ' ', '\n']) :
    Count.step ⟨.outside, opened, deepest⟩ c = ⟨.outside, opened, deepest⟩ := by
  simp only [List.mem_cons, List.not_mem_nil, or_false] at h
  rcases h with rfl | rfl | rfl | rfl <;> rfl

/-- A digit changes no count. -/
theorem step_of_isDigit (h : c.isDigit = true) :
    Count.step ⟨.outside, opened, deepest⟩ c = ⟨.outside, opened, deepest⟩ := by
  unfold Count.step
  split
  · split
    case h_6 => rfl
    all_goals exact absurd h (by decide)
  all_goals contradiction

/-- Digits change no count. -/
theorem count_digits {digits : List Char} (h : ∀ c ∈ digits, c.isDigit = true) :
    digits.foldl Count.step ⟨.outside, opened, deepest⟩ = ⟨.outside, opened, deepest⟩ := by
  induction digits with
  | nil => rfl
  | cons d digits ih =>
      rw [List.foldl_cons, step_of_isDigit (h d List.mem_cons_self),
        ih fun c hc => h c (List.mem_cons_of_mem _ hc)]

/-- An integer changes no count. -/
theorem count_int (n : Int) :
    (toString n).toList.foldl Count.step ⟨.outside, opened, deepest⟩ =
      ⟨.outside, opened, deepest⟩ := by
  cases n with
  | ofNat n =>
      rw [toList_toString_ofNat]
      exact count_digits (isDigit_natDigits n)
  | negSucc n =>
      rw [toList_toString_negSucc, List.foldl_cons]
      exact count_digits (isDigit_natDigits (n + 1))

/-- Indentation changes no count. -/
theorem count_indentation (level : Nat) :
    (indentation level).toList.foldl Count.step ⟨.outside, opened, deepest⟩ =
      ⟨.outside, opened, deepest⟩ := by
  rw [indentation, String.toList_ofList]
  induction 2 * level with
  | zero => rfl
  | succ n ih =>
      rw [List.replicate_succ, List.foldl_cons]
      exact ih

/-! ### Strings -/

/-- Inside a string only quotes and backslashes matter. -/
theorem step_string (hquote : c ≠ '"') (hbackslash : c ≠ '\\') :
    Count.step ⟨.string, opened, deepest⟩ c = ⟨.string, opened, deepest⟩ := by
  unfold Count.step
  split
  case h_2 =>
    split
    · exact absurd rfl hquote
    · exact absurd rfl hbackslash
    · rfl
  all_goals contradiction

/-- A hexadecimal digit inside a string changes no count. -/
theorem step_hexDigit (n : Nat) (h : n < 16) :
    Count.step ⟨.string, opened, deepest⟩ (hexDigit n) = ⟨.string, opened, deepest⟩ := by
  have hplain : ∀ n < 16, hexDigit n ≠ '"' ∧ hexDigit n ≠ '\\' := by decide
  exact step_string (hplain n h).1 (hplain n h).2

/-- A string goes on behind each character of it. -/
theorem count_escape (c : Char) :
    (escape c).foldl Count.step ⟨.string, opened, deepest⟩ = ⟨.string, opened, deepest⟩ := by
  unfold escape
  split
  case h_8 hquote hbackslash _ _ _ _ _ =>
    split
    case isTrue hlt =>
      calc _ = Count.step (Count.step ⟨.string, opened, deepest⟩ (hexDigit (c.toNat / 16)))
                (hexDigit (c.toNat % 16)) := rfl
        _ = ⟨.string, opened, deepest⟩ := by
          rw [step_hexDigit (c.toNat / 16) (by omega), step_hexDigit (c.toNat % 16) (by omega)]
    case isFalse => exact step_string hquote hbackslash
  all_goals rfl

/-- A string changes no count, whatever brackets are in it. -/
theorem count_quote (text : String) :
    (quote text).toList.foldl Count.step ⟨.outside, opened, deepest⟩ =
      ⟨.outside, opened, deepest⟩ := by
  have hescapes : ∀ chars : List Char,
      (chars.flatMap escape).foldl Count.step ⟨.string, opened, deepest⟩ =
        ⟨.string, opened, deepest⟩ := by
    intro chars
    induction chars with
    | nil => rfl
    | cons c chars ih => rw [List.flatMap_cons, List.foldl_append, count_escape, ih]
  have hopen : Count.step ⟨.outside, opened, deepest⟩ '"' = ⟨.string, opened, deepest⟩ := rfl
  rw [quote, String.toList_ofList, List.cons_append, List.foldl_cons, List.foldl_append, hopen,
    hescapes]
  rfl

/-! ### Values -/

mutual

/-- The text of a value closes every bracket that it opens, and goes as deep as the value. -/
theorem count_prettyAt : ∀ (value : Json) (level : Nat) {opened deepest : Nat}, value.Plain →
    opened ≤ deepest →
    (value.prettyAt level).toList.foldl Count.step ⟨.outside, opened, deepest⟩ =
      ⟨.outside, opened, max deepest (opened + value.depth)⟩
  | .null, level, opened, deepest, _, hle | .bool true, level, opened, deepest, _, hle
  | .bool false, level, opened, deepest, _, hle => by
      rw [prettyAt, depth, Nat.add_zero, Nat.max_eq_left hle]
      · rfl
      all_goals simp
  | .int n, level, opened, deepest, _, hle => by
      rw [prettyAt, count_int]
      simp [depth, hle]
  | .str text, level, opened, deepest, _, hle => by
      rw [prettyAt, count_quote]
      simp [depth, hle]
  | .arr [], level, opened, deepest, _, hle => by
      have htext : (prettyAt level (.arr [])).toList = ['[', ']'] := by simp [prettyAt]
      rw [htext]
      rfl
  | .arr (item :: rest), level, opened, deepest, ⟨hitem, hrest⟩, hle => by
      have hdepth : max (max (max deepest (opened + 1)) (opened + 1 + item.depth))
          (opened + 1 + depthItems rest) =
          max deepest (opened + (Json.arr (item :: rest)).depth) := by
        rw [depth, depthItems]
        omega
      rw [toList_prettyAt_arr_cons]
      simp only [List.foldl_cons, List.foldl_append, List.foldl_nil]
      rw [step_opening '[' (by decide), step_between '\n' (by decide), count_indentation,
        count_prettyAt item (level + 1) hitem (by omega),
        count_prettyItems rest (level + 1) hrest (by omega), step_between '\n' (by decide),
        count_indentation, step_closing ']' (by decide), hdepth]
  | .obj [], level, opened, deepest, _, hle => by
      have htext : (prettyAt level (.obj [])).toList = ['\x7b', '\x7d'] := by simp [prettyAt]
      rw [htext]
      rfl
  | .obj ((name, value) :: rest), level, opened, deepest, ⟨hvalue, hrest⟩, hle => by
      have hdepth : max (max (max deepest (opened + 1)) (opened + 1 + value.depth))
          (opened + 1 + depthMembers rest) =
          max deepest (opened + (Json.obj ((name, value) :: rest)).depth) := by
        rw [depth, depthMembers]
        omega
      rw [toList_prettyAt_obj_cons]
      simp only [List.foldl_cons, List.foldl_append, List.foldl_nil]
      rw [step_opening '\x7b' (by decide), step_between '\n' (by decide), count_indentation,
        count_quote, step_between ':' (by decide), step_between ' ' (by decide),
        count_prettyAt value (level + 1) hvalue (by omega),
        count_prettyMembers rest (level + 1) hrest (by omega), step_between '\n' (by decide),
        count_indentation, step_closing '\x7d' (by decide), hdepth]

/-- The items behind the first one are counted as deep as they are. -/
theorem count_prettyItems : ∀ (items : List Json) (level : Nat) {opened deepest : Nat},
    PlainItems items → opened ≤ deepest →
    (prettyItems level items).toList.foldl Count.step ⟨.outside, opened, deepest⟩ =
      ⟨.outside, opened, max deepest (opened + depthItems items)⟩
  | [], level, opened, deepest, _, hle => by
      simp [prettyItems, depthItems, hle]
  | item :: rest, level, opened, deepest, ⟨hitem, hrest⟩, hle => by
      rw [toList_prettyItems_cons]
      simp only [List.foldl_cons, List.foldl_append]
      rw [step_between ',' (by decide), step_between '\n' (by decide), count_indentation,
        count_prettyAt item level hitem hle, count_prettyItems rest level hrest (by omega),
        depthItems, Nat.max_assoc, Nat.add_max_add_left]

/-- The members behind the first one are counted as deep as they are. -/
theorem count_prettyMembers : ∀ (members : List (String × Json)) (level : Nat)
    {opened deepest : Nat}, PlainMembers members → opened ≤ deepest →
    (prettyMembers level members).toList.foldl Count.step ⟨.outside, opened, deepest⟩ =
      ⟨.outside, opened, max deepest (opened + depthMembers members)⟩
  | [], level, opened, deepest, _, hle => by
      simp [prettyMembers, depthMembers, hle]
  | (name, value) :: rest, level, opened, deepest, ⟨hvalue, hrest⟩, hle => by
      rw [toList_prettyMembers_cons]
      simp only [List.foldl_cons, List.foldl_append]
      rw [step_between ',' (by decide), step_between '\n' (by decide), count_indentation,
        count_quote, step_between ':' (by decide), step_between ' ' (by decide),
        count_prettyAt value level hvalue hle, count_prettyMembers rest level hrest (by omega),
        depthMembers, Nat.max_assoc, Nat.add_max_add_left]

end

/-- The text of a value nests as deep as the value. -/
theorem nesting_pretty {value : Json} (h : value.Plain) : nesting value.pretty = value.depth := by
  rw [nesting, pretty, count_prettyAt value 0 h (Nat.zero_le 0), Nat.zero_add, Nat.zero_max]

end Json

end Lockstep
