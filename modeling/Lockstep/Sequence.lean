/-!
# Sequences

Two operations on lists: putting an element behind another, and taking the one element of a
list that has just one.
-/

namespace Lockstep

/-- Puts `new` behind the first `old` of a list, or at the end when there is none. -/
def insertAfter {α : Type} [DecidableEq α] (old new : α) : List α → List α
  | [] => [new]
  | x :: xs => if x = old then x :: new :: xs else x :: insertAfter old new xs

/-- The element of a list that has exactly one. -/
def sole? {α : Type} : List α → Option α
  | [x] => some x
  | _ => none

/-- The first element with the least key. -/
def leastBy? {α : Type} (key : α → Nat) (xs : List α) : Option α :=
  xs.foldl (fun best x => match best with
    | none => some x
    | some y => if key x < key y then some x else some y) none

/-- The last element with the greatest key. -/
def greatestBy? {α : Type} (key : α → Nat) (xs : List α) : Option α :=
  xs.foldl (fun best x => match best with
    | none => some x
    | some y => if key x < key y then some y else some x) none

/-- The elements are those that there were and the new one. -/
@[simp]
theorem mem_insertAfter {α : Type} [DecidableEq α] {old new x : α} {xs : List α} :
    x ∈ insertAfter old new xs ↔ x = new ∨ x ∈ xs := by
  induction xs with
  | nil => simp [insertAfter]
  | cons y ys ih =>
    rw [insertAfter]
    split
    · simp only [List.mem_cons]
      exact or_left_comm
    · simp only [List.mem_cons, ih]
      exact or_left_comm

/-- There is one element more. -/
@[simp]
theorem length_insertAfter {α : Type} [DecidableEq α] {old new : α} {xs : List α} :
    (insertAfter old new xs).length = xs.length + 1 := by
  induction xs with
  | nil => rfl
  | cons y ys ih =>
    rw [insertAfter]
    split <;> simp [ih]

/-- An element is the sole one of a list exactly when the list consists of it. -/
theorem sole?_eq_some {α : Type} {xs : List α} {x : α} : sole? xs = some x ↔ xs = [x] := by
  match xs with
  | [] => simp [sole?]
  | [y] => simp [sole?]
  | y :: z :: ys => simp [sole?]

end Lockstep
