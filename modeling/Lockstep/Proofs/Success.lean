import Lockstep.Error
import Mathlib.Data.List.Forall2

/-!
# Computations that succeed

A computation over a list that succeeds on every element of it is the pure computation of the
values. A computation in parts that succeeds does so part by part.
-/

namespace Lockstep

variable {ε α β : Type} {l : List α}

/-- A computation that has a value for every element gives the list of the values. -/
theorem mapM_ok {g : α → Except ε β} {k : α → β} (h : ∀ a ∈ l, g a = .ok (k a)) :
    l.mapM g = .ok (l.map k) := by
  induction l with
  | nil => rfl
  | cons a l ih =>
      have hl : l.mapM g = .ok (l.map k) := ih fun x hx => h x (List.mem_cons_of_mem _ hx)
      rw [List.mapM_cons, h a List.mem_cons_self, hl]
      rfl

/-- A computation that succeeds on every element with a value as required. -/
theorem exists_mapM_ok {g : α → Except ε β} {P : α → β → Prop}
    (h : ∀ a ∈ l, ∃ b, g a = .ok b ∧ P a b) :
    ∃ bs, l.mapM g = .ok bs ∧ List.Forall₂ P l bs := by
  induction l with
  | nil => exact ⟨[], rfl, .nil⟩
  | cons a l ih =>
      obtain ⟨b, hb, hab⟩ := h a List.mem_cons_self
      obtain ⟨bs, hbs, hall⟩ := ih fun x hx => h x (List.mem_cons_of_mem _ hx)
      refine ⟨b :: bs, ?_, .cons hab hall⟩
      rw [List.mapM_cons, hb, hbs]
      rfl

/-- A computation over a list that succeeds does so element by element. -/
theorem forall₂_of_mapM_ok {g : α → Except ε β} {bs : List β} (h : l.mapM g = .ok bs) :
    List.Forall₂ (fun a b => g a = .ok b) l bs := by
  induction l generalizing bs with
  | nil =>
      cases h
      exact .nil
  | cons a l ih =>
      rw [List.mapM_cons] at h
      cases ha : g a with
      | error e =>
          rw [ha] at h
          cases h
      | ok c =>
          cases hl : l.mapM g with
          | error e =>
              rw [ha, hl] at h
              cases h
          | ok cs =>
              rw [ha, hl] at h
              cases h
              exact .cons ha (ih hl)

/-- What a computation over a list gives comes from the elements of the list. -/
theorem exists_of_mem_mapM_ok {g : α → Except ε β} {bs : List β} {b : β} (h : l.mapM g = .ok bs)
    (hb : b ∈ bs) : ∃ a ∈ l, g a = .ok b := by
  have hall := forall₂_of_mapM_ok h
  clear h
  induction hall with
  | nil => cases hb
  | @cons a c _ _ hac _ ih =>
      rcases List.mem_cons.mp hb with rfl | hb
      · exact ⟨a, List.mem_cons_self, hac⟩
      · obtain ⟨x, hx, hgx⟩ := ih hb
        exact ⟨x, List.mem_cons_of_mem _ hx, hgx⟩

/-- If every result of a computation over a list tells what it was made of, so do all of them. -/
theorem map_eq_of_mapM_ok {g : α → Except ε β} {k : β → α} {bs : List β} (h : l.mapM g = .ok bs)
    (hk : ∀ a b, g a = .ok b → k b = a) : bs.map k = l := by
  have hall := forall₂_of_mapM_ok h
  clear h
  induction hall with
  | nil => rfl
  | cons hab _ ih => rw [List.map_cons, hk _ _ hab, ih]

/-- A computation that fails on an element of a list fails on the list. -/
theorem exists_mapM_error {g : α → Except ε β} {a : α} {e : ε} (ha : a ∈ l) (h : g a = .error e) :
    ∃ e', l.mapM g = .error e' := by
  induction l with
  | nil => cases ha
  | cons x l ih =>
      rw [List.mapM_cons]
      cases hx : g x with
      | error e' => exact ⟨e', rfl⟩
      | ok b =>
          rcases List.mem_cons.mp ha with rfl | ha
          · rw [h] at hx
            cases hx
          · obtain ⟨e', he'⟩ := ih ha
            rw [he']
            exact ⟨e', rfl⟩

/-- A check of all members of a list passes when each of them passes. -/
theorem forM_eq_ok_iff {g : α → Except ε PUnit} :
    l.forM g = .ok () ↔ ∀ a ∈ l, g a = .ok () := by
  induction l with
  | nil => exact ⟨fun _ => List.forall_mem_nil _, fun _ => rfl⟩
  | cons a l ih =>
      rw [List.forall_mem_cons, ← ih, List.forM]
      cases g a with
      | ok u => exact ⟨fun h => ⟨rfl, h⟩, fun h => h.2⟩
      | error e => exact ⟨(nomatch ·), fun h => nomatch h.1⟩

/-- A search that faults at no element finds what the search without faults finds. -/
theorem findSomeM?_ok {g : α → Except ε (Option β)} {k : α → Option β}
    (h : ∀ a ∈ l, g a = .ok (k a)) : l.findSomeM? g = .ok (l.findSome? k) := by
  induction l with
  | nil => rfl
  | cons a l ih =>
      have hl : l.findSomeM? g = .ok (l.findSome? k) := ih fun x hx =>
        h x (List.mem_cons_of_mem _ hx)
      rw [List.findSomeM?, h a List.mem_cons_self, List.findSome?_cons]
      cases k a with
      | none => exact hl
      | some b => rfl

/-- Both parts of a computation that succeeds succeed. -/
theorem exists_of_bind_eq_ok {x : Except ε α} {g : α → Except ε β} {b : β}
    (h : x >>= g = .ok b) : ∃ a, x = .ok a ∧ g a = .ok b := by
  cases x with
  | error e => cases h
  | ok a => exact ⟨a, rfl, h⟩

/-- A computation that may fault has the value that it is run with. -/
theorem eq_ok_of_lift {x : Except Fault α} {a : α} (h : (liftM x : Except Stop α) = .ok a) :
    x = .ok a := by
  cases x with
  | error e => cases h
  | ok b =>
      cases h
      rfl

end Lockstep
