import Lockstep.Sequence
import Mathlib.Algebra.GroupWithZero.Nat
import Mathlib.Data.List.Nodup
import Mathlib.Data.List.Perm.Basic
import Mathlib.Logic.Function.Basic

/-!
# Facts about sequences

Where an element goes that is put into a list, which list has one element only, which element of a
list is the least or the greatest, which of two elements comes first, and what a list is like when
some of its elements were changed.
-/

namespace Lockstep

variable {α : Type} {old new x : α} {xs : List α}

/-- Inserting behind the first part of a list. -/
theorem insertIdx_length_append (a : α) (pre post : List α) :
    (pre ++ post).insertIdx pre.length a = pre ++ a :: post := by
  induction pre with
  | nil => rfl
  | cons x pre ih => simp [ih]

/-- A list without repetitions that holds one element only. -/
theorem sole?_eq_some_iff_of_nodup (hxs : xs.Nodup) :
    sole? xs = some x ↔ x ∈ xs ∧ ∀ y ∈ xs, y = x := by
  rw [sole?_eq_some]
  constructor
  · rintro rfl
    simp
  · rintro ⟨hx, hall⟩
    match xs, hxs, hx, hall with
    | [y], _, _, hall => rw [hall y List.mem_cons_self]
    | y :: z :: ys, hxs, _, hall =>
        have hyz : y = z := (hall y (by simp)).trans (hall z (by simp)).symm
        simp [hyz] at hxs

/-- A fold that keeps the better one of two elements ends with the best one of a list: by induction
on the rest of the list, the best of what was looked at being known. -/
theorem foldl_best {R : α → α → Prop} {step : Option α → α → Option α} (hrefl : ∀ x, R x x)
    (htrans : ∀ {x y z}, R x y → R y z → R x z) (hnone : ∀ x, step none x = some x)
    (hsome : ∀ y x, (step (some y) x = some x ∧ R x y) ∨ (step (some y) x = some y ∧ R y x))
    (x : α) (xs : List α) :
    ∃ z, (x :: xs).foldl step none = some z ∧ z ∈ x :: xs ∧ ∀ y ∈ x :: xs, R z y := by
  rw [List.foldl_cons, hnone]
  induction xs generalizing x with
  | nil => exact ⟨x, rfl, List.mem_cons_self, by simpa using hrefl x⟩
  | cons a xs ih =>
      rw [List.foldl_cons]
      rcases hsome x a with ⟨hstep, hax⟩ | ⟨hstep, hxa⟩
      · obtain ⟨z, hz, hmem, hbest⟩ := ih a
        rw [hstep]
        exact ⟨z, hz, List.mem_cons_of_mem _ hmem, List.forall_mem_cons.mpr
          ⟨htrans (hbest a List.mem_cons_self) hax, hbest⟩⟩
      · obtain ⟨z, hz, hmem, hbest⟩ := ih x
        obtain ⟨hx, hxs⟩ := List.forall_mem_cons.mp hbest
        rw [hstep]
        refine ⟨z, hz, ?_, List.forall_mem_cons.mpr
          ⟨hx, List.forall_mem_cons.mpr ⟨htrans hx hxa, hxs⟩⟩⟩
        rcases List.mem_cons.mp hmem with rfl | hmem
        · exact List.mem_cons_self
        · exact List.mem_cons_of_mem _ (List.mem_cons_of_mem _ hmem)

/-- A list that is not empty has a least element. -/
theorem leastBy?_cons (key : α → Nat) (x : α) (xs : List α) :
    ∃ z, leastBy? key (x :: xs) = some z ∧ z ∈ x :: xs ∧ ∀ y ∈ x :: xs, key z ≤ key y := by
  refine foldl_best (R := fun z y => key z ≤ key y) (fun _ => Nat.le_refl _) Nat.le_trans
    (fun _ => rfl) (fun y x => ?_) x xs
  by_cases h : key x < key y
  · exact .inl ⟨if_pos h, Nat.le_of_lt h⟩
  · exact .inr ⟨if_neg h, Nat.le_of_not_lt h⟩

/-- The least element is in the list, and none has a smaller key. -/
theorem leastBy?_eq_some {key : α → Nat} (h : leastBy? key xs = some x) :
    x ∈ xs ∧ ∀ y ∈ xs, key x ≤ key y := by
  cases xs with
  | nil => simp [leastBy?] at h
  | cons a xs =>
      obtain ⟨z, hz, hmem, hle⟩ := leastBy?_cons key a xs
      obtain rfl := Option.some.inj (h.symm.trans hz)
      exact ⟨hmem, hle⟩

/-- A list with an element has a least one. -/
theorem leastBy?_ne_none {key : α → Nat} (h : x ∈ xs) : leastBy? key xs ≠ none := by
  cases xs with
  | nil => exact absurd h List.not_mem_nil
  | cons a xs =>
      obtain ⟨z, hz, -⟩ := leastBy?_cons key a xs
      rw [hz]
      exact Option.some_ne_none z

/-- A list that is not empty has a greatest element. -/
theorem greatestBy?_cons (key : α → Nat) (x : α) (xs : List α) :
    ∃ z, greatestBy? key (x :: xs) = some z ∧ z ∈ x :: xs ∧ ∀ y ∈ x :: xs, key y ≤ key z := by
  refine foldl_best (R := fun z y => key y ≤ key z) (fun _ => Nat.le_refl _)
    (fun hxy hyz => Nat.le_trans hyz hxy) (fun _ => rfl) (fun y x => ?_) x xs
  by_cases h : key x < key y
  · exact .inr ⟨if_pos h, Nat.le_of_lt h⟩
  · exact .inl ⟨if_neg h, Nat.le_of_not_lt h⟩

/-- The greatest element is in the list, and none has a larger key. -/
theorem greatestBy?_eq_some {key : α → Nat} (h : greatestBy? key xs = some x) :
    x ∈ xs ∧ ∀ y ∈ xs, key y ≤ key x := by
  cases xs with
  | nil => simp [greatestBy?] at h
  | cons a xs =>
      obtain ⟨z, hz, hmem, hle⟩ := greatestBy?_cons key a xs
      obtain rfl := Option.some.inj (h.symm.trans hz)
      exact ⟨hmem, hle⟩

/-- A list with an element has a greatest one. -/
theorem greatestBy?_ne_none {key : α → Nat} (h : x ∈ xs) : greatestBy? key xs ≠ none := by
  cases xs with
  | nil => exact absurd h List.not_mem_nil
  | cons a xs =>
      obtain ⟨z, hz, -⟩ := greatestBy?_cons key a xs
      rw [hz]
      exact Option.some_ne_none z

section Decidable

variable [DecidableEq α]

/-- Of two elements of a list, the one that must not stand behind the other stands before it. -/
theorem idxOf_lt_idxOf {R : α → α → Prop} {a b : α} (h : xs.Pairwise R) (ha : a ∈ xs) (hb : b ∈ xs)
    (hne : a ≠ b) (hnot : ¬R b a) : xs.idxOf a < xs.idxOf b := by
  by_contra hge
  have hlt : xs.idxOf b < xs.idxOf a := by
    refine Nat.lt_of_le_of_ne (Nat.le_of_not_lt hge) fun heq => ?_
    exact hne ((List.idxOf_inj hb).mp heq).symm
  have hR := List.pairwise_iff_getElem.mp h _ _ (List.idxOf_lt_length_of_mem hb)
    (List.idxOf_lt_length_of_mem ha) hlt
  rw [List.getElem_idxOf, List.getElem_idxOf] at hR
  exact hnot hR

/-- Apart from its place, the new element is one more. -/
theorem insertAfter_perm : (insertAfter old new xs).Perm (new :: xs) := by
  induction xs with
  | nil => exact List.Perm.refl _
  | cons y ys ih =>
      rw [insertAfter]
      split
      · exact List.Perm.swap new y ys
      · exact (ih.cons y).trans (List.Perm.swap new y ys)

/-- A new element keeps a list free of repetitions. -/
theorem nodup_insertAfter (hxs : xs.Nodup) (hnew : new ∉ xs) : (insertAfter old new xs).Nodup :=
  insertAfter_perm.nodup_iff.mpr (List.nodup_cons.mpr ⟨hnew, hxs⟩)

/-- What is inserted behind an element never comes first. -/
theorem head?_insertAfter (h : old ∈ xs) : (insertAfter old new xs).head? = xs.head? := by
  cases xs with
  | nil => exact absurd h List.not_mem_nil
  | cons y ys =>
      rw [insertAfter]
      split <;> rfl

/-- Of a list with a new element, a filter keeps the new element where it was put, if it keeps the
one before it. -/
theorem filter_insertAfter {P : α → Bool} (hmem : old ∈ xs) (hold : P old = true)
    (hnew : P new = true) :
    (insertAfter old new xs).filter P = insertAfter old new (xs.filter P) := by
  induction xs with
  | nil => cases hmem
  | cons a xs ih =>
      by_cases ha : a = old
      · subst ha
        simp [insertAfter, hold, hnew]
      · have ih := ih ((List.mem_cons.mp hmem).resolve_left (Ne.symm ha))
        by_cases hP : P a = true <;> simp [insertAfter, ha, hP, ih]

/-- An element that is filtered out may be inserted or not. -/
theorem filter_insertAfter_of_not {P : α → Bool} (hnew : P new = false) :
    (insertAfter old new xs).filter P = xs.filter P := by
  induction xs with
  | nil => simp [insertAfter, hnew]
  | cons a xs ih =>
      by_cases ha : a = old
      · simp [insertAfter, ha, hnew, List.filter_cons]
      · simp [insertAfter, ha, ih, List.filter_cons]

/-- The new element stands right behind the old one. -/
theorem exists_insertAfter_eq (h : old ∈ xs) :
    ∃ pre post, xs = pre ++ old :: post ∧ insertAfter old new xs = pre ++ old :: new :: post := by
  induction xs with
  | nil => cases h
  | cons x xs ih =>
      rw [insertAfter]
      by_cases hx : x = old
      · subst hx
        exact ⟨[], xs, rfl, if_pos rfl⟩
      · obtain ⟨pre, post, rfl, hinsert⟩ := ih ((List.mem_cons.mp h).resolve_left (Ne.symm hx))
        exact ⟨x :: pre, post, rfl, by rw [if_neg hx, hinsert, List.cons_append]⟩

/-- Inserting goes along with a map that keeps elements apart. -/
theorem map_insertAfter {β : Type} [DecidableEq β] {g : α → β} (hg : Function.Injective g)
    (old new : α) (xs : List α) :
    (insertAfter old new xs).map g = insertAfter (g old) (g new) (xs.map g) := by
  induction xs with
  | nil => rfl
  | cons x xs ih =>
      by_cases hx : x = old
      · simp [insertAfter, hx]
      · simp [insertAfter, hx, hg.ne hx, ih]

/-- Elements can be put behind two others in either order. -/
theorem insertAfter_comm {old' new' : α} (hold : old ∈ xs) (hold' : old' ∈ xs) (hne : old ≠ old')
    (hnew : new ≠ old') (hnew' : new' ≠ old) :
    insertAfter old' new' (insertAfter old new xs) =
      insertAfter old new (insertAfter old' new' xs) := by
  induction xs with
  | nil => cases hold
  | cons x xs ih =>
      by_cases hx : x = old
      · subst hx
        simp [insertAfter, hne, hnew]
      · by_cases hx' : x = old'
        · subst hx'
          simp [insertAfter, hne.symm, hnew']
        · have ih := ih ((List.mem_cons.mp hold).resolve_left (Ne.symm hx))
            ((List.mem_cons.mp hold').resolve_left (Ne.symm hx'))
          simp [insertAfter, hx, hx', ih]

/-- What an element gives may as well come from it and the element put behind it. -/
theorem flatMap_insertAfter {β : Type} {g g' : α → List β} (hmem : old ∈ xs) (hxs : xs.Nodup)
    (hpair : g' old ++ g' new = g old) (hrest : ∀ a ∈ xs, a ≠ old → g' a = g a) :
    (insertAfter old new xs).flatMap g' = xs.flatMap g := by
  induction xs with
  | nil => cases hmem
  | cons a xs ih =>
      obtain ⟨hhead, htail⟩ := List.forall_mem_cons.mp hrest
      obtain ⟨ha, hxs'⟩ := List.nodup_cons.mp hxs
      by_cases hold : a = old
      · subst hold
        have hsame : xs.flatMap g' = xs.flatMap g :=
          List.flatMap_congr fun b hb => htail b hb fun heq => ha (heq ▸ hb)
        rw [insertAfter, if_pos rfl, List.flatMap_cons, List.flatMap_cons, ← List.append_assoc,
          hpair, hsame, List.flatMap_cons]
      · rw [insertAfter, if_neg hold, List.flatMap_cons, List.flatMap_cons, hhead hold,
          ih ((List.mem_cons.mp hmem).resolve_left (Ne.symm hold)) hxs' htail]

/-- Putting an element behind another in a list where some have one behind them already. -/
theorem insertAfter_flatMap {added : α → Option α} (hmem : old ∈ xs) (hxs : xs.Nodup)
    (hnone : added old = none) (hnot : ∀ a ∈ xs, added a ≠ some old) :
    insertAfter old new (xs.flatMap fun a => a :: (added a).toList) =
      xs.flatMap fun a => a :: (Function.update added old (some new) a).toList := by
  induction xs with
  | nil => cases hmem
  | cons a xs ih =>
      obtain ⟨ha, hxs'⟩ := List.nodup_cons.mp hxs
      rw [List.flatMap_cons, List.flatMap_cons]
      by_cases hold : a = old
      · subst hold
        have hrest : (xs.flatMap fun b => b :: (Function.update added a (some new) b).toList) =
            xs.flatMap fun b => b :: (added b).toList := by
          refine List.flatMap_congr fun b hb => ?_
          have hne : b ≠ a := fun heq => ha (heq ▸ hb)
          rw [Function.update_of_ne hne]
        simp [insertAfter, hnone, hrest]
      · have ih' := ih ((List.mem_cons.mp hmem).resolve_left (Ne.symm hold)) hxs'
          fun b hb => hnot b (List.mem_cons_of_mem _ hb)
        rw [Function.update_of_ne hold, ← ih']
        cases hadded : added a with
        | none => simp [insertAfter, hold]
        | some c =>
            have hc : c ≠ old := fun heq => hnot a List.mem_cons_self (by rw [hadded, heq])
            simp [insertAfter, hold, hc]

end Decidable

/-! ### Elements that are changed -/

section Modify

variable {ι : Type} {g g' : α → α} {index : ι → Nat} {ids : List ι} {more : List α} {i : Nat}

/-- What a change would do to other elements does not matter. -/
theorem modify_congr (h : ∀ a, xs[i]? = some a → g a = g' a) : xs.modify i g = xs.modify i g' := by
  refine List.ext_getElem? fun j => ?_
  rw [List.getElem?_modify, List.getElem?_modify]
  by_cases hij : i = j
  · subst hij
    cases hx : xs[i]? with
    | none => rfl
    | some a => simp [h a hx]
  · simp [hij]

/-- Changing an element of the front part leaves the rest alone. -/
theorem modify_append_left (hi : i < xs.length) :
    (xs ++ more).modify i g = xs.modify i g ++ more := by
  induction xs generalizing i with
  | nil => cases hi
  | cons x xs ih =>
      cases i with
      | zero => rfl
      | succ i => simp [ih (Nat.lt_of_succ_lt_succ hi)]

/-- What changing one element does to a sum over the list. -/
theorem sum_map_modify {count : α → Nat} {a : α} (ha : xs[i]? = some a) :
    ((xs.modify i g).map count).sum + count a = (xs.map count).sum + count (g a) := by
  induction xs generalizing i with
  | nil => cases ha
  | cons x xs ih =>
      cases i with
      | zero =>
          obtain rfl := Option.some.inj ha
          simp only [List.modify_zero_cons, List.map_cons, List.sum_cons]
          omega
      | succ i =>
          have hrest := ih ha
          simp only [List.modify_succ_cons, List.map_cons, List.sum_cons]
          omega

/-- The list with the elements at some positions replaced by their images. -/
def modifyAll (g : α → α) (index : ι → Nat) (ids : List ι) (xs : List α) : List α :=
  ids.foldl (fun xs id => xs.modify (index id) g) xs

/-- The first change is made first. -/
theorem modifyAll_cons {id : ι} :
    modifyAll g index (id :: ids) xs = modifyAll g index ids (xs.modify (index id) g) := rfl

/-- Changes keep the number of elements. -/
@[simp]
theorem length_modifyAll : (modifyAll g index ids xs).length = xs.length := by
  induction ids generalizing xs with
  | nil => rfl
  | cons id ids ih => rw [modifyAll_cons, ih, List.length_modify]

/-- A position may be given several times, if a second change does nothing. -/
theorem getElem?_modifyAll (hg : ∀ a, g (g a) = g a) :
    (modifyAll g index ids xs)[i]? =
      if i ∈ ids.map index then xs[i]?.map g else xs[i]? := by
  induction ids generalizing xs with
  | nil => simp [modifyAll]
  | cons id ids ih =>
      rw [modifyAll_cons, ih, List.getElem?_modify, List.map_cons]
      by_cases hid : index id = i
      · have hcomp : g ∘ g = g := funext hg
        simp [hid, hcomp]
      · simp [hid, Ne.symm hid]

/-- Changes in the front part leave the rest alone. -/
theorem modifyAll_append (hids : ∀ id ∈ ids, index id < xs.length) :
    modifyAll g index ids (xs ++ more) = modifyAll g index ids xs ++ more := by
  induction ids generalizing xs with
  | nil => rfl
  | cons id ids ih =>
      obtain ⟨hid, hids⟩ := List.forall_mem_cons.mp hids
      rw [modifyAll_cons, modifyAll_cons, modify_append_left hid, ih (by simpa using hids)]

end Modify

/-- Erasing repetitions leaves none. -/
theorem nodup_eraseDups [BEq α] [LawfulBEq α] (l : List α) : l.eraseDups.Nodup := by
  induction hn : l.length using Nat.strongRecOn generalizing l with
  | _ n ih =>
      cases l with
      | nil => simp
      | cons a l =>
          have hlen := List.length_filter_le (fun b => !b == a) l
          rw [List.eraseDups_cons, List.nodup_cons]
          refine ⟨by simp [List.mem_eraseDups], ih _ ?_ _ rfl⟩
          rw [List.length_cons] at hn
          omega

end Lockstep
