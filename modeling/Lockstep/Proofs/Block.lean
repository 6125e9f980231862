import Lockstep.Block
import Lockstep.Proofs.Sequence
import Mathlib.Data.List.Basic
import Mathlib.Data.List.Chain
import Mathlib.Data.List.TakeWhile
import Mathlib.Logic.Relation

/-!
# Blocks that gain a barrier

A barrier is put into a block at one of two places, behind its phis or right before its
terminator, and only where none stands already. What such an insertion keeps is said once, of
`Block.Gains`: identifier, terminator and successors stay, nothing but the barrier is new, and
the barrier has no other one beside it.

## Main results

* `Block.gains_guard`: guarding either place is an insertion of that kind.
* `Block.Gains.terminator?_eq`, `Block.Gains.filter_eq`, `Block.Gains.sublist`,
  `Block.Gains.apart`: what an insertion keeps.
* `Block.Gains.endsWithBarrier` and `Block.Gains.phisGuarded`: a guarded place stays guarded.
* `Block.endsWithBarrier_guardAll_iff` and `Block.barrier_mem_guardAll_iff`: where several places
  that are guarded leave barriers.
-/

namespace Lockstep

namespace Instruction

variable {i : Instruction}

/-- A terminator is no phi. -/
theorem isPhi_of_isTerminator (h : i.isTerminator = true) : i.isPhi = false := by
  cases i <;> first | rfl | cases h

/-- The test for barriers finds the barriers. -/
theorem isBarrier_iff : i.isBarrier = true ↔ i = .barrier := by
  cases i <;> first | exact iff_of_true rfl rfl | exact iff_of_false nofun nofun

/-- A terminator is no barrier. -/
theorem ne_barrier_of_isTerminator (h : i.isTerminator = true) : i ≠ .barrier := by
  rintro rfl
  cases h

end Instruction

namespace Block

variable {b b' : Block} {init pre post phis rest : List Instruction} {i t : Instruction}

/-! ### Blocks with a terminator -/

/-- A block with a terminator is that terminator behind other instructions. -/
theorem exists_eq_append (h : b.hasTerminator = true) :
    ∃ init t, b.instructions = init ++ [t] ∧ t.isTerminator = true := by
  obtain ⟨t, ht⟩ := Option.isSome_iff_exists.mp h
  obtain ⟨hlast, hterm⟩ := Option.filter_eq_some_iff.mp ht
  obtain ⟨init, hinit⟩ := List.getLast?_eq_some_iff.mp hlast
  exact ⟨init, t, hinit, hterm⟩

section Terminated

variable (hb : b.instructions = init ++ [t]) (ht : t.isTerminator = true)
include hb ht

/-- The terminator that the list ends with is that of the block. -/
theorem terminator?_of_append : b.terminator? = some t := by
  rw [terminator?, hb, List.getLast?_concat, Option.filter_some, if_pos ht]

/-- A block whose list ends with a terminator has one. -/
theorem hasTerminator_of_append : b.hasTerminator = true := by
  rw [hasTerminator, terminator?_of_append hb ht, Option.isSome_some]

/-- The successors of a block are those of the terminator that its list ends with. -/
theorem successors_of_append : b.successors = t.successors := by
  rw [successors, terminator?_of_append hb ht]
  rfl

/-- The terminator stands behind all other instructions. -/
theorem terminatorIndex?_of_append : b.terminatorIndex? = some init.length := by
  rw [terminatorIndex?, if_pos (hasTerminator_of_append hb ht), hb]
  simp

/-- A block ends with a barrier when one stands right before its terminator. -/
theorem endsWithBarrier_of_append :
    b.endsWithBarrier = true ↔ init.getLast? = some .barrier := by
  rw [endsWithBarrier, terminatorIndex?_of_append hb ht, List.getLast?_eq_getElem?]
  cases hlen : init.length with
  | zero => simp [List.length_eq_zero_iff.mp hlen]
  | succ k =>
      have hget : b.instructions[k]? = init[k]? := by
        rw [hb, List.getElem?_append_left (by omega)]
      simp only [hget, Nat.add_sub_cancel]
      cases init[k]? with
      | none => simp
      | some i => simp [Instruction.isBarrier_iff]

end Terminated

/-- A barrier at the end stands right before a terminator. -/
theorem exists_append_of_endsWithBarrier (h : b.endsWithBarrier = true) :
    ∃ init t, b.instructions = init ++ [.barrier, t] ∧ t.isTerminator = true := by
  have hterm : b.hasTerminator = true := by
    by_contra hno
    simp [endsWithBarrier, terminatorIndex?, hno] at h
  obtain ⟨init, t, hb, ht⟩ := exists_eq_append hterm
  obtain ⟨pre, rfl⟩ := List.getLast?_eq_some_iff.mp ((endsWithBarrier_of_append hb ht).mp h)
  exact ⟨pre, t, by simp [hb], ht⟩

/-! ### The phis of a block -/

/-- The number of phis that a block starts with. -/
theorem firstNonPhi_of_append (hb : b.instructions = phis ++ rest)
    (hphis : ∀ i ∈ phis, i.isPhi = true) (hrest : ∀ i, rest.head? = some i → i.isPhi = false) :
    b.firstNonPhi = phis.length := by
  rw [firstNonPhi, hb]
  clear hb
  induction phis with
  | nil =>
      cases rest with
      | nil => rfl
      | cons i rest => simp [hrest i rfl, List.findIdx_cons]
  | cons i phis ih =>
      have hi : i.isPhi = true := hphis i List.mem_cons_self
      simp [List.findIdx_cons, hi, ih fun j hj => hphis j (List.mem_cons_of_mem _ hj)]

/-- A block is its phis and what follows them. -/
theorem exists_phis (b : Block) :
    ∃ phis rest, b.instructions = phis ++ rest ∧ b.firstNonPhi = phis.length ∧
      (∀ i ∈ phis, i.isPhi = true) ∧ ∀ i, rest.head? = some i → i.isPhi = false := by
  have hphis : ∀ i ∈ b.instructions.takeWhile Instruction.isPhi, i.isPhi = true :=
    fun i hi => List.mem_takeWhile_imp hi
  have hrest : ∀ i, (b.instructions.dropWhile Instruction.isPhi).head? = some i →
      i.isPhi = false := by
    intro i hi
    have := List.head?_dropWhile_not Instruction.isPhi b.instructions
    rw [hi] at this
    simpa using this
  have happend := (List.takeWhile_append_dropWhile
    (p := Instruction.isPhi) (l := b.instructions)).symm
  exact ⟨_, _, happend, firstNonPhi_of_append happend hphis hrest, hphis, hrest⟩

/-- A block with a terminator is its phis, other instructions and the terminator. The terminator is
no phi, so it is the last of the rest. -/
theorem exists_phis_terminator (h : b.hasTerminator = true) :
    ∃ phis mid t, b.instructions = phis ++ (mid ++ [t]) ∧ b.firstNonPhi = phis.length ∧
      (∀ i ∈ phis, i.isPhi = true) ∧ (∀ i, (mid ++ [t]).head? = some i → i.isPhi = false) ∧
      t.isTerminator = true := by
  obtain ⟨init, t, hinit, ht⟩ := exists_eq_append h
  obtain ⟨phis, rest, hb, hlen, hphis, hrest⟩ := b.exists_phis
  have hne : rest ≠ [] := by
    rintro rfl
    have hphi := hphis t (by rw [← List.append_nil phis, ← hb, hinit]; simp)
    rw [Instruction.isPhi_of_isTerminator ht] at hphi
    cases hphi
  obtain ⟨mid, rfl⟩ : ∃ mid, rest = mid ++ [t] := by
    refine List.getLast?_eq_some_iff.mp ?_
    rw [← List.getLast?_append_of_ne_nil phis hne, ← hb, hinit, List.getLast?_concat]
  exact ⟨phis, mid, t, hb, hlen, hphis, hrest, ht⟩

/-- A barrier stands right behind the phis, or there are none. -/
def phisGuarded (b : Block) : Prop :=
  b.firstNonPhi = 0 ∨ b.instructions[b.firstNonPhi]? = some .barrier

instance (b : Block) : Decidable b.phisGuarded :=
  inferInstanceAs (Decidable (_ ∨ _))

/-- Phis are guarded when there are none, or when a barrier is what follows them. -/
theorem phisGuarded_of_append (hb : b.instructions = phis ++ rest)
    (hphis : ∀ i ∈ phis, i.isPhi = true) (hrest : ∀ i, rest.head? = some i → i.isPhi = false) :
    b.phisGuarded ↔ phis = [] ∨ rest.head? = some .barrier := by
  rw [phisGuarded, firstNonPhi_of_append hb hphis hrest, hb, List.length_eq_zero_iff,
    List.getElem?_append_right (Nat.le_refl _), Nat.sub_self, List.head?_eq_getElem?]

end Block

/-! ### Guarding a place -/

/-- Where a barrier is put into a block. A barrier at the end leaves a mark in the block's
name. -/
inductive Place where
  | behindPhis
  | atEnd (mark : String)
deriving DecidableEq

/-- The block with a barrier at a place, unless one is there or the place is behind phis that
the block does not have. -/
def Place.guard : Place → Block → Block
  | .behindPhis, b =>
      if b.phisGuarded then b else (b.insert b.firstNonPhi .barrier).addSuffix ".phibarrier"
  | .atEnd mark, b =>
      if b.endsWithBarrier then b
      else (b.insert (b.instructions.length - 1) .barrier).addSuffix mark

namespace Block

variable {b b' : Block} {init pre post phis rest : List Instruction} {i t : Instruction}

/-- The second block is the first, or the first with one barrier more, which stands neither at
the end nor next to another barrier. -/
inductive Gains (b : Block) : Block → Prop where
  | nothing : Gains b b
  | barrier {pre post : List Instruction} (mark : String) :
      b.instructions = pre ++ post → post ≠ [] → pre.getLast? ≠ some .barrier →
      post.head? ≠ some .barrier → Gains b ⟨b.id, b.name ++ mark, pre ++ .barrier :: post⟩

/-- A barrier put in the middle comes between the two parts, and the name gets a mark. -/
theorem insert_of_append (mark : String) (hb : b.instructions = pre ++ post) :
    (b.insert pre.length .barrier).addSuffix mark =
      ⟨b.id, b.name ++ mark, pre ++ .barrier :: post⟩ := by
  rw [insert, addSuffix, hb, insertIdx_length_append]

/-- **One insertion.** Guarding a place of a block with a terminator adds at most a barrier. Behind
the phis there is the terminator at least. -/
theorem gains_guard (h : b.hasTerminator = true) (place : Place) : b.Gains (place.guard b) := by
  obtain ⟨init, t, hb, ht⟩ := exists_eq_append h
  cases place with
  | behindPhis =>
      obtain ⟨phis, rest, happend, hlen, hphis, hrest⟩ := b.exists_phis
      rw [Place.guard]
      split
      · exact .nothing
      · rename_i hguard
        rw [phisGuarded_of_append happend hphis hrest, not_or] at hguard
        rw [hlen, insert_of_append _ happend]
        refine .barrier _ happend ?_ ?_ hguard.2
        · rintro rfl
          have := hphis t (by rw [List.append_nil] at happend; simp [← happend, hb])
          simp [Instruction.isPhi_of_isTerminator ht] at this
        · intro hlast
          have := hphis _ (List.mem_of_getLast? hlast)
          simp [Instruction.isPhi] at this
  | atEnd mark =>
      rw [Place.guard]
      split
      · exact .nothing
      · rename_i hguard
        rw [endsWithBarrier_of_append hb ht] at hguard
        have hlen : b.instructions.length - 1 = init.length := by simp [hb]
        rw [hlen, insert_of_append _ hb]
        refine .barrier _ hb (List.cons_ne_nil _ _) hguard ?_
        exact fun heq => Instruction.ne_barrier_of_isTerminator ht (Option.some.inj heq)

namespace Gains

/-- A block keeps its identifier. -/
theorem id_eq (h : b.Gains b') : b'.id = b.id := by
  cases h <;> rfl

/-- A block keeps its last instruction. -/
theorem getLast?_eq (h : b.Gains b') : b'.instructions.getLast? = b.instructions.getLast? := by
  cases h with
  | nothing => rfl
  | barrier mark hb hpost _ _ =>
      rw [hb, List.getLast?_append_of_ne_nil _ hpost,
        List.getLast?_append_of_ne_nil _ (List.cons_ne_nil _ _), List.getLast?_cons_of_ne_nil hpost]

/-- The terminator stays. -/
theorem terminator?_eq (h : b.Gains b') : b'.terminator? = b.terminator? := by
  rw [terminator?, terminator?, h.getLast?_eq]

/-- A block that ends with a terminator still does. -/
theorem hasTerminator_eq (h : b.Gains b') : b'.hasTerminator = b.hasTerminator := by
  rw [hasTerminator, hasTerminator, h.terminator?_eq]

/-- No instruction but a barrier is new. -/
theorem eq_barrier_or_mem (h : b.Gains b') (hi : i ∈ b'.instructions) :
    i = .barrier ∨ i ∈ b.instructions := by
  cases h with
  | nothing => exact .inr hi
  | barrier mark hb _ _ _ =>
      rw [hb]
      simp only [List.mem_append, List.mem_cons] at hi ⊢
      tauto

/-- No instruction is lost, and none changes its place among the others. -/
theorem sublist (h : b.Gains b') : b.instructions.Sublist b'.instructions := by
  cases h with
  | nothing => exact List.Sublist.refl _
  | @barrier pre post mark hb _ _ _ =>
      rw [hb]
      exact (List.Sublist.refl pre).append (List.sublist_cons_self _ post)

/-- Barriers apart, the instructions are the same. -/
theorem filter_eq (h : b.Gains b') :
    b'.instructions.filter (!·.isBarrier) = b.instructions.filter (!·.isBarrier) := by
  cases h with
  | nothing => rfl
  | barrier mark hb _ _ _ =>
      rw [hb, List.filter_append, List.filter_append, List.filter_cons_of_neg (by decide)]

end Gains

/-- No two barriers stand side by side. -/
def Apart (instructions : List Instruction) : Prop :=
  instructions.IsChain fun i j => ¬(i = .barrier ∧ j = .barrier)

instance (instructions : List Instruction) : Decidable (Apart instructions) :=
  inferInstanceAs (Decidable (List.IsChain _ _))

namespace Gains

/-- Barriers that stood apart still do. -/
theorem apart (h : b.Gains b') (hb : Apart b.instructions) : Apart b'.instructions := by
  cases h with
  | nothing => exact hb
  | barrier mark happend hpost hpre hnext =>
      rw [Apart, happend, List.isChain_append] at hb
      obtain ⟨hp, hq, -⟩ := hb
      rw [Apart, List.isChain_append, List.isChain_cons]
      refine ⟨hp, ⟨?_, hq⟩, ?_⟩
      · rintro j hj ⟨-, rfl⟩
        exact hnext hj
      · rintro x hx y hy ⟨rfl, -⟩
        exact hpre hx

/-- A block that ends with a barrier still does. A new one does not stand right before the
terminator, since one stands there. -/
theorem endsWithBarrier (h : b.Gains b') (hb : b.endsWithBarrier = true) :
    b'.endsWithBarrier = true := by
  cases h with
  | nothing => exact hb
  | @barrier pre post mark happend hpost hpre hnext =>
      have hterm : b.hasTerminator = true := by
        by_contra hno
        simp [Block.endsWithBarrier, terminatorIndex?, hno] at hb
      obtain ⟨init, t, hinit, ht⟩ := exists_eq_append hterm
      have hlast := (endsWithBarrier_of_append hinit ht).mp hb
      obtain ⟨mid, t', rfl⟩ : ∃ mid t', post = mid ++ [t'] :=
        ⟨_, _, (List.dropLast_append_getLast hpost).symm⟩
      rw [happend, ← List.append_assoc] at hinit
      obtain ⟨rfl, heq⟩ := List.append_inj' hinit rfl
      obtain rfl : t' = t := List.head_eq_of_cons_eq heq
      have hmid : mid ≠ [] := by
        rintro rfl
        rw [List.append_nil] at hlast
        exact hpre hlast
      have hnew : pre ++ .barrier :: (mid ++ [t']) = (pre ++ .barrier :: mid) ++ [t'] := by simp
      rw [endsWithBarrier_of_append hnew ht,
        List.getLast?_append_of_ne_nil _ (List.cons_ne_nil _ _), List.getLast?_cons_of_ne_nil hmid,
        ← hlast, List.getLast?_append_of_ne_nil _ hmid]

/-- A barrier behind the phis stays there. A barrier put among the phis would stand behind those
that are left. -/
theorem phisGuarded (h : b.Gains b') (hb : b.phisGuarded) : b'.phisGuarded := by
  cases h with
  | nothing => exact hb
  | @barrier pre post mark happend hpost hpre hnext =>
      obtain ⟨phis, rest, hphisRest, -, hphis, hrest⟩ := b.exists_phis
      rw [phisGuarded_of_append hphisRest hphis hrest] at hb
      rw [happend] at hphisRest
      rcases List.append_eq_append_iff.mp hphisRest with ⟨mid, rfl, rfl⟩ | ⟨mid, rfl, rfl⟩
      · have hpre : ∀ i ∈ pre, i.isPhi = true := fun i hi => hphis i (List.mem_append_left _ hi)
        exact (phisGuarded_of_append rfl hpre (by simp [Instruction.isPhi])).mpr (.inr rfl)
      · cases mid with
        | nil =>
            rw [List.append_nil]
            exact (phisGuarded_of_append rfl hphis (by simp [Instruction.isPhi])).mpr (.inr rfl)
        | cons i mid =>
            rw [phisGuarded_of_append (List.append_assoc _ _ _) hphis (by simpa using hrest)]
            simpa using hb

end Gains

/-! ### Guarded places -/

/-- A block that is guarded at its end ends with a barrier. -/
theorem endsWithBarrier_guard (h : b.hasTerminator = true) (mark : String) :
    ((Place.atEnd mark).guard b).endsWithBarrier = true := by
  obtain ⟨init, t, hb, ht⟩ := exists_eq_append h
  rw [Place.guard]
  split
  · assumption
  · have hlen : b.instructions.length - 1 = init.length := by simp [hb]
    have hnew : init ++ [.barrier, t] = (init ++ [.barrier]) ++ [t] := by simp
    rw [hlen, insert_of_append _ hb, endsWithBarrier_of_append hnew ht, List.getLast?_concat]

/-- A block that is guarded behind its phis has a barrier there, if it has phis. -/
theorem phisGuarded_guard (b : Block) : (Place.behindPhis.guard b).phisGuarded := by
  obtain ⟨phis, rest, hb, hlen, hphis, -⟩ := b.exists_phis
  rw [Place.guard]
  split
  · assumption
  · rw [hlen, insert_of_append _ hb]
    exact (phisGuarded_of_append rfl hphis (by simp [Instruction.isPhi])).mpr (.inr rfl)

/-! ### Several insertions -/

/-- The second block is the first with any number of insertions. -/
def Grows (b b' : Block) : Prop :=
  Relation.ReflTransGen Gains b b'

namespace Grows

/-- A block that gains nothing grows by nothing. -/
theorem refl (b : Block) : b.Grows b :=
  Relation.ReflTransGen.refl

/-- What every insertion keeps is kept by all of them. -/
theorem keeps {P : Block → Prop} (hP : ∀ {b b' : Block}, b.Gains b' → P b → P b')
    (h : b.Grows b') (hb : P b) : P b' := by
  induction h with
  | refl => exact hb
  | tail _ hgain ih => exact hP hgain ih

/-- A block that grows keeps its terminator. -/
theorem terminator?_eq (h : b.Grows b') : b'.terminator? = b.terminator? :=
  h.keeps (P := (·.terminator? = b.terminator?)) (fun hgain => hgain.terminator?_eq.trans) rfl

/-- A block that grows keeps its instructions and their order. -/
theorem sublist (h : b.Grows b') : b.instructions.Sublist b'.instructions :=
  h.keeps (P := fun c => b.instructions.Sublist c.instructions)
    (fun hgain hb => hb.trans hgain.sublist) (List.Sublist.refl _)

/-- A block that grows gains nothing but barriers. -/
theorem filter_eq (h : b.Grows b') :
    b'.instructions.filter (!·.isBarrier) = b.instructions.filter (!·.isBarrier) :=
  h.keeps (P := fun c =>
      c.instructions.filter (!·.isBarrier) = b.instructions.filter (!·.isBarrier))
    (fun hgain => hgain.filter_eq.trans) rfl

/-- Barriers that stood apart still do when a block has grown. -/
theorem apart (h : b.Grows b') (hb : Apart b.instructions) : Apart b'.instructions :=
  h.keeps (P := (Apart ·.instructions)) (fun hgain => hgain.apart) hb

/-- A barrier before the terminator stays there when a block grows. -/
theorem endsWithBarrier (h : b.Grows b') (hb : b.endsWithBarrier = true) :
    b'.endsWithBarrier = true :=
  h.keeps (P := (·.endsWithBarrier = true)) (fun hgain => hgain.endsWithBarrier) hb

/-- A barrier behind the phis stays there when a block grows. -/
theorem phisGuarded (h : b.Grows b') (hb : b.phisGuarded) : b'.phisGuarded :=
  h.keeps (P := (·.phisGuarded)) (fun hgain => hgain.phisGuarded) hb

end Grows

/-- The block with several places guarded, one after the other. -/
def guardAll (b : Block) (places : List Place) : Block :=
  places.foldl (fun b place => place.guard b) b

/-- Guarding places makes a block grow. -/
theorem grows_guardAll (h : b.hasTerminator = true) (places : List Place) :
    b.Grows (b.guardAll places) := by
  induction places generalizing b with
  | nil => exact .refl b
  | cons place places ih =>
      have hgain := gains_guard h place
      exact .head hgain (ih (hgain.hasTerminator_eq.trans h))

/-- A place at the end of the block is guarded whatever comes later. -/
theorem endsWithBarrier_guardAll (h : b.hasTerminator = true) {places : List Place} {mark : String}
    (hmem : .atEnd mark ∈ places) : (b.guardAll places).endsWithBarrier = true := by
  induction places generalizing b with
  | nil => cases hmem
  | cons place places ih =>
      have hterm := (gains_guard h place).hasTerminator_eq.trans h
      rcases List.mem_cons.mp hmem with rfl | hmem
      · exact (grows_guardAll hterm places).endsWithBarrier (endsWithBarrier_guard h mark)
      · exact ih hterm hmem

/-- A place behind the phis is guarded whatever comes later. -/
theorem phisGuarded_guardAll (h : b.hasTerminator = true) {places : List Place}
    (hmem : .behindPhis ∈ places) : (b.guardAll places).phisGuarded := by
  induction places generalizing b with
  | nil => cases hmem
  | cons place places ih =>
      have hterm := (gains_guard h place).hasTerminator_eq.trans h
      rcases List.mem_cons.mp hmem with rfl | hmem
      · exact (grows_guardAll hterm places).phisGuarded (phisGuarded_guard b)
      · exact ih hterm hmem

end Block

/-! ### Shapes -/

/-- What matters of an instruction when barriers are placed. -/
inductive Kind where
  | phi
  | barrier
  | terminator
  | plain
deriving DecidableEq

/-- The kind of an instruction. -/
def Instruction.kind : Instruction → Kind
  | .phi .. => .phi
  | .barrier => .barrier
  | .ret _ | .branch _ | .branchCond .. | .unreachable => .terminator
  | _ => .plain

namespace Instruction

variable {i : Instruction}

/-- Phis are the instructions of that kind. -/
theorem kind_eq_phi_iff : i.kind = .phi ↔ i.isPhi = true := by
  cases i <;> first | exact iff_of_true rfl rfl | exact iff_of_false nofun nofun

/-- The barrier is the only instruction of its kind. -/
theorem kind_eq_barrier_iff : i.kind = .barrier ↔ i = .barrier := by
  cases i <;> first | exact iff_of_true rfl rfl | exact iff_of_false nofun nofun

/-- Terminators are the instructions of that kind. -/
theorem kind_eq_terminator_iff : i.kind = .terminator ↔ i.isTerminator = true := by
  cases i <;> first | exact iff_of_true rfl rfl | exact iff_of_false nofun nofun

end Instruction

namespace Block

variable {b b' : Block}

/-- The kinds of the instructions. -/
def shape (b : Block) : List Kind :=
  b.instructions.map Instruction.kind

/-- The block is some phis, at least one, and a terminator. -/
def PhisOnly (b : Block) : Prop :=
  ∃ phis t, b.instructions = phis ++ [t] ∧ phis ≠ [] ∧ (∀ i ∈ phis, i.isPhi = true) ∧
    t.isTerminator = true

/-- Whether a block holds a barrier can be seen in its shape. -/
theorem barrier_mem_iff : .barrier ∈ b.instructions ↔ .barrier ∈ b.shape := by
  simp only [shape, List.mem_map, Instruction.kind_eq_barrier_iff, exists_eq_right]

/-- Whether a block ends with a barrier can be seen in its shape. -/
theorem endsWithBarrier_iff :
    b.endsWithBarrier = true ↔ ∃ ks, b.shape = ks ++ [.barrier, .terminator] := by
  constructor
  · intro h
    obtain ⟨pre, t, hb, ht⟩ := exists_append_of_endsWithBarrier h
    refine ⟨pre.map Instruction.kind, ?_⟩
    simp [shape, hb, Instruction.kind_eq_terminator_iff.mpr ht,
      Instruction.kind_eq_barrier_iff.mpr rfl]
  · rintro ⟨ks, hks⟩
    obtain ⟨pre, rest, hb, -, hrest⟩ := List.map_eq_append_iff.mp hks
    obtain ⟨i, rest, rfl, hi, hrest⟩ := List.map_eq_cons_iff.mp hrest
    obtain ⟨t, rest, rfl, ht, hrest⟩ := List.map_eq_cons_iff.mp hrest
    obtain rfl := List.map_eq_nil_iff.mp hrest
    obtain rfl := Instruction.kind_eq_barrier_iff.mp hi
    have hb' : b.instructions = (pre ++ [.barrier]) ++ [t] := by simpa using hb
    exact (endsWithBarrier_of_append hb' (Instruction.kind_eq_terminator_iff.mp ht)).mpr
      List.getLast?_concat

/-- A block that ends with a barrier holds one. -/
theorem barrier_mem_of_endsWithBarrier (h : b.endsWithBarrier = true) :
    .barrier ∈ b.instructions := by
  obtain ⟨ks, hks⟩ := endsWithBarrier_iff.mp h
  rw [barrier_mem_iff, hks]
  simp

/-- Blocks of the same shape both end with a barrier, or neither does. -/
theorem endsWithBarrier_eq_of_shape (h : b'.shape = b.shape) :
    b'.endsWithBarrier = b.endsWithBarrier := by
  rw [Bool.eq_iff_iff, endsWithBarrier_iff, endsWithBarrier_iff, h]

/-- The number of phis at the start can be seen in the shape. -/
theorem firstNonPhi_eq : b.firstNonPhi = b.shape.findIdx (· ≠ .phi) := by
  rw [firstNonPhi, shape, List.findIdx_map]
  congr 1
  funext i
  cases hi : i.isPhi <;> simp [Instruction.kind_eq_phi_iff, hi]

/-- Whether the phis are guarded can be seen in the shape. -/
theorem phisGuarded_iff :
    b.phisGuarded ↔ b.shape.findIdx (· ≠ .phi) = 0 ∨
      b.shape[b.shape.findIdx (· ≠ .phi)]? = some .barrier := by
  rw [phisGuarded, firstNonPhi_eq]
  refine or_congr_right ?_
  generalize b.shape.findIdx (· ≠ .phi) = k
  rw [shape, List.getElem?_map]
  cases b.instructions[k]? with
  | none => simp
  | some i => simp [Instruction.kind_eq_barrier_iff]

/-- Of blocks of the same shape both have their phis guarded, or neither has. -/
theorem phisGuarded_iff_of_shape (h : b'.shape = b.shape) : b'.phisGuarded ↔ b.phisGuarded := by
  rw [phisGuarded_iff, phisGuarded_iff, h]

/-- Whether barriers stand apart can be seen in the shape. -/
theorem apart_iff : Apart b.instructions ↔
    b.shape.IsChain fun k k' => ¬(k = .barrier ∧ k' = .barrier) := by
  rw [Apart, shape, List.isChain_map]
  simp only [Instruction.kind_eq_barrier_iff]

/-- Whether a block consists of phis and a terminator can be seen in its shape. -/
theorem phisOnly_iff :
    b.PhisOnly ↔ ∃ ks, b.shape = ks ++ [.terminator] ∧ ks ≠ [] ∧ ∀ k ∈ ks, k = .phi := by
  constructor
  · rintro ⟨phis, t, hb, hne, hphis, ht⟩
    refine ⟨phis.map Instruction.kind, ?_, by simpa using hne, ?_⟩
    · simp [shape, hb, Instruction.kind_eq_terminator_iff.mpr ht]
    · simpa [Instruction.kind_eq_phi_iff] using hphis
  · rintro ⟨ks, hks, hne, hphi⟩
    obtain ⟨phis, rest, hb, rfl, hrest⟩ := List.map_eq_append_iff.mp hks
    obtain ⟨t, rest, rfl, ht, hrest⟩ := List.map_eq_cons_iff.mp hrest
    obtain rfl := List.map_eq_nil_iff.mp hrest
    refine ⟨phis, t, hb, by simpa using hne, ?_, Instruction.kind_eq_terminator_iff.mp ht⟩
    simpa [Instruction.kind_eq_phi_iff] using hphi

/-- Of blocks of the same shape both consist of phis and a terminator, or neither does. -/
theorem phisOnly_iff_of_shape (h : b'.shape = b.shape) : b'.PhisOnly ↔ b.PhisOnly := by
  rw [phisOnly_iff, phisOnly_iff, h]

/-- A barrier behind the phis stands at the end when nothing but the terminator follows them. -/
theorem endsWithBarrier_guard_behindPhis (h : b.hasTerminator = true) :
    (Place.behindPhis.guard b).endsWithBarrier = true ↔ b.endsWithBarrier = true ∨ b.PhisOnly := by
  obtain ⟨phis, mid, t, hb, hlen, hphis, hrest, ht⟩ := exists_phis_terminator h
  rw [← List.append_assoc] at hb
  have hends := endsWithBarrier_of_append hb ht
  have honly : b.PhisOnly ↔ phis ≠ [] ∧ mid = [] := by
    constructor
    · rintro ⟨phis', t', hb', hne, hphis', -⟩
      rw [hb] at hb'
      obtain ⟨rfl, -⟩ := List.append_inj' hb' rfl
      obtain rfl : mid = [] := by
        cases mid with
        | nil => rfl
        | cons i mid =>
            have := hphis' i (by simp)
            simp [hrest i rfl] at this
      exact ⟨by simpa using hne, rfl⟩
    · rintro ⟨hne, rfl⟩
      exact ⟨phis, t, by simpa using hb, hne, hphis, ht⟩
  have hguard := phisGuarded_of_append (List.append_assoc phis mid [t] ▸ hb) hphis hrest
  rw [hends, honly, Place.guard]
  split
  · rename_i hguarded
    rw [hends]
    refine ⟨.inl, fun hor => hor.resolve_right fun ⟨hne, hmid⟩ => ?_⟩
    subst hmid
    exact Instruction.ne_barrier_of_isTerminator ht
      (Option.some.inj ((hguard.mp hguarded).resolve_left hne))
  · rename_i hguarded
    have hnew : phis ++ .barrier :: (mid ++ [t]) = (phis ++ .barrier :: mid) ++ [t] := by simp
    rw [hlen, insert_of_append _ (List.append_assoc phis mid [t] ▸ hb),
      endsWithBarrier_of_append hnew ht]
    have hne : phis ≠ [] := fun hnil => hguarded (hguard.mpr (.inl hnil))
    by_cases hmid : mid = []
    · simp [hmid, hne]
    · simp [hmid, List.getLast?_cons_of_ne_nil]

/-! ### Where several insertions put barriers -/

/-- A block of phis and a terminator has not gained anything. -/
theorem Gains.phisOnly (h : b.Gains b') (honly : b'.PhisOnly) : b.PhisOnly := by
  cases h with
  | nothing => exact honly
  | @barrier pre post mark _ _ _ _ =>
      obtain ⟨phis, t, hb, -, hphis, ht⟩ := honly
      have hmem : .barrier ∈ phis ++ [t] := hb ▸ List.mem_append_right pre List.mem_cons_self
      rcases List.mem_append.mp hmem with hmem | hmem
      · cases hphis _ hmem
      · exact absurd (List.mem_singleton.mp hmem).symm (Instruction.ne_barrier_of_isTerminator ht)

/-- When a block with several guarded places ends with a barrier. Where it has
nothing but phis, the first of these places is enough. -/
theorem endsWithBarrier_guardAll_iff (h : b.hasTerminator = true) {places : List Place} :
    (b.guardAll places).endsWithBarrier = true ↔ b.endsWithBarrier = true ∨
      (∃ mark, .atEnd mark ∈ places) ∨ .behindPhis ∈ places ∧ b.PhisOnly := by
  constructor
  · intro hends
    induction places generalizing b with
    | nil => exact .inl hends
    | cons place places ih =>
        have hgain := gains_guard h place
        rcases ih (hgain.hasTerminator_eq.trans h) hends with hends | ⟨mark, hmem⟩ | ⟨hmem, honly⟩
        · cases place with
          | atEnd mark => exact .inr (.inl ⟨mark, List.mem_cons_self⟩)
          | behindPhis =>
              exact ((endsWithBarrier_guard_behindPhis h).mp hends).imp_right fun honly =>
                .inr ⟨List.mem_cons_self, honly⟩
        · exact .inr (.inl ⟨mark, List.mem_cons_of_mem _ hmem⟩)
        · exact .inr (.inr ⟨List.mem_cons_of_mem _ hmem, hgain.phisOnly honly⟩)
  · rintro (hends | ⟨mark, hmem⟩ | ⟨hmem, honly⟩)
    · exact (grows_guardAll h places).endsWithBarrier hends
    · exact endsWithBarrier_guardAll h hmem
    · cases places with
      | nil => cases hmem
      | cons place places =>
          have hterm := (gains_guard h place).hasTerminator_eq.trans h
          refine (grows_guardAll hterm places).endsWithBarrier ?_
          cases place with
          | atEnd mark => exact endsWithBarrier_guard h mark
          | behindPhis => exact (endsWithBarrier_guard_behindPhis h).mpr (.inr honly)

/-- The number of phis stays. -/
theorem firstNonPhi_guard (h : b.hasTerminator = true) (place : Place) :
    (place.guard b).firstNonPhi = b.firstNonPhi := by
  obtain ⟨phis, mid, t, hb, hlen, hphis, hrest, ht⟩ := exists_phis_terminator h
  cases place with
  | behindPhis =>
      rw [Place.guard]
      split
      · rfl
      · rw [hlen, insert_of_append _ hb]
        exact firstNonPhi_of_append rfl hphis (by simp [Instruction.isPhi])
  | atEnd mark =>
      rw [Place.guard]
      split
      · rfl
      · rw [← List.append_assoc] at hb
        have hlast : b.instructions.length - 1 = (phis ++ mid).length := by
          rw [hb, List.length_append, List.length_singleton, Nat.add_sub_cancel]
        rw [hlast, insert_of_append _ hb, hlen]
        refine firstNonPhi_of_append (List.append_assoc _ _ _) hphis ?_
        cases mid with
        | nil => simp [Instruction.isPhi]
        | cons i mid => exact hrest

/-- The number of phis stays when several places are guarded. -/
theorem firstNonPhi_guardAll (h : b.hasTerminator = true) (places : List Place) :
    (b.guardAll places).firstNonPhi = b.firstNonPhi := by
  induction places generalizing b with
  | nil => rfl
  | cons place places ih =>
      exact (ih ((gains_guard h place).hasTerminator_eq.trans h)).trans (firstNonPhi_guard h place)

/-- When a block with several guarded places holds a barrier. -/
theorem barrier_mem_guardAll_iff (h : b.hasTerminator = true) {places : List Place} :
    .barrier ∈ (b.guardAll places).instructions ↔ .barrier ∈ b.instructions ∨
      (∃ mark, .atEnd mark ∈ places) ∨ .behindPhis ∈ places ∧ b.firstNonPhi ≠ 0 := by
  constructor
  · intro hmem
    induction places generalizing b with
    | nil => exact .inl hmem
    | cons place places ih =>
        have hterm := (gains_guard h place).hasTerminator_eq.trans h
        rcases ih hterm hmem with hb | ⟨mark, hmem⟩ | ⟨hmem, hphis⟩
        · cases place with
          | atEnd mark => exact .inr (.inl ⟨mark, List.mem_cons_self⟩)
          | behindPhis =>
              by_cases hguarded : b.phisGuarded
              · rw [Place.guard, if_pos hguarded] at hb
                exact .inl hb
              · exact .inr (.inr ⟨List.mem_cons_self, fun hnone => hguarded (.inl hnone)⟩)
        · exact .inr (.inl ⟨mark, List.mem_cons_of_mem _ hmem⟩)
        · rw [firstNonPhi_guard h] at hphis
          exact .inr (.inr ⟨List.mem_cons_of_mem _ hmem, hphis⟩)
  · rintro (hb | ⟨mark, hmem⟩ | ⟨hmem, hphis⟩)
    · exact (grows_guardAll h places).sublist.mem hb
    · exact barrier_mem_of_endsWithBarrier (endsWithBarrier_guardAll h hmem)
    · have hguarded := phisGuarded_guardAll h hmem
      rw [phisGuarded, firstNonPhi_guardAll h] at hguarded
      exact List.mem_of_getElem? (hguarded.resolve_left hphis)

end Block

end Lockstep
