import Lockstep.Pass

/-!
# What a pass does to its state

Two ways of speaking of a run. `Pass.Ends` says what result and what state a pass ends with from a
given state; the log is left out of it. `Pass.Leaves` says something of the state that a run
leaves, whether it succeeds or not, and `Pass.Keeps` does so for every state to start from. Each
comes with one rule for each way of building passes.

## Main results

* `Pass.Ends.bind`, `Pass.Ends.bind_error`: running one pass after another.
* `Pass.Keeps.bind`, `Pass.Keeps.foldlM`: a relation between states that the parts of a pass keep
  is kept by the whole.
-/

namespace Lockstep

namespace Pass

/-! ### Computations without state -/

/-- Reasons of a kind stop passes: a computation that ends for such a reason stops a pass that runs
it, and leaves the state and the log alone. -/
class Stops (ε σ : Type) [MonadLiftT (Except ε) (Pass σ)] where
  /-- The reason as one for stopping. -/
  toStop : ε → Stop
  /-- What a run of the computation leaves. -/
  run_lift : ∀ {α : Type} (c : Except ε α) (detail : Detail) (s : σ),
    (liftM c : Pass σ α).run detail s = ⟨c.mapError toStop, s, []⟩

/-- A computation that may stop is run as it is. -/
instance {σ : Type} : Stops Stop σ where
  toStop := id
  run_lift c _ _ := by cases c <;> rfl

/-- A fault stops a pass. -/
instance {σ : Type} : Stops Fault σ where
  toStop := .fault
  run_lift _ _ _ := rfl

/-- An error stops a pass. -/
instance {σ : Type} : Stops Error σ where
  toStop := .error
  run_lift _ _ _ := rfl

variable {ε σ τ α β : Type} {detail : Detail} {s s' s'' : σ} {x : Pass σ α} {f : α → Pass σ β}
  {a : α} {e : Stop}

/-! ### How a run ends -/

/-- Run from the first state, the pass ends with this result in the second state. -/
def Ends (x : Pass σ α) (detail : Detail) (s : σ) (result : Except Stop α) (s' : σ) : Prop :=
  (x.run detail s).result = result ∧ (x.run detail s).state = s'

/-- What holds of the state that the run leaves. -/
def Leaves (x : Pass σ α) (detail : Detail) (s : σ) (P : σ → Prop) : Prop :=
  P (x.run detail s).state

namespace Ends

variable {result : Except Stop β}

/-- A pass that only gives a value. -/
theorem pure (a : α) : (Pure.pure a : Pass σ α).Ends detail s (.ok a) s :=
  ⟨rfl, rfl⟩

/-- A pass that only looks at the state. -/
theorem get : (MonadState.get : Pass σ σ).Ends detail s (.ok s) s :=
  ⟨rfl, rfl⟩

/-- A pass that only replaces the state. -/
theorem set (new : σ) : (MonadStateOf.set new : Pass σ PUnit).Ends detail s (.ok ()) new :=
  ⟨rfl, rfl⟩

/-- A pass that gives up. -/
theorem fail (e : Error) : (Pass.fail e : Pass σ α).Ends detail s (.error (.error e)) s :=
  ⟨rfl, rfl⟩

/-- One pass after another that ends with a value. -/
theorem bind (hx : x.Ends detail s (.ok a) s') (hf : (f a).Ends detail s' result s'') :
    (x >>= f).Ends detail s result s'' := by
  rw [Ends, run_bind_of_ok hx.1, hx.2]
  exact hf

/-- Nothing is run behind a pass that stops. -/
theorem bind_error (hx : x.Ends detail s (.error e) s') :
    (x >>= f).Ends detail s (.error e) s' := by
  rw [Ends, run_bind_of_error hx.1]
  exact ⟨rfl, hx.2⟩

/-- Both parts of a run that ends with a value do so. -/
theorem exists_of_bind {b : β} (h : (x >>= f).Ends detail s (.ok b) s'') :
    ∃ a s', x.Ends detail s (.ok a) s' ∧ (f a).Ends detail s' (.ok b) s'' := by
  cases hr : (x.run detail s).result with
  | ok a =>
      rw [Ends, run_bind_of_ok hr] at h
      exact ⟨a, _, ⟨hr, rfl⟩, h⟩
  | error e =>
      rw [Ends, run_bind_of_error hr] at h
      cases h.1

/-- A run that stops does so in its first part or in its second. -/
theorem error_of_bind (h : (x >>= f).Ends detail s (.error e) s'') :
    x.Ends detail s (.error e) s'' ∨
      ∃ a s', x.Ends detail s (.ok a) s' ∧ (f a).Ends detail s' (.error e) s'' := by
  cases hr : (x.run detail s).result with
  | ok a =>
      rw [Ends, run_bind_of_ok hr] at h
      exact .inr ⟨a, _, ⟨hr, rfl⟩, h⟩
  | error e' =>
      rw [Ends, run_bind_of_error hr] at h
      obtain rfl : e' = e := Except.error.inj h.1
      exact .inl ⟨hr, h.2⟩

/-- Looking at the state first changes nothing about how a run ends. -/
theorem of_get_bind {g : σ → Pass σ β}
    (h : ((MonadState.get : Pass σ σ) >>= g).Ends detail s result s'') :
    (g s).Ends detail s result s'' :=
  h

/-- A run ends in one way only. -/
theorem unique {out out' : Except Stop α} {t : σ} (hx : x.Ends detail s out s')
    (hx' : x.Ends detail s out' t) : out = out' ∧ s' = t :=
  ⟨hx.1.symm.trans hx'.1, hx.2.symm.trans hx'.2⟩

/-- What a pass leaves is the state that it ends in. -/
theorem leaves {P : σ → Prop} {out : Except Stop α} (hx : x.Ends detail s out s')
    (h : x.Leaves detail s P) : P s' := by
  rw [Leaves, hx.2] at h
  exact h

/-- What a run leaves is what is left behind its first part. -/
theorem leaves_bind {P : σ → Prop} (hx : x.Ends detail s (.ok a) s')
    (h : (x >>= f).Leaves detail s P) : (f a).Leaves detail s' P := by
  rw [Leaves, run_bind_of_ok hx.1, hx.2] at h
  exact h

section Lift

variable [MonadLiftT (Except ε) (Pass σ)] [Stops ε σ] {c : Except ε α} {reason : ε}

/-- A computation that ends with a value. -/
theorem lift (h : c = .ok a) : (liftM c : Pass σ α).Ends detail s (.ok a) s := by
  subst h
  rw [Ends, Stops.run_lift]
  exact ⟨rfl, rfl⟩

/-- A computation that ends for a reason. -/
theorem lift_error (h : c = .error reason) :
    (liftM c : Pass σ α).Ends detail s (.error (Stops.toStop σ reason)) s := by
  subst h
  rw [Ends, Stops.run_lift]
  exact ⟨rfl, rfl⟩

/-- A computation that is run with a value has it, and the state is what it was. -/
theorem of_lift (h : (liftM c : Pass σ α).Ends detail s (.ok a) s') : c = .ok a ∧ s = s' := by
  rw [Ends, Stops.run_lift] at h
  cases c with
  | ok a' => exact ⟨congrArg Except.ok (Except.ok.inj h.1), h.2⟩
  | error reason => cases h.1

/-- A computation that stops a pass ends for a reason. -/
theorem error_of_lift (h : (liftM c : Pass σ α).Ends detail s (.error e) s') :
    ∃ reason, c = .error reason ∧ e = Stops.toStop σ reason := by
  rw [Ends, Stops.run_lift] at h
  cases c with
  | ok a' => cases h.1
  | error reason => exact ⟨reason, rfl, (Except.error.inj h.1).symm⟩

end Lift

/-- A record that has a text. -/
theorem log {level : Level} {message : Except Fault String} {text : String}
    (h : message = .ok text) : (Pass.log level message : Pass σ Unit).Ends detail s (.ok ()) s := by
  subst h
  rw [Ends, run_log_ok]
  exact ⟨rfl, rfl⟩

/-- A pass on a part of the state. -/
theorem zoom {get : σ → τ} {set : τ → σ → σ} {y : Pass τ α} {t : τ} {out : Except Stop α}
    (h : y.Ends detail (get s) out t) : (Pass.zoom get set y).Ends detail s out (set t s) := by
  rw [Ends, run_zoom, h.1, h.2]
  exact ⟨rfl, rfl⟩

/-- A pass on a part of the state ends as that part does. -/
theorem of_zoom {get : σ → τ} {set : τ → σ → σ} {y : Pass τ α} {out : Except Stop α}
    (h : (Pass.zoom get set y).Ends detail s out s') :
    ∃ t, y.Ends detail (get s) out t ∧ s' = set t s := by
  rw [Ends, run_zoom] at h
  exact ⟨_, ⟨h.1, rfl⟩, h.2.symm⟩

end Ends

/-! ### What a run leaves -/

/-- A record, whether it is made or not, leaves the state alone. -/
theorem state_log {level : Level} {message : Except Fault String} :
    ((Pass.log level message : Pass σ Unit).run detail s).state = s := by
  simp only [run, Pass.log]
  split
  · split <;> rfl
  · rfl

/-- However a run ends, the state that it leaves is related to the one that it started from. -/
def Keeps (R : σ → σ → Prop) (x : Pass σ α) : Prop :=
  ∀ detail s, x.Leaves detail s (R s)

namespace Leaves

variable {P Q : σ → Prop}

/-- Giving a value leaves the state alone. -/
theorem pure {a : α} (hs : P s) : (Pure.pure a : Pass σ α).Leaves detail s P :=
  hs

/-- Giving up leaves the state alone. -/
theorem fail {e : Error} (hs : P s) : (Pass.fail e : Pass σ α).Leaves detail s P :=
  hs

/-- Replacing the state, and what follows. -/
theorem set_bind {f : PUnit → Pass σ β} {new : σ} (h : (f ()).Leaves detail new P) :
    ((MonadStateOf.set new : Pass σ PUnit) >>= f).Leaves detail s P :=
  h

/-- Changing the state, and what follows. -/
theorem modify_bind {f : PUnit → Pass σ β} {g : σ → σ} (h : (f ()).Leaves detail (g s) P) :
    ((modify g : Pass σ PUnit) >>= f).Leaves detail s P :=
  h

/-- Running one pass after another, whether the first stops or not. -/
theorem bind (hx : x.Leaves detail s Q) (hstop : ∀ s', Q s' → P s')
    (hf : ∀ a s', Q s' → (f a).Leaves detail s' P) : (x >>= f).Leaves detail s P := by
  rw [Leaves] at hx ⊢
  cases hr : (x.run detail s).result with
  | ok a =>
      rw [run_bind_of_ok hr]
      exact hf a _ hx
  | error e =>
      rw [run_bind_of_error hr]
      exact hstop _ hx

/-- What holds behind the whole run held behind its first part, if it cannot come to hold on the
way. -/
theorem of_bind {R : σ → σ → Prop} (h : (x >>= f).Leaves detail s P) (hf : ∀ a, (f a).Keeps R)
    (hP : ∀ s s', R s s' → P s' → P s) : x.Leaves detail s P := by
  rw [Leaves] at h ⊢
  cases hr : (x.run detail s).result with
  | ok a =>
      rw [run_bind_of_ok hr] at h
      exact hP _ _ (hf a detail _) h
  | error e =>
      rw [run_bind_of_error hr] at h
      exact h

/-- Looking at the state, and what follows. -/
theorem get_bind {f : σ → Pass σ β} (h : (f s).Leaves detail s P) :
    ((MonadState.get : Pass σ σ) >>= f).Leaves detail s P :=
  h

/-- A computation, and what follows if it has a value. -/
theorem lift_bind [MonadLiftT (Except ε) (Pass σ)] [Stops ε σ] {c : Except ε α} (hs : P s)
    (h : ∀ a, c = .ok a → (f a).Leaves detail s P) :
    ((liftM c : Pass σ α) >>= f).Leaves detail s P := by
  cases c with
  | ok a =>
      have hends : (liftM (Except.ok a : Except ε α) : Pass σ α).Ends detail s (.ok a) s :=
        .lift rfl
      rw [Leaves, run_bind_of_ok hends.1, hends.2]
      exact h a rfl
  | error reason =>
      have hends : (liftM (Except.error reason : Except ε α) : Pass σ α).Ends detail s _ s :=
        .lift_error rfl
      rw [Leaves, run_bind_of_error hends.1, hends.2]
      exact hs

/-- A record, and what follows, whether the record has a text or not. -/
theorem log_bind {level : Level} {message : Except Fault String} {f : Unit → Pass σ β} (hs : P s)
    (h : (f ()).Leaves detail s P) :
    ((Pass.log level message : Pass σ Unit) >>= f).Leaves detail s P := by
  refine .bind (Q := (· = s)) state_log ?_ ?_
  · rintro _ rfl
    exact hs
  · rintro _ _ rfl
    exact h

end Leaves

namespace Keeps

variable {R : σ → σ → Prop}

/-- What is kept by two passes is kept by one after the other. -/
theorem bind (htrans : ∀ a b c, R a b → R b c → R a c) (hx : x.Keeps R)
    (hf : ∀ a, (f a).Keeps R) : (x >>= f).Keeps R := by
  intro detail s
  exact .bind (hx detail s) (fun _ h => h) fun a s' h => htrans _ _ _ h (hf a detail s')

/-- What is kept by every step is kept by a sequence of steps. -/
theorem foldlM (hrefl : ∀ a, R a a) (htrans : ∀ a b c, R a b → R b c → R a c) {l : List β}
    {g : α → β → Pass σ α} (hg : ∀ a b, (g a b).Keeps R) (a : α) : (l.foldlM g a).Keeps R := by
  induction l generalizing a with
  | nil => exact fun detail s => hrefl s
  | cons b l ih =>
      rw [List.foldlM_cons]
      exact bind htrans (hg a b) ih

end Keeps

end Pass

end Lockstep
