import Lockstep.Proofs.Pass
import Mathlib.Order.Defs.PartialOrder

/-!
# What a pass reports

Some passes say whether they changed anything, and are told what to say if they did not, because
something else may have changed before. `Pass.Reports` says that what they say is true. It speaks of
a measure of the state: a pass that does nothing says what it was told, and any other says `true`
and makes the measure grow. That makes it compose, since what grows again and again does not come
back to where it was. There is one rule for each way of building passes.

## Main results

* `Pass.Reports.bind` and `Pass.Reports.foldlM`: the report of a pass is put together from those of
  its parts.
* `Pass.Reports.foldlM_false`: when a sequence of steps reports no change, none of them made one.
-/

namespace Lockstep

namespace Pass

variable {ε σ τ α β ω : Type} [Preorder ω] {μ : σ → ω} {told : Bool} {detail : Detail} {s s' : σ}
  {x : Pass σ Bool} {y : Pass σ α}

/-- What the pass says when it succeeds: what it was told, if the state is the same, or `true`, if
the measure has grown. -/
def Reports (x : Pass σ Bool) (μ : σ → ω) (told : Bool) (detail : Detail) (s : σ) : Prop :=
  ∀ said s', x.Ends detail s (.ok said) s' → said = told ∧ s' = s ∨ said = true ∧ μ s < μ s'

namespace Reports

/-- A pass that does nothing says what it was told. -/
theorem pure (told : Bool) : (Pure.pure told : Pass σ Bool).Reports μ told detail s :=
  fun _ _ h => .inl ⟨(Except.ok.inj h.1).symm, h.2.symm⟩

/-- A pass that gives up says nothing. -/
theorem fail (e : Error) : (Pass.fail e : Pass σ Bool).Reports μ told detail s := by
  rintro _ _ ⟨h, -⟩
  cases h

/-- A report of no change is true. -/
theorem eq_of_false (hx : x.Reports μ told detail s) (h : x.Ends detail s (.ok false) s') :
    told = false ∧ s' = s := by
  rcases hx _ _ h with ⟨htold, hs⟩ | ⟨hfalse, -⟩
  · exact ⟨htold.symm, hs⟩
  · cases hfalse

/-- A report of a change that it was not told of is true. -/
theorem lt_of_true (hx : x.Reports μ false detail s) (h : x.Ends detail s (.ok true) s') :
    μ s < μ s' := by
  rcases hx _ _ h with ⟨htrue, -⟩ | ⟨-, hlt⟩
  · cases htrue
  · exact hlt

/-- A pass that was told nothing reports a change exactly when it made one. -/
theorem iff_ne (hx : x.Reports μ false detail s) {said : Bool}
    (h : x.Ends detail s (.ok said) s') : said = true ↔ s' ≠ s := by
  rcases hx _ _ h with ⟨rfl, rfl⟩ | ⟨rfl, hlt⟩
  · simp
  · refine iff_of_true rfl ?_
    rintro rfl
    exact lt_irrefl _ hlt

/-! ### Parts that change nothing -/

variable {f : α → Pass σ Bool}

/-- Looking at the state, and what follows. -/
theorem get_bind {f : σ → Pass σ Bool} (h : (f s).Reports μ told detail s) :
    ((MonadState.get : Pass σ σ) >>= f).Reports μ told detail s :=
  fun _ _ hends => h _ _ hends.of_get_bind

/-- A part that only looks at the state. -/
theorem keeps_bind (hy : y.Keeps Eq) (h : ∀ a, (f a).Reports μ told detail s) :
    (y >>= f).Reports μ told detail s := by
  intro said s' hends
  obtain ⟨a, s₁, hfirst, hrest⟩ := hends.exists_of_bind
  obtain rfl : s = s₁ := hfirst.leaves (hy detail s)
  exact h a said s' hrest

/-- A record, and what follows. -/
theorem log_bind {f : Unit → Pass σ Bool} {level : Level} {message : Except Fault String}
    (h : (f ()).Reports μ told detail s) :
    ((Pass.log level message : Pass σ Unit) >>= f).Reports μ told detail s :=
  keeps_bind (fun _ _ => state_log.symm) fun _ => h

/-- A computation, and what follows if it has a value. -/
theorem lift_bind [MonadLiftT (Except ε) (Pass σ)] [Stops ε σ] {c : Except ε α}
    (h : ∀ a, c = .ok a → (f a).Reports μ told detail s) :
    ((liftM c : Pass σ α) >>= f).Reports μ told detail s := by
  intro said s' hends
  obtain ⟨a, s₁, hfirst, hrest⟩ := hends.exists_of_bind
  obtain ⟨hc, rfl⟩ := hfirst.of_lift
  exact h a hc said s' hrest

/-! ### Parts that change something -/

/-- A change that makes the measure grow is to be reported. -/
theorem set_bind {f : PUnit → Pass σ Bool} {new : σ} (hlt : μ s < μ new)
    (h : (f ()).Reports μ true detail new) :
    ((MonadStateOf.set new : Pass σ PUnit) >>= f).Reports μ told detail s := by
  intro said s' hends
  rcases h said s' hends with ⟨hsaid, rfl⟩ | ⟨hsaid, hlt'⟩
  · exact .inr ⟨hsaid, hlt⟩
  · exact .inr ⟨hsaid, lt_trans hlt hlt'⟩

/-- A change of the state that makes the measure grow is to be reported. -/
theorem modify_bind {f : PUnit → Pass σ Bool} {g : σ → σ} (hlt : μ s < μ (g s))
    (h : (f ()).Reports μ true detail (g s)) :
    ((modify g : Pass σ PUnit) >>= f).Reports μ told detail s :=
  set_bind hlt h

/-- A part whose report is handed on to what follows. -/
theorem bind {f : Bool → Pass σ Bool} {g : Bool → Bool} {next : Bool} (htrue : g true = true)
    (hnext : g told = next) (hx : x.Reports μ told detail s)
    (hf : ∀ said s', (f said).Reports μ (g said) detail s') :
    (x >>= f).Reports μ next detail s := by
  subst hnext
  intro said s'' hends
  obtain ⟨first, s', hfirst, hrest⟩ := hends.exists_of_bind
  rcases hx first s' hfirst with ⟨rfl, rfl⟩ | ⟨rfl, hlt⟩
  · exact hf first s' said s'' hrest
  · rcases hf true s' said s'' hrest with ⟨rfl, rfl⟩ | ⟨rfl, hlt'⟩
    · exact .inr ⟨htrue, hlt⟩
    · exact .inr ⟨rfl, lt_trans hlt hlt'⟩

/-- A pass on a part of the state. -/
theorem zoom {ω' : Type} [Preorder ω'] {ν : τ → ω'} {get : σ → τ} {set : τ → σ → σ}
    {x : Pass τ Bool} (hset : set (get s) s = s) (hlt : ∀ t, ν (get s) < ν t → μ s < μ (set t s))
    (hx : x.Reports ν told detail (get s)) :
    (Pass.zoom get set x).Reports μ told detail s := by
  intro said s' hends
  obtain ⟨t, hpart, rfl⟩ := hends.of_zoom
  rcases hx said t hpart with ⟨hsaid, rfl⟩ | ⟨hsaid, hgrown⟩
  · exact .inl ⟨hsaid, hset⟩
  · exact .inr ⟨hsaid, hlt t hgrown⟩

/-! ### Sequences of steps -/

variable {step : Bool → β → Pass σ Bool} {l : List β}

/-- **The report of a sequence of steps** is true if those of the steps are. -/
theorem foldlM (hstep : ∀ said b s, (step said b).Reports μ said detail s) (told : Bool) (s : σ) :
    (l.foldlM step told).Reports μ told detail s := by
  induction l generalizing told s with
  | nil => exact .pure told
  | cons b l ih =>
      rw [List.foldlM_cons]
      exact .bind (g := id) rfl rfl (hstep told b s) ih

/-- **When a sequence of steps reports no change**, each of them reports none, in the state that
there was from the start. -/
theorem foldlM_false (hstep : ∀ said b s, (step said b).Reports μ said detail s)
    (h : (l.foldlM step told).Ends detail s (.ok false) s') :
    ∀ b ∈ l, (step false b).Ends detail s (.ok false) s := by
  induction l generalizing told with
  | nil => exact List.forall_mem_nil _
  | cons b l ih =>
      rw [List.foldlM_cons] at h
      obtain ⟨said, s₁, hfirst, hrest⟩ := h.exists_of_bind
      obtain ⟨rfl, -⟩ := (foldlM hstep said s₁).eq_of_false hrest
      obtain ⟨rfl, rfl⟩ := (hstep told b s).eq_of_false hfirst
      exact List.forall_mem_cons.mpr ⟨hfirst, ih hrest⟩

end Reports

end Pass

end Lockstep
