import Lockstep.Error

/-!
# Passes

A pass works on a state. It ends with a value or a reason for stopping, and in either case
leaves the state that it had reached: nothing is undone. Beside that it writes a log, which it
cannot read. Log records are data: they are collected beside the result.

A pass is told how much of its log is wanted, and a record that is not wanted is not made. That
can be seen only where the text of a record does not exist, for instance because it names a
block that is not there: such a record is a fault where it is wanted, and nothing where not.

Where a pass writes text to is a sink: a buffer, a file, or anything else that may refuse a write.
A write is all or nothing, and one that fails leaves the sink as it was.
-/

namespace Lockstep

/-! ### Log records -/

/-- The weight of a record. -/
inductive Level where
  | error
  | warn
  | info
  | debug
  | trace
deriving DecidableEq

/-- The name of a level. -/
def Level.text : Level → String
  | .error => "ERROR"
  | .warn => "WARN"
  | .info => "INFO"
  | .debug => "DEBUG"
  | .trace => "TRACE"

/-- How much a level says: each shows what the ones before it show, and more. -/
def Level.verbosity : Level → Nat
  | .error => 0
  | .warn => 1
  | .info => 2
  | .debug => 3
  | .trace => 4

/-- How much of a log is wanted: nothing, or everything up to a level. -/
abbrev Detail := Option Level

/-- Are records of the level wanted? -/
def Level.isWanted (level : Level) (detail : Detail) : Bool :=
  match detail with
  | none => false
  | some most => level.verbosity ≤ most.verbosity

/-- A report with its weight. -/
structure Record where
  level : Level
  message : String
deriving DecidableEq

/-- A record as one line; its message may hold further line breaks. -/
def Record.text (r : Record) : String :=
  r.level.text ++ " " ++ r.message

/-- Records in the order in which they were made. -/
abbrev Log := List Record

/-! ### Sinks -/

/-- Something that text is written to. -/
class Sink (σ : Type) where
  /-- Takes a text, all of it or nothing. -/
  write : σ → String → Except IoError σ
  /-- Brings what was written to its destination. -/
  flush : σ → Except IoError σ

/-- Text that is kept in memory. -/
instance : Sink String where
  write sink text := .ok (sink ++ text)
  flush := .ok

/-! ### Passes -/

/-- What a pass leaves behind. -/
structure Outcome (σ α : Type) where
  result : Except Stop α
  state : σ
  log : Log

/-- A computation on a state that may stop early and that keeps a log, as detailed as wanted. -/
def Pass (σ α : Type) : Type :=
  Detail → σ → Outcome σ α

namespace Pass

variable {σ τ α β : Type}

/-- Runs a pass from a state. -/
def run (x : Pass σ α) (detail : Detail) (s : σ) : Outcome σ α :=
  x detail s

/-- Goes on with the value of a pass, if it has one. -/
def andThen (x : Pass σ α) (f : α → Pass σ β) : Pass σ β := fun detail s =>
  match x detail s with
  | ⟨.ok a, s, log⟩ =>
      let next := f a detail s
      { next with log := log ++ next.log }
  | ⟨.error e, s, log⟩ => ⟨.error e, s, log⟩

instance : Monad (Pass σ) where
  pure a := fun _ s => ⟨.ok a, s, []⟩
  bind := andThen

instance : MonadStateOf σ (Pass σ) where
  get := fun _ s => ⟨.ok s, s, []⟩
  set s := fun _ _ => ⟨.ok (), s, []⟩
  modifyGet f := fun _ s => ⟨.ok (f s).1, (f s).2, []⟩

instance : MonadLift (Except Stop) (Pass σ) where
  monadLift x := fun _ s => ⟨x, s, []⟩

/-- Stops for a reason. -/
def stop (e : Stop) : Pass σ α := fun _ s =>
  ⟨.error e, s, []⟩

/-- Gives up with an error. -/
def fail (e : Error) : Pass σ α :=
  stop (.error e)

/-- Writes a record, if it is wanted. -/
def log (level : Level) (message : Except Fault String) : Pass σ Unit := fun detail s =>
  if level.isWanted detail then
    match message with
    | .ok message => ⟨.ok (), s, [⟨level, message⟩]⟩
    | .error e => ⟨.error (.fault e), s, []⟩
  else ⟨.ok (), s, []⟩

/-- Runs a pass on a part of the state. -/
def zoom (get : σ → τ) (set : τ → σ → σ) (x : Pass τ α) : Pass σ α := fun detail s =>
  let out := x detail (get s)
  ⟨out.result, set out.state s, out.log⟩

/-! ### What a run leaves -/

/-- A pass is known by its runs. -/
@[ext]
theorem ext {x y : Pass σ α} (h : ∀ detail s, x.run detail s = y.run detail s) : x = y :=
  funext fun detail => funext (h detail)

/-- A pass that only gives a value. -/
@[simp]
theorem run_pure (a : α) (detail : Detail) (s : σ) :
    (pure a : Pass σ α).run detail s = ⟨.ok a, s, []⟩ :=
  rfl

/-- A pass that only stops. -/
@[simp]
theorem run_stop (e : Stop) (detail : Detail) (s : σ) :
    (stop e : Pass σ α).run detail s = ⟨.error e, s, []⟩ :=
  rfl

/-- A pass that only gives up. -/
@[simp]
theorem run_fail (e : Error) (detail : Detail) (s : σ) :
    (fail e : Pass σ α).run detail s = ⟨.error (.error e), s, []⟩ :=
  rfl

/-- A record that has a text never stops a pass. -/
@[simp]
theorem run_log_ok (level : Level) (message : String) (detail : Detail) (s : σ) :
    (log level (.ok message) : Pass σ Unit).run detail s =
      ⟨.ok (), s, if level.isWanted detail then [⟨level, message⟩] else []⟩ := by
  simp only [run, log]
  split <;> rfl

/-- A pass that only looks at the state. -/
@[simp]
theorem run_get (detail : Detail) (s : σ) : (get : Pass σ σ).run detail s = ⟨.ok s, s, []⟩ :=
  rfl

/-- A pass that only replaces the state. -/
@[simp]
theorem run_set (new : σ) (detail : Detail) (s : σ) :
    (set new : Pass σ PUnit).run detail s = ⟨.ok (), new, []⟩ :=
  rfl

/-- A pass that only changes the state. -/
@[simp]
theorem run_modify (f : σ → σ) (detail : Detail) (s : σ) :
    (modify f : Pass σ PUnit).run detail s = ⟨.ok (), f s, []⟩ :=
  rfl

/-- A pass on a part of the state leaves the rest alone. -/
@[simp]
theorem run_zoom (get : σ → τ) (set : τ → σ → σ) (x : Pass τ α) (detail : Detail) (s : σ) :
    (zoom get set x).run detail s =
      ⟨(x.run detail (get s)).result, set (x.run detail (get s)).state s,
        (x.run detail (get s)).log⟩ :=
  rfl

/-- A computation without state leaves the state as it was and writes no log. -/
@[simp]
theorem run_monadLift (x : Except Stop α) (detail : Detail) (s : σ) :
    (monadLift x : Pass σ α).run detail s = ⟨x, s, []⟩ :=
  rfl

/-- Behind a pass that has a value the next one runs, from the state that it left. -/
theorem run_bind_of_ok {x : Pass σ α} {f : α → Pass σ β} {detail : Detail} {s : σ} {a : α}
    (h : (x.run detail s).result = .ok a) :
    (x >>= f).run detail s =
      ⟨((f a).run detail (x.run detail s).state).result,
        ((f a).run detail (x.run detail s).state).state,
        (x.run detail s).log ++ ((f a).run detail (x.run detail s).state).log⟩ := by
  simp only [run] at h ⊢
  simp only [bind, andThen]
  split <;> simp_all

/-- Behind a pass that stops nothing runs. -/
theorem run_bind_of_error {x : Pass σ α} {f : α → Pass σ β} {detail : Detail} {s : σ} {e : Stop}
    (h : (x.run detail s).result = .error e) :
    (x >>= f).run detail s = ⟨.error e, (x.run detail s).state, (x.run detail s).log⟩ := by
  simp only [run] at h ⊢
  simp only [bind, andThen]
  split <;> simp_all

/-- Passes can be regrouped: states are handed on, and logs are appended, in the order in which
the passes stand. -/
instance : LawfulMonad (Pass σ) := LawfulMonad.mk' (Pass σ)
  (fun x => by
    ext detail s
    change (x >>= pure).run detail s = x.run detail s
    cases h : (x.run detail s).result with
    | ok a => simp [run_bind_of_ok h, ← h]
    | error e => simp [run_bind_of_error h, ← h])
  (fun a f => by
    ext detail s
    have h : ((pure a : Pass σ _).run detail s).result = .ok a := rfl
    simp [run_bind_of_ok h])
  (fun x f g => by
    ext detail s
    cases h : (x.run detail s).result with
    | error e =>
        have h' : ((x >>= f).run detail s).result = .error e := by rw [run_bind_of_error h]
        rw [run_bind_of_error h, run_bind_of_error h', run_bind_of_error h]
    | ok a =>
        cases hf : ((f a).run detail (x.run detail s).state).result with
        | error e =>
            have h' : ((x >>= f).run detail s).result = .error e := by rw [run_bind_of_ok h, hf]
            rw [run_bind_of_ok h, run_bind_of_error h', run_bind_of_ok h, run_bind_of_error hf]
        | ok b =>
            have h' : ((x >>= f).run detail s).result = .ok b := by rw [run_bind_of_ok h, hf]
            rw [run_bind_of_ok h, run_bind_of_ok h', run_bind_of_ok h, run_bind_of_ok hf]
            simp)

end Pass

end Lockstep
