/-
  Outcomes.

  An operation on a state is done, or stops with a fault; either way there is a state afterwards.
  Keeping the state of a failed operation is what lets one say that failing changed nothing.
-/
import Chip8.Fault

namespace Chip8

/-- How an operation ended, with the state it left. -/
inductive Outcome (σ : Type) where
  | done (state : σ)
  | failed (fault : Fault) (state : σ)
deriving Repr

namespace Outcome

variable {σ τ : Type}

/-- The state the operation left. -/
def state : Outcome σ → σ
  | done s => s
  | failed _ s => s

/-- The fault the operation stopped with. -/
def fault? : Outcome σ → Option Fault
  | done _ => none
  | failed f _ => some f

/-- Go on from the state of an operation that is done. -/
def andThen (o : Outcome σ) (next : σ → Outcome σ) : Outcome σ :=
  match o with
  | done s => next s
  | failed f s => failed f s

/-- The same outcome seen as one of a larger state. -/
def map (f : σ → τ) : Outcome σ → Outcome τ
  | done s => done (f s)
  | failed fault s => failed fault (f s)

@[simp] theorem state_done (s : σ) : (done s).state = s := rfl

@[simp] theorem state_failed (f : Fault) (s : σ) : (failed f s).state = s := rfl

@[simp] theorem done_andThen (s : σ) (next : σ → Outcome σ) : (done s).andThen next = next s := rfl

@[simp] theorem failed_andThen (f : Fault) (s : σ) (next : σ → Outcome σ) :
    (failed f s).andThen next = failed f s := rfl

/-- Three operations in a row may be split behind the first or behind the second. -/
theorem andThen_assoc (o : Outcome σ) (f g : σ → Outcome σ) :
    (o.andThen f).andThen g = o.andThen fun s => (f s).andThen g := by
  cases o <;> rfl

/-! ## Seen through a function -/

variable {f : σ → τ} {o p : Outcome σ}

theorem map_map {υ : Type} (f : σ → τ) (g : τ → υ) (o : Outcome σ) :
    (o.map f).map g = o.map fun s => g (f s) := by
  cases o <;> rfl

/-- What was left is seen through the function. -/
theorem state_map (f : σ → τ) (o : Outcome σ) : (o.map f).state = f o.state := by cases o <;> rfl

/-- Seeing an outcome through a function does not change its fault. -/
theorem fault?_map (f : σ → τ) (o : Outcome σ) : (o.map f).fault? = o.fault? := by cases o <;> rfl

/-- Operations that look the same ended in the same way. -/
theorem cases_of_map_eq (h : o.map f = p.map f) : (∃ s t, o = .done s ∧ p = .done t ∧ f s = f t)
    ∨ ∃ fault s t, o = .failed fault s ∧ p = .failed fault t ∧ f s = f t := by
  cases o with
  | done s =>
    cases p with
    | done t => exact .inl ⟨s, t, rfl, rfl, done.inj h⟩
    | failed fault t => cases h
  | failed fault s =>
    cases p with
    | done t => cases h
    | failed fault' t =>
      obtain ⟨rfl, hstate⟩ := failed.inj h
      exact .inr ⟨fault, s, t, rfl, rfl, hstate⟩

/-- Going on in ways that look the same from states that look the same. -/
theorem andThen_congr {next next' : σ → Outcome σ} (h : o.map f = p.map f)
    (hnext : ∀ s t, o = .done s → p = .done t → f s = f t → (next s).map f = (next' t).map f) :
    (o.andThen next).map f = (p.andThen next').map f := by
  obtain ⟨s, t, rfl, rfl, hstate⟩ | ⟨fault, s, t, rfl, rfl, hstate⟩ := cases_of_map_eq h
  · exact hnext s t rfl rfl hstate
  · exact congrArg (failed fault) hstate

end Outcome

end Chip8
