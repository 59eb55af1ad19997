import ProtectedRegions.Error
import ProtectedRegions.Event

/-!
# Results with their events

A build may fail, and on its way it reports events. What was reported before a failure stays
reported.
-/

namespace ProtectedRegions

/-- What came of a computation, and what it reported, in order. -/
structure Logged (α : Type) where
  result : Except Error α
  events : List Event

namespace Logged

variable {α β σ τ : Type}

instance : Monad Logged where
  pure value := ⟨.ok value, []⟩
  bind first next :=
    match first.result with
    | .ok value => ⟨(next value).result, first.events ++ (next value).events⟩
    | .error error => ⟨.error error, first.events⟩

/-- Reports an event. -/
def report (event : Event) : Logged Unit := ⟨.ok (), [event]⟩

/-- Takes over a result that reported nothing. -/
def ofResult (result : Except Error α) : Logged α := ⟨result, []⟩

/-- The value that should be there, or else the error. -/
def require (error : Error) : Option α → Logged α
  | some value => pure value
  | none => ofResult (.error error)

/-- A step that succeeds hands its value on. -/
theorem ok_bind (value : α) (events : List Event) (next : α → Logged β) :
    (⟨.ok value, events⟩ : Logged α) >>= next =
      ⟨(next value).result, events ++ (next value).events⟩ := rfl

instance : LawfulMonad Logged := by
  refine .mk' Logged (fun first ↦ ?_) (fun value next ↦ rfl) fun first next later ↦ ?_
  · obtain ⟨_ | value, events⟩ := first
    · rfl
    · exact congrArg (Logged.mk _) (List.append_nil events)
  · obtain ⟨_ | value, events⟩ := first
    · rfl
    · rw [ok_bind, ok_bind]
      cases second : next value with
      | mk result events' =>
        cases result with
        | error => rfl
        | ok value' => exact congrArg (Logged.mk _) (List.append_assoc ..)

/-- Steps that all succeed hand a state on from one to the next. -/
theorem foldlM_eq {step : σ → τ → Logged σ} {next : σ → τ → σ} {events : τ → List Event}
    {tasks : List τ}
    (succeeds : ∀ task ∈ tasks, ∀ state, step state task = ⟨.ok (next state task), events task⟩)
    (state : σ) :
    tasks.foldlM step state = ⟨.ok (tasks.foldl next state), tasks.flatMap events⟩ := by
  induction tasks generalizing state with
  | nil => rfl
  | cons task rest ih =>
    obtain ⟨first, later⟩ := List.forall_mem_cons.mp succeeds
    rw [List.foldlM_cons, first, ok_bind, ih later]
    rfl

end Logged
end ProtectedRegions
