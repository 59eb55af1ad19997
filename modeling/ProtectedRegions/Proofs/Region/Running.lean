import Mathlib.Logic.Relation
import ProtectedRegions.Region.Tree

/-!
# Running a method

A run of a laid out method in which nothing throws. Statements, closures and cleanups are seen and
run on; a leave runs the handlers of the protected blocks that it leaves; a return or a throw is
seen and stops the run. What is seen of a run is its trace.
-/

namespace ProtectedRegions

/-- A run of a system whose moves may show something, with all that it shows. -/
inductive Run {State Seen : Type} (moves : State → Option Seen → State → Prop) :
    State → List Seen → State → Prop
  | refl {state : State} : Run moves state [] state
  | head {first second last : State} {seen : Option Seen} {trace : List Seen}
      (move : moves first seen second) (run : Run moves second trace last) :
      Run moves first (seen.toList ++ trace) last

namespace Run

variable {State State' Seen : Type} {moves : State → Option Seen → State → Prop}
  {moves' : State' → Option Seen → State' → Prop}

theorem single {first second : State} {seen : Option Seen} (move : moves first seen second) :
    Run moves first seen.toList second := by
  simpa using head move refl

theorem append {first second third : State} {trace trace' : List Seen}
    (run : Run moves first trace second) (run' : Run moves second trace' third) :
    Run moves first (trace ++ trace') third := by
  induction run with
  | refl => exact run'
  | head move _ ih =>
    rw [List.append_assoc]
    exact head move (ih run')

/-- If each move of a system is matched by a run of another one that shows the same, then so is
each run. -/
theorem simulate (related : State → State' → Prop)
    (step : ∀ {first second seen first'}, related first first' → moves first seen second →
      ∃ second', Run moves' first' seen.toList second' ∧ related second second')
    {first last : State} {trace : List Seen} (run : Run moves first trace last) {first' : State'}
    (starts : related first first') :
    ∃ last', Run moves' first' trace last' ∧ related last last' := by
  induction run generalizing first' with
  | refl => exact ⟨first', refl, starts⟩
  | head move _ ih =>
    obtain ⟨second', run', next⟩ := step starts move
    obtain ⟨last', run'', ends⟩ := ih next
    exact ⟨last', run'.append run'', ends⟩

end Run

/-- Where a test goes on: a condition that is known is never tested in vain. -/
def Condition.ways {State Seen : Type} (condition : Condition) (holds fails : State) :
    List (Option Seen × State) :=
  (if condition = .never then [] else [(none, holds)]) ++
    if condition = .always then [] else [(none, fails)]

/-- A leave on its way: the handlers that it runs behind the one that is running, and its
target. -/
structure Leaving where
  handlers : List Nat
  target : Nat
  deriving DecidableEq, Repr

/-- The state of a run. While handlers run the leaves that they run for wait, the latest first. -/
inductive Progress where
  | running (offset : Nat) (waiting : List Leaving)
  | stopped
  deriving DecidableEq, Repr

/-- A leave goes on with the first of the handlers that it has still to run, or to its target. -/
def Progress.leave (target : Nat) (waiting : List Leaving) : List Nat → Progress
  | [] => .running target waiting
  | handler :: handlers => .running handler (⟨handlers, target⟩ :: waiting)

namespace RegionTree

/-- The span that the handler of a region protects, which is that of its first child. -/
def protectedSpan? (tree : RegionTree) (region : Region) : Option Span :=
  (region.children.head?.bind tree.region?).map (·.span)

/-- The handlers that a leave runs, innermost first: those of the `finally` regions that protect
its source and not its target. A region is listed before the regions inside of it. -/
def handlersLeft (tree : RegionTree) (source target : Nat) : List Nat :=
  ((tree.ofKind .finallyBlock).filterMap fun region ↦
    (tree.protectedSpan? region).bind fun span ↦
      if span.covers source && !span.covers target then region.handler.map (·.start)
      else none).reverse

/-- What an instruction at an offset does, with what is seen of it. The condition that is tested at
an offset is given. Filters are for exceptions only. -/
def acts (tree : RegionTree) (tests : Nat → Condition) (offset : Nat) (waiting : List Leaving) :
    Instruction Nat → List (Option (Instruction Nat) × Progress)
  | .code stmt => [(some (.code stmt), .running (offset + 1) waiting)]
  | .closure stmt => [(some (.closure stmt), .running (offset + 1) waiting)]
  | .cleanup stmt kind => [(some (.cleanup stmt kind), .running (offset + 1) waiting)]
  | .ret => [(some .ret, .stopped)]
  | .throwException => [(some .throwException, .stopped)]
  | .rethrow => [(some .rethrow, .stopped)]
  | .branch target => [(none, .running target waiting)]
  | .branchIf target =>
    (tests offset).ways (.running (offset + 1) waiting) (.running target waiting)
  | .switch targets =>
    targets.map (fun target ↦ (none, .running target waiting)) ++
      [(none, .running (offset + 1) waiting)]
  | .leave target => [(none, .leave target waiting (tree.handlersLeft offset target))]
  | .endFinally =>
    match waiting with
    | [] => []
    | leaving :: waiting => [(none, .leave leaving.target waiting leaving.handlers)]
  | .filter .. | .endFilter => []

/-- The moves from a state of a run. -/
def moves (tree : RegionTree) (tests : Nat → Condition) :
    Progress → List (Option (Instruction Nat) × Progress)
  | .stopped => []
  | .running offset waiting =>
    (tree.instructions[offset]?).elim [] (tree.acts tests offset waiting)

/-- The moves as a system. -/
def Moves (tree : RegionTree) (tests : Nat → Condition) (first : Progress)
    (seen : Option (Instruction Nat)) (second : Progress) : Prop :=
  (seen, second) ∈ tree.moves tests first

/-- What is seen of a run of the method from its start on. -/
def Traces (tree : RegionTree) (tests : Nat → Condition) (trace : List (Instruction Nat)) :
    Prop :=
  ∃ progress, Run (tree.Moves tests) (.running 0 []) trace progress

/-- The state has one move, which shows nothing. -/
def Forced (tree : RegionTree) (tests : Nat → Condition) (first second : Progress) : Prop :=
  tree.moves tests first = [(none, second)]

end RegionTree
end ProtectedRegions
