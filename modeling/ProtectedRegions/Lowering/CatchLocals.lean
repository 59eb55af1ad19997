import ProtectedRegions.Flow.Basic

/-!
# Scope of catch locals

A local bound by a catch clause may be read in the body of that clause and in its filter.
Filters of `try` statements inside the body may read it too.
-/

namespace ProtectedRegions

/-- The catch clause that binds a local (`regions/builder:616`). -/
structure Binding where
  binder : LocalId
  stmt : StmtId
  clause : Nat
  handler : StmtId
  deriving DecidableEq, Repr

/-- The locals that the catch clauses of a statement bind. -/
def Statement.bindings (stmt : StmtId) : Statement → List Binding
  | .tryBlock parts =>
    parts.catches.zipIdx.filterMap fun (clause, place) ↦
      clause.binder.map fun binder ↦ ⟨binder, stmt, place, clause.body⟩
  | _ => []

namespace Body

/-- All locals that catch clauses bind (`regions/builder:616–625`). -/
def bindings (body : Body) : List Binding :=
  body.entries.flatMap fun (stmt, shape) ↦ shape.bindings stmt

end Body

namespace Flow

/-- An expression reads a catch local only inside the body of its clause
(`regions/builder:633–645`). -/
def checkRead (flow : Flow) (bindings : List Binding) (stmt : StmtId) (binder : LocalId) :
    Except Error Unit :=
  match bindings.find? (·.binder == binder) with
  | some binding =>
    if flow.contains binding.handler stmt then .ok ()
    else .error (.malformed (.localReadOutside binder stmt binding.handler))
  | none => .ok ()

/-- A filter reads a catch local only if its own clause binds it, or inside the body of the clause
that does (`regions/builder:652–666`). -/
def checkFilterRead (flow : Flow) (bindings : List Binding) (stmt : StmtId) (clause : Nat)
    (binder : LocalId) : Except Error Unit :=
  match bindings.find? (·.binder == binder) with
  | some binding =>
    if (binding.stmt = stmt && binding.clause == clause) ||
        flow.contains binding.handler stmt then .ok ()
    else .error (.malformed (.filterReadsForeign clause stmt binder binding.handler))
  | none => .ok ()

/-- The reads of one statement (`regions/builder:630–671`). -/
def checkReads (flow : Flow) (bindings : List Binding) :
    StmtId × Statement → Except Error Unit
  | (stmt, .expression uses) => uses.forM (flow.checkRead bindings stmt)
  | (stmt, .tryBlock parts) =>
    parts.catches.zipIdx.forM fun (clause, place) ↦
      (clause.filter.getD []).forM (flow.checkFilterRead bindings stmt place)
  | _ => .ok ()

/-- Every read of a catch local is in the scope of the local (`regions/builder:614–673`). -/
def checkCatchLocals (flow : Flow) : Except Error Unit :=
  flow.body.entries.forM (flow.checkReads flow.body.bindings)

end Flow
end ProtectedRegions
