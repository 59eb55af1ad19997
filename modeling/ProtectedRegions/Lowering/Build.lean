import ProtectedRegions.Body.Draft
import ProtectedRegions.Flow.Report
import ProtectedRegions.Lowering.CatchLocals
import ProtectedRegions.Lowering.Method

/-!
# Building region trees

From a body, or a draft of one, to the region tree of its outer method, or of each of its
lambdas: analyse the body, check the reads of catch locals, decide about the cleanups, lay out.
-/

namespace ProtectedRegions

namespace Flow

/-- The region tree of the method at `root`. -/
def buildMethod (flow : Flow) (config : Config) (root : StmtId) : Except Error RegionTree :=
  (flow.constructMethod config root).result

/-- What building the tree of a method reports. -/
def methodEvents (flow : Flow) (config : Config) (root : StmtId) : List Event :=
  (flow.constructMethod config root).events

end Flow

namespace Config

/-- The region tree of the outer method of a body (`regions/builder:106–110`). -/
def build (config : Config) (body : Body) : Except Error RegionTree := do
  let flow ← Flow.ofBody body
  flow.checkCatchLocals
  flow.buildMethod config body.root

/-- The region trees of the lambdas of a body, in the order of the statements that create them
(`regions/builder:118–126`). -/
def buildLambdas (config : Config) (body : Body) : Except Error (List RegionTree) := do
  let flow ← Flow.ofBody body
  flow.checkCatchLocals
  body.lambdaBodies.mapM (flow.buildMethod config)

/-- The region trees of several bodies, each on its own (`regions/builder:133–135`). -/
def buildBatch (config : Config) (bodies : List Body) : List (Except Error RegionTree) :=
  bodies.map config.build

/-- What `build` reports, as far as it gets. -/
def buildEvents (config : Config) (body : Body) : List Event :=
  match Flow.ofBody body with
  | .error _ => []
  | .ok flow =>
    flow.events ++
      match flow.checkCatchLocals with
      | .error _ => []
      | .ok () => flow.methodEvents config body.root

/-- The region tree of the outer method of a draft, provided that the draft is a tree. -/
def buildDraft (config : Config) (draft : Draft) : Except Error RegionTree := do
  config.build (← draft.toBody)

/-- What `buildDraft` reports. A draft that is no tree is refused before anything is reported. -/
def buildDraftEvents (config : Config) (draft : Draft) : List Event :=
  match draft.toBody with
  | .error _ => []
  | .ok body => config.buildEvents body

end Config
end ProtectedRegions
