import ProtectedRegions.Statement

/-!
# Policies

When the cleanup of a desugared statement is worth a protected region of its own.
-/

namespace ProtectedRegions

/-- Whether a synthetic statement without crossing exits still gets a region (`config:13–19`). -/
inductive SyntheticPolicy where
  | whenCrossed
  | always
  deriving DecidableEq, Repr

/-- Every policy, in declaration order. -/
def SyntheticPolicy.all : List SyntheticPolicy := [.whenCrossed, .always]

instance : ToString SyntheticPolicy where
  toString
    | .whenCrossed => "ElideWhenExitless"
    | .always => "AlwaysProtect"

/-- The choices a build is made under (`config:27–48`). -/
structure Config where
  policy : SyntheticKind → SyntheticPolicy
  /-- Whether a return out of pinned memory needs the cleanup. -/
  cleanupOnFixedReturn : Bool
  /-- Whether a built tree is checked before it is handed out. -/
  validate : Bool

namespace Config

/-- Regions only where an exit crosses the body (`config:51–60`). -/
def default : Config where
  policy _ := .whenCrossed
  cleanupOnFixedReturn := false
  validate := true

/-- Regions for everything but pinned memory (`config:76–84`). -/
def strict : Config :=
  { default with
    policy := fun
      | .fixed => .whenCrossed
      | _ => .always }

/-- Sets the policy of one kind (`config:103–111`). -/
def withPolicy (config : Config) (kind : SyntheticKind) (policy : SyntheticPolicy) : Config :=
  { config with policy := fun other ↦ if other = kind then policy else config.policy other }

/-- Sets whether a return out of pinned memory needs the cleanup (`config:119–122`). -/
def withCleanupOnFixedReturn (config : Config) (enable : Bool) : Config :=
  { config with cleanupOnFixedReturn := enable }

/-- Sets whether a built tree is checked (`config:130–133`). -/
def withValidation (config : Config) (enable : Bool) : Config :=
  { config with validate := enable }

/-- Setting the policy of one kind leaves those of the others alone. -/
theorem policy_withPolicy (config : Config) (kind other : SyntheticKind)
    (policy : SyntheticPolicy) :
    (config.withPolicy kind policy).policy other =
      if other = kind then policy else config.policy other := rfl

end Config
end ProtectedRegions
