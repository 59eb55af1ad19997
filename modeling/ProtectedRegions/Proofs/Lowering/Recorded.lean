import ProtectedRegions.Proofs.Flow.Nesting
import ProtectedRegions.Proofs.Lowering.ClauseTable

/-!
# What enclosing regions record

A `finally` or `fault` region records the leave edges of the block that it protects, and a group
those of the body and of the catch handlers in it, one after the other. Nothing is recorded twice on
the way out, and nothing is lost.
-/

namespace ProtectedRegions
namespace Flow

variable {flow : Flow} {config : Config} {root : StmtId}

/-- The region of what a `finally` or `fault` protects: the body alone, or a group. -/
private theorem tops_groupCode {emit : Emitter} {scopes : List StmtId} {stmt : StmtId}
    {parts : TryStatement} : (flow.groupCode emit scopes stmt parts).tops =
      [if parts.catches.isEmpty then flow.blockHead stmt parts.body
        else ⟨.tryBlock, .user, stmt, none,
          flow.exits (.ofParts parts.protectedParts stmt stmt)⟩] := by
  unfold groupCode
  split
  · rw [tryBodyCode, Code.tops_append, Code.tops_notes]
    rfl
  · rw [Code.tops_append, Code.tops_notes]
    rfl

/-- The first child of a region with a handler is the outermost region of the code in front of the
handler. -/
private theorem exits_of_first {head only : RegionHead} {inner handler : Code} {at' : Place}
    {block : Region} {rest : List Region}
    (within : (Code.handled head inner handler).tokens at' ⊆
      (Code.region (flow.methodHead root) (flow.methodCode config root)).tokens ⟨0, 0, []⟩)
    (tops : inner.tops = [only])
    (children : (flow.methodTree config root).childRegions (at'.handled head inner handler) =
      block :: rest) : block.exits = only.exits := by
  have family := RegionTree.childRegions_eq (reads_methodTree.family_handled
    (fun entry listed ↦ within (List.mem_cons_of_mem _ (List.mem_append_left _ listed)))
    (fun entry listed ↦ within (List.mem_cons_of_mem _ (List.mem_append_right _ listed))))
  have heads := Code.map_topRegions inner (at'.inBody head inner handler)
  rw [tops, List.map_eq_singleton_iff] at heads
  obtain ⟨top, listed, rfl⟩ := heads
  rw [children, listed, List.singleton_append] at family
  rw [(List.cons.inj family).1]

namespace Accepted

variable (accepted : flow.Accepted)

include accepted

/-- The regions of a catch clause record the leave edges of its body. -/
private theorem leaves_catchHeads (stmt : StmtId) (entry : CatchClause × Nat) :
    (flow.catchHeads stmt entry).flatMap (·.exits.leaves) =
      (flow.exits (.ofScope entry.1.body stmt)).leaves := by
  rw [catchHeads, List.flatMap_append, List.flatMap_singleton, accepted.leaves_owning]
  cases entry.1.isFiltered <;> rfl

/-- A `try` without catch clauses has the leave edges of its body. -/
private theorem leaves_of_isEmpty {stmt : StmtId} {parts : TryStatement}
    (shaped : flow.body.get? stmt = some (.tryBlock parts))
    (empty : parts.catches.isEmpty = true) :
    (flow.exits (.ofParts parts.protectedParts stmt stmt)).leaves =
      (flow.exits (.ofScope parts.body stmt)).leaves := by
  rw [accepted.leaves_protectedParts shaped stmt stmt, TryStatement.protectedParts,
    List.isEmpty_iff.mp empty, List.map_nil, List.flatMap_singleton]

variable (member : root ∈ flow.body.methods)

include member

/-- A `finally` or `fault` region records what the block records that it protects. -/
theorem leaves_of_hasHandler {region : Region}
    (mem : region ∈ (flow.methodTree config root).regions) (kind : region.kind.hasHandler = true) :
    ∃ block rest, (flow.methodTree config root).childRegions region = block :: rest ∧
      block.kind = .tryBlock ∧ region.exits.leaves = block.exits.leaves := by
  have regular : (flow.methodTree config root).Regular := accepted.regular_methodTree member
  obtain ⟨block, rest, _, family, isTry, handled, -⟩ := regular.guarded mem kind
  have children := RegionTree.childRegions_eq family
  refine ⟨block, rest, children, isTry, ?_⟩
  have method := accepted.methodFormed config member
  obtain ⟨at', stmt, scopes, shape, piece, found, own, top, within⟩ :=
    accepted.exists_piece_within member mem fun same ↦ by
      rw [same] at kind
      cases kind
  cases own with
  | @handler parts clause head known own kind' exits =>
    cases top
    rw [exits_of_first within tops_groupCode children]
    refine (congrArg ExitSet.leaves exits).trans ?_
    cases empty : parts.catches.isEmpty with
    | true => exact accepted.leaves_of_isEmpty found empty
    | false => rfl
  | cleanup isProtected own isFinally exits same =>
    cases top
    rw [exits_of_first within rfl children, same]
    rfl
  | part | filter | group | guarded =>
    cases top
    cases handled

/-- A region with a catch handler records what the regions in it record, one after the other. -/
theorem leaves_of_catch {region handler : Region}
    (mem : region ∈ (flow.methodTree config root).regions)
    (among : handler ∈ (flow.methodTree config root).childRegions region)
    (kind : handler.kind = .catchBlock) : region.exits.leaves =
      ((flow.methodTree config root).childRegions region).flatMap (·.exits.leaves) := by
  have regular : (flow.methodTree config root).Regular := accepted.regular_methodTree member
  -- A catch handler stands in a group, and this region is the group.
  have isTry : region.kind = .tryBlock := by
    obtain ⟨children, family⟩ := regular.family mem
    rw [RegionTree.childRegions_eq family] at among
    have listed := RegionTree.mem_of_region? (family.found handler among)
    obtain ⟨group, mem', parent, isTry⟩ := regular.caught listed kind
    have same := Option.some.inj ((family.parent handler among).symm.trans parent)
    rw [regular.eq_of_id mem mem' same, isTry]
  obtain ⟨children, family, free | ⟨parts, block, handlers, found, exits, rfl, first, heads, -⟩⟩ :=
    accepted.exists_catches member mem isTry
  · rw [RegionTree.childRegions_eq family] at among
    have plain := free handler among
    rw [kind] at plain
    cases plain
  have later : handlers.flatMap (·.exits.leaves) = (handlers.map (·.toRegionHead)).flatMap
      (·.exits.leaves) := by
    rw [List.flatMap_map]
  have block : block.exits.leaves = (flow.exits (.ofScope parts.body region.stmt)).leaves :=
    congrArg (·.exits.leaves) first
  rw [RegionTree.childRegions_eq family, List.flatMap_cons, block, later, heads, exits,
    accepted.leaves_protectedParts found region.stmt region.stmt, TryStatement.protectedParts,
    List.flatMap_cons, List.flatMap_assoc, List.flatMap_map,
    List.flatMap_congr fun entry _ ↦ accepted.leaves_catchHeads region.stmt entry]
  conv_lhs => rw [← List.zipIdx_map_fst 0 parts.catches, List.flatMap_map]

end Accepted
end Flow

namespace Config

variable {draft : Draft} {body : Body} {flow : Flow}

/-- Exits compose over nesting. The leave edges of the protected parts of a `try`, taken as one, are
those of the body and of each catch body, one after the other. For a scope inside another one of the
same method, the leave edges of the outer scope with their source in the inner one are those of the
inner scope that are returns or go to a place outside of the outer one; so no jump leaves the outer
scope without leaving the inner one. In a tree that is built, a `finally` or `fault` region records
what the block records that it protects, and a group what its body and its catch handlers record. -/
theorem leaves_compose (made : draft.toBody = .ok body) (analysed : Flow.ofBody body = .ok flow) :
    (∀ owner parts, body.get? owner = some (.tryBlock parts) →
      ∀ continuation continuation' : StmtId,
        (flow.exits (.ofParts parts.protectedParts owner continuation)).leaves =
          parts.protectedParts.flatMap fun part ↦
            (flow.exits (.ofScope part continuation')).leaves) ∧
      (∀ outer inner, flow.contains outer inner = true →
        body.methodOf inner = body.methodOf outer → ∀ continuation continuation' : StmtId,
          (flow.exits (.ofScope outer continuation)).leaves.filter
              (flow.contains inner ·.source) =
            ((flow.exits (.ofScope inner continuation')).leaves.filter fun edge ↦
              (flow.target? edge.source).any fun target ↦
                target.isReturn || !flow.contains outer target.scope) ∧
          ∀ edge ∈ (flow.exits (.ofScope outer continuation)).leaves,
            flow.contains inner edge.source = true →
              edge ∈ (flow.exits (.ofScope inner continuation')).leaves) ∧
      ∀ (config : Config) (tree : RegionTree), config.Builds body tree →
        ∀ region ∈ tree.regions,
          (region.kind.hasHandler = true →
            ∃ block rest, tree.childRegions region = block :: rest ∧ block.kind = .tryBlock ∧
              region.exits.leaves = block.exits.leaves) ∧
          ∀ handler ∈ tree.childRegions region, handler.kind = .catchBlock →
            region.exits.leaves = (tree.childRegions region).flatMap (·.exits.leaves) := by
  obtain ⟨rfl, accepted⟩ := Flow.accepted_of_ofBody (Draft.wellFormed_of_toBody made) analysed
  refine ⟨fun owner parts shaped ↦ accepted.leaves_protectedParts shaped, ?_, ?_⟩
  · intro outer inner inside same continuation continuation'
    have narrowed := accepted.leaves_inside inside same continuation continuation'
    refine ⟨narrowed, fun edge listed within ↦ ?_⟩
    have kept : edge ∈ (flow.exits (.ofScope outer continuation)).leaves.filter
        (flow.contains inner ·.source) := List.mem_filter.mpr ⟨listed, within⟩
    rw [narrowed] at kept
    exact (List.mem_filter.mp kept).1
  · intro config tree builds region mem
    obtain ⟨-, -, root, member, rfl⟩ := builds.exists_root made analysed
    exact ⟨accepted.leaves_of_hasHandler member mem, fun handler ↦
      accepted.leaves_of_catch member mem⟩

end Config

/-- A `try` in a loop that breaks out of its body and returns out of its catch clause. -/
def Draft.escaping : Draft where
  statements := #[.jump .breakOut, .conditional .unknown ⟨0⟩ none, .jump .returnOut, .expression [],
    .tryCatchFinally ⟨1⟩ [⟨none, none, none, ⟨2⟩⟩] ⟨3⟩, .loop .unknown ⟨4⟩]
  labelCount := 0
  localCount := 0
  root := ⟨5⟩

private theorem escaping_leaves : Config.default.tests .escaping (fun flow tree ↦
    flow.body.get? ⟨4⟩ == some (.tryCatchFinally ⟨1⟩ [⟨none, none, none, ⟨2⟩⟩] ⟨3⟩) &&
      flow.contains ⟨5⟩ ⟨4⟩ && flow.body.methodOf ⟨4⟩ == flow.body.methodOf ⟨5⟩ &&
      (flow.exits (.ofParts [⟨1⟩, ⟨2⟩] ⟨4⟩ ⟨4⟩)).leaves ==
        [⟨⟨0⟩, .breakOf ⟨5⟩, .leave, true⟩, ⟨⟨2⟩, .methodExit, .leave, true⟩] &&
      (flow.exits (.ofScope ⟨5⟩ ⟨5⟩)).leaves.filter (flow.contains ⟨4⟩ ·.source) ==
        [⟨⟨2⟩, .methodExit, .leave, true⟩] &&
      tree.regions.any fun region ↦ region.kind == .finallyBlock && region.exits.leaves ==
        [⟨⟨0⟩, .breakOf ⟨5⟩, .leave, true⟩, ⟨⟨2⟩, .methodExit, .leave, true⟩]) = true := by
  decide +kernel

theorem Config.leaves_compose_escaping :
    ∃ body flow tree, Draft.escaping.toBody = .ok body ∧ Flow.ofBody body = .ok flow ∧
      Config.default.Builds body tree ∧
      [⟨1⟩, ⟨2⟩].flatMap (fun part ↦ (flow.exits (.ofScope part ⟨4⟩)).leaves) =
        [⟨⟨0⟩, .breakOf ⟨5⟩, .leave, true⟩, ⟨⟨2⟩, .methodExit, .leave, true⟩] ∧
      (flow.exits (.ofScope ⟨4⟩ ⟨4⟩)).leaves.filter (fun edge ↦
          (flow.target? edge.source).any fun target ↦
            target.isReturn || !flow.contains ⟨5⟩ target.scope) =
        [⟨⟨2⟩, .methodExit, .leave, true⟩] ∧
      ∃ region ∈ tree.regions, ∃ block rest, region.kind = .finallyBlock ∧
        tree.childRegions region = block :: rest ∧ block.exits.leaves =
          [⟨⟨0⟩, .breakOf ⟨5⟩, .leave, true⟩, ⟨⟨2⟩, .methodExit, .leave, true⟩] := by
  obtain ⟨body, flow, tree, made, analysed, built, holds⟩ := Config.exists_built escaping_leaves
  obtain ⟨-, -, rfl⟩ := Config.checks_iff made analysed
  simp only [Bool.and_eq_true, beq_iff_eq, List.any_eq_true] at holds
  obtain ⟨⟨⟨⟨⟨shaped, inside⟩, same⟩, composite⟩, outer⟩, region, mem, kind, recorded⟩ := holds
  obtain ⟨parts, nested, regions⟩ := Config.leaves_compose made analysed
  have builds : Config.default.Builds flow.body tree := .outer built
  obtain ⟨block, rest, children, -, leaves⟩ :=
    (regions .default tree builds region mem).1 (by rw [kind]; rfl)
  refine ⟨flow.body, flow, tree, made, analysed, builds, ?_, ?_,
    region, mem, block, rest, kind, children, leaves ▸ recorded⟩
  · exact (parts _ _ shaped ⟨4⟩ ⟨4⟩).symm.trans composite
  · exact (nested ⟨5⟩ ⟨4⟩ inside same ⟨5⟩ ⟨4⟩).1.symm.trans outer

end ProtectedRegions
