import ProtectedRegions.Proofs.Flow.Marking
import ProtectedRegions.Proofs.Flow.Outward
import ProtectedRegions.Proofs.Flow.Routes

/-!
# Ancestry

What the numbering decides, said of the links from statements to their parents: a statement
contains itself and those that it is an ancestor of. The methods are the outer one and those of
the lambdas, and a statement is in the innermost of them that contains it.
-/

namespace ProtectedRegions
namespace Body

variable {body : Body}

/-- A statement is an ancestor of another one that leads to it from parent to parent. -/
def IsAncestor (body : Body) : StmtId → StmtId → Prop :=
  Relation.TransGen fun outer inner ↦ body.parent? inner = some outer

/-- A statement is inside another one if that is the statement itself or an ancestor of it. -/
theorem IsTree.inside_iff_isAncestor (tree : body.IsTree) {outer inner : StmtId} :
    body.Inside outer inner ↔ outer = inner ∨ body.IsAncestor outer inner := by
  constructor
  · intro inside
    induction inside with
    | refl => exact .inl rfl
    | child _ mem ih =>
      have link := tree.parent?_eq_some.mpr mem
      rcases ih with rfl | ancestor
      · exact .inr (.single link)
      · exact .inr (ancestor.tail link)
  · rintro (rfl | ancestor)
    · exact .refl
    · induction ancestor with
      | single link => exact .of_child (tree.parent?_eq_some.mp link)
      | tail _ link ih => exact .child ih (tree.parent?_eq_some.mp link)

/-- The lambdas of a body with the bodies of their methods, in id order. -/
def lambdas (body : Body) : List (StmtId × StmtId) :=
  body.entries.filterMap fun (stmt, shape) ↦
    match shape with
    | .lambda inner => some (stmt, inner)
    | _ => none

theorem mem_lambdas {stmt inner : StmtId} :
    (stmt, inner) ∈ body.lambdas ↔ body.get? stmt = some (.lambda inner) := by
  rw [lambdas, List.mem_filterMap, get?, ← StatementTable.mem_entries]
  constructor
  · rintro ⟨⟨stmt', shape⟩, listed, taken⟩
    cases shape <;> simp only [Option.some.injEq, Prod.mk.injEq, reduceCtorEq] at taken
    obtain ⟨rfl, rfl⟩ := taken
    exact listed
  · intro listed
    exact ⟨_, listed, rfl⟩

/-- The methods are the outer one and those of the lambdas, in the order of these. -/
theorem methods_eq : body.methods = body.root :: body.lambdas.map (·.2) := by
  have shapes : body.statements.toList = body.entries.map (·.2) := by
    simp [entries, StatementTable.entries, Function.comp_def]
  rw [methods, lambdaBodies, shapes, lambdas, List.filterMap_map, List.map_filterMap]
  congr 2
  funext entry
  obtain ⟨stmt, shape⟩ := entry
  cases shape <;> rfl

/-- The lambdas are listed by strictly increasing ids. -/
theorem pairwise_lambdas : body.lambdas.Pairwise (·.1.index < ·.1.index) := by
  have entries : body.entries.Pairwise (·.1.index < ·.1.index) := by
    rw [entries, StatementTable.entries, List.pairwise_map]
    exact List.pairwise_map.mp (List.zipIdx_map_snd 0 _ ▸ List.pairwise_lt_range')
  refine List.pairwise_filterMap.mpr (entries.imp ?_)
  rintro ⟨stmt, shape⟩ ⟨stmt', shape'⟩ lt ⟨first, inner⟩ taken ⟨second, inner'⟩ taken'
  cases shape <;> simp only [Option.some.injEq, Prod.mk.injEq, reduceCtorEq] at taken
  cases shape' <;> simp only [Option.some.injEq, Prod.mk.injEq, reduceCtorEq] at taken'
  obtain ⟨rfl, rfl⟩ := taken
  obtain ⟨rfl, rfl⟩ := taken'
  exact lt

end Body

namespace Flow
namespace Accepted

variable {flow : Flow} (accepted : flow.Accepted)

include accepted

/-- Containment orders the statements of a body. -/
theorem isPartialOrder_contains : IsPartialOrder {stmt // flow.body.has stmt = true}
    fun outer inner ↦ flow.contains outer inner = true where
  refl stmt := (accepted.contains_iff stmt.2 stmt.2).mpr .refl
  trans first second third holds holds' := by
    rw [accepted.contains_iff first.2 second.2] at holds
    rw [accepted.contains_iff second.2 third.2] at holds'
    exact (accepted.contains_iff first.2 third.2).mpr (holds.trans holds')
  antisymm first second holds holds' := by
    rw [accepted.contains_iff first.2 second.2] at holds
    rw [accepted.contains_iff second.2 first.2] at holds'
    exact Subtype.ext
      (accepted.wellFormed.toIsTree.inside_antisymm second.2 holds holds')

/-- Of two statements that contain a third one, one contains the other. -/
theorem contains_total {first second inner : StmtId} (holds : flow.contains first inner = true)
    (holds' : flow.contains second inner = true) :
    flow.contains first second = true ∨ flow.contains second first = true := by
  obtain ⟨has, has''⟩ := accepted.has_of_contains holds
  obtain ⟨has', -⟩ := accepted.has_of_contains holds'
  rw [accepted.contains_iff has has''] at holds
  rw [accepted.contains_iff has' has''] at holds'
  rw [accepted.contains_iff has has', accepted.contains_iff has' has]
  exact accepted.wellFormed.toIsTree.inside_total holds holds'

/-- The method of a statement is the innermost lambda body that contains it, or the root of the
body if none does. -/
theorem methodOf_innermost {stmt : StmtId} (has : flow.body.has stmt = true) :
    (flow.body.Plays (flow.methodOf stmt) .lambdaBody ∧
      flow.contains (flow.methodOf stmt) stmt = true ∧
      ∀ other, flow.body.Plays other .lambdaBody → flow.contains other stmt = true →
        flow.contains other (flow.methodOf stmt) = true) ∨
    (flow.methodOf stmt = flow.body.root ∧
      ∀ other, flow.body.Plays other .lambdaBody → flow.contains other stmt = false) := by
  have tree := accepted.wellFormed.toIsTree
  rw [accepted.methodOf_eq has]
  rcases (tree.methodOf_eq_iff has).mp rfl with nearest | ⟨top, outside⟩
  · have has' := Body.has_of_inside nearest.around has
    refine .inl ⟨nearest.holds, (accepted.contains_iff has' has).mpr nearest.around, ?_⟩
    intro other plays holds
    have has'' := (accepted.has_of_contains holds).1
    exact (accepted.contains_iff has'' has').mpr
      (nearest.first ((accepted.contains_iff has'' has).mp holds) plays)
  · refine .inr ⟨top, fun other plays ↦ ?_⟩
    rw [← Bool.not_eq_true]
    intro holds
    have has' := (accepted.has_of_contains holds).1
    exact outside other ((accepted.contains_iff has' has).mp holds) plays

end Accepted

/-- Comparing numbers decides ancestry: a statement contains another one if they are the same or
it is an ancestor of the other one. So containment is a partial order in which two statements have
nothing in common unless one contains the other. The method of a statement is the innermost lambda
body that contains it, or the outer one, and the methods are the outer one and then the bodies of
the lambdas in id order. -/
theorem containment_decides_ancestry {draft : Draft} {body : Body} (made : draft.toBody = .ok body)
    {flow : Flow} (analysed : Flow.ofBody body = .ok flow) :
    (∀ outer inner, body.has outer = true → body.has inner = true →
      (flow.contains outer inner = true ↔ outer = inner ∨ body.IsAncestor outer inner)) ∧
    IsPartialOrder {stmt // body.has stmt = true}
      (fun outer inner ↦ flow.contains outer inner = true) ∧
    (∀ first second, flow.contains first second = false → flow.contains second first = false →
      ¬ ∃ inner, flow.contains first inner = true ∧ flow.contains second inner = true) ∧
    (∀ stmt, body.has stmt = true →
      (body.Plays (flow.methodOf stmt) .lambdaBody ∧
        flow.contains (flow.methodOf stmt) stmt = true ∧
        ∀ other, body.Plays other .lambdaBody → flow.contains other stmt = true →
          flow.contains other (flow.methodOf stmt) = true) ∨
      (flow.methodOf stmt = body.root ∧
        ∀ other, body.Plays other .lambdaBody → flow.contains other stmt = false)) ∧
    ∃ lambdas : List (StmtId × StmtId), lambdas.Pairwise (·.1.index < ·.1.index) ∧
      (∀ stmt inner, (stmt, inner) ∈ lambdas ↔ body.get? stmt = some (.lambda inner)) ∧
      body.methods = body.root :: lambdas.map (·.2) := by
  obtain ⟨rfl, accepted⟩ := Flow.accepted_of_ofBody (Draft.wellFormed_of_toBody made) analysed
  refine ⟨fun outer inner has has' ↦ ?_, accepted.isPartialOrder_contains, ?_,
    fun stmt has ↦ accepted.methodOf_innermost has,
    flow.body.lambdas, Body.pairwise_lambdas, fun _ _ ↦ Body.mem_lambdas, Body.methods_eq⟩
  · rw [accepted.contains_iff has has']
    exact accepted.wellFormed.toIsTree.inside_iff_isAncestor
  · rintro first second apart apart' ⟨inner, holds, holds'⟩
    rcases accepted.contains_total holds holds' with around | around
    · exact Bool.false_ne_true (apart.symm.trans around)
    · exact Bool.false_ne_true (apart'.symm.trans around)

end Flow

/-- Two lambdas, of which the one that comes first has the greater id. -/
def Draft.shuffled : Draft where
  statements := #[.lambda ⟨3⟩, .block [⟨4⟩, ⟨0⟩], .expression [], .block [⟨2⟩], .lambda ⟨5⟩,
    .expression []]
  labelCount := 0
  localCount := 0
  root := ⟨1⟩

private theorem shuffled_lambdas :
    (Draft.shuffled.toBody.bind Flow.ofBody).toOption.any (fun flow ↦ decide
      (flow.body.methods = [⟨1⟩, ⟨3⟩, ⟨5⟩] ∧ flow.body.has ⟨2⟩ = true ∧ flow.body.has ⟨1⟩ = true ∧
        flow.methodOf ⟨2⟩ = ⟨3⟩ ∧ flow.contains ⟨1⟩ ⟨2⟩ = true ∧
        flow.contains ⟨0⟩ ⟨4⟩ = false ∧ flow.contains ⟨4⟩ ⟨0⟩ = false)) = true := by
  decide +kernel

/-- The methods stand in the order of the lambdas, and the outer one is an ancestor of all. -/
theorem Flow.containment_decides_ancestry_shuffled :
    ∃ body flow, Draft.shuffled.toBody = .ok body ∧ Flow.ofBody body = .ok flow ∧
      body.methods = [⟨1⟩, ⟨3⟩, ⟨5⟩] ∧ body.IsAncestor ⟨1⟩ ⟨2⟩ ∧
      flow.contains ⟨3⟩ ⟨2⟩ = true ∧
      ¬ ∃ inner, flow.contains ⟨0⟩ inner = true ∧ flow.contains ⟨4⟩ inner = true := by
  obtain ⟨body, flow, made, analysed, holds⟩ := Draft.exists_flow shuffled_lambdas
  obtain ⟨rfl, -⟩ := Flow.accepted_of_ofBody (Draft.wellFormed_of_toBody made) analysed
  obtain ⟨methods, has, has', own, around, apart, apart'⟩ := of_decide_eq_true holds
  obtain ⟨decides, -, disjoint, innermost, -⟩ := containment_decides_ancestry made analysed
  have ancestor := ((decides ⟨1⟩ ⟨2⟩ has' has).mp around).resolve_left (by decide)
  refine ⟨flow.body, flow, made, analysed, methods, ancestor, ?_, disjoint _ _ apart apart'⟩
  rcases innermost ⟨2⟩ has with ⟨-, contains, -⟩ | ⟨top, -⟩
  · exact own ▸ contains
  · have root : flow.body.root = ⟨1⟩ := (List.cons.inj methods).1
    rw [own, root] at top
    cases top

end ProtectedRegions
