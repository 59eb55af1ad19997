import ProtectedRegions.Flow.Jump
import ProtectedRegions.Proofs.Body.Drafts

/-!
# Forgotten conditions

A body in which the conditions of some conditionals and loops are no longer known. It differs from
the body in these conditions alone, so it is a tree with the same labels, its jumps go the same ways,
and its statements play the same parts. Only the edges of the flow graph depend on conditions.
-/

namespace ProtectedRegions

namespace Statement

/-- The statement without what is known about its condition. -/
def forget : Statement → Statement
  | .conditional _ thenBranch elseBranch => .conditional .unknown thenBranch elseBranch
  | .loop _ body => .loop .unknown body
  | shape => shape

/-- The statement, without what is known about its condition if that is to be forgotten. -/
def forgetIf (forgets : Bool) (shape : Statement) : Statement :=
  if forgets then shape.forget else shape

/-- Only the conditions of conditionals and loops are forgotten. -/
theorem forgetIf_cases (forgets : Bool) (shape : Statement) : shape.forgetIf forgets = shape ∨
    (∃ condition thenBranch elseBranch, shape = .conditional condition thenBranch elseBranch ∧
      shape.forgetIf forgets = .conditional .unknown thenBranch elseBranch) ∨
    ∃ condition body, shape = .loop condition body ∧
      shape.forgetIf forgets = .loop .unknown body := by
  cases forgets with
  | false => exact .inl rfl
  | true =>
    cases shape with
    | conditional condition thenBranch elseBranch => exact .inr (.inl ⟨_, _, _, rfl, rfl⟩)
    | loop condition body => exact .inr (.inr ⟨_, _, rfl, rfl⟩)
    | _ => exact .inl rfl

/-- What is read off a statement regardless of conditions is read off what is left of it. -/
theorem apply_forgetIf {α : Type} (read : Statement → α)
    (conditional : ∀ condition thenBranch elseBranch,
      read (.conditional .unknown thenBranch elseBranch) =
        read (.conditional condition thenBranch elseBranch))
    (loop : ∀ condition body, read (.loop .unknown body) = read (.loop condition body))
    (forgets : Bool) (shape : Statement) : read (shape.forgetIf forgets) = read shape := by
  rcases forgetIf_cases forgets shape with same | ⟨_, _, _, rfl, same⟩ | ⟨_, _, rfl, same⟩
  · rw [same]
  · rw [same, conditional]
  · rw [same, loop]

variable {forgets : Bool} {shape : Statement}

@[simp]
theorem children_forgetIf : (shape.forgetIf forgets).children = shape.children :=
  apply_forgetIf children (fun _ _ _ ↦ rfl) (fun _ _ ↦ rfl) ..

@[simp]
theorem isLambda_forgetIf : (shape.forgetIf forgets).isLambda = shape.isLambda :=
  apply_forgetIf isLambda (fun _ _ _ ↦ rfl) (fun _ _ ↦ rfl) ..

@[simp]
theorem isBreakable_forgetIf : (shape.forgetIf forgets).isBreakable = shape.isBreakable :=
  apply_forgetIf isBreakable (fun _ _ _ ↦ rfl) (fun _ _ ↦ rfl) ..

@[simp]
theorem isLoop_forgetIf : (shape.forgetIf forgets).isLoop = shape.isLoop :=
  apply_forgetIf isLoop (fun _ _ _ ↦ rfl) (fun _ _ ↦ rfl) ..

/-- A statement other than a conditional or a loop has nothing to forget. -/
theorem forgetIf_eq_iff {kept : Statement}
    (conditional : ∀ condition thenBranch elseBranch,
      kept ≠ .conditional condition thenBranch elseBranch)
    (loop : ∀ condition body, kept ≠ .loop condition body) :
    shape.forgetIf forgets = kept ↔ shape = kept := by
  rcases forgetIf_cases forgets shape with same | ⟨_, _, _, rfl, same⟩ | ⟨_, _, rfl, same⟩
  · rw [same]
  · exact iff_of_false (fun left ↦ conditional _ _ _ (left.symm.trans same))
      fun left ↦ conditional _ _ _ left.symm
  · exact iff_of_false (fun left ↦ loop _ _ (left.symm.trans same)) fun left ↦ loop _ _ left.symm

end Statement

namespace StatementTable

/-- The table without what is known about the conditions of the chosen statements. -/
def forget (chosen : StmtId → Bool) (table : StatementTable) : StatementTable :=
  table.mapIdx fun index shape ↦ shape.forgetIf (chosen ⟨index⟩)

variable {chosen : StmtId → Bool} {table : StatementTable}

@[simp]
theorem size_forget : (table.forget chosen).size = table.size := Array.size_mapIdx

@[simp]
theorem shape?_forget {stmt : StmtId} : (table.forget chosen).shape? stmt =
    (table.shape? stmt).map (·.forgetIf (chosen stmt)) :=
  Array.getElem?_mapIdx

@[simp]
theorem childrenOf_forget : (table.forget chosen).childrenOf = table.childrenOf := by
  funext stmt
  rw [childrenOf, childrenOf, shape?_forget]
  cases table.shape? stmt with
  | none => rfl
  | some shape => exact Statement.children_forgetIf

@[simp]
theorem ids_forget : (table.forget chosen).ids = table.ids := by
  rw [ids, ids, size_forget]

/-- The statements of a table are those of its entries. -/
theorem toList_eq_map (table : StatementTable) : table.toList = table.entries.map (·.2) := by
  rw [entries, List.map_map]
  exact (List.zipIdx_map_fst 0 table.toList).symm

@[simp]
theorem entries_forget : (table.forget chosen).entries =
    table.entries.map fun entry ↦ (entry.1, entry.2.forgetIf (chosen entry.1)) := by
  refine List.ext_getElem? fun index ↦ ?_
  simp only [entries, forget, List.getElem?_map, List.getElem?_zipIdx, Array.toList_mapIdx,
    List.getElem?_mapIdx]
  cases table.toList[index]? <;> simp

@[simp]
theorem recurse_forget {α : Type} {step : StmtId → (StmtId → α) → α} {cut : α} :
    (table.forget chosen).recurse step cut = table.recurse step cut := by
  rw [recurse, recurse, size_forget]

@[simp]
theorem preorder_forget : (table.forget chosen).preorder = table.preorder := by
  rw [preorder, preorder, recurse_forget, childrenOf_forget]

/-- What is picked from each statement regardless of conditions is picked from what is left. -/
theorem filterMap_forget {α : Type} {pick : Statement → Option α}
    (same : ∀ forgets shape, pick (shape.forgetIf forgets) = pick shape) :
    (table.forget chosen).toList.filterMap pick = table.toList.filterMap pick := by
  rw [toList_eq_map, toList_eq_map, entries_forget, List.map_map, List.filterMap_map,
    List.filterMap_map]
  exact List.filterMap_congr fun entry _ ↦ same ..

end StatementTable

/-! ### Drafts -/

namespace Draft

/-- The draft without what is known about the conditions of the chosen statements. -/
def forget (chosen : StmtId → Bool) (draft : Draft) : Draft :=
  { draft with statements := draft.statements.forget chosen }

variable {chosen : StmtId → Bool} {draft : Draft}

private theorem size_forget : (draft.forget chosen).size = draft.size :=
  StatementTable.size_forget

private theorem census_forget : (draft.forget chosen).census = draft.census := by
  have child : (draft.forget chosen).checkChild = draft.checkChild := by
    funext stmt child
    rw [checkChild, checkChild, size_forget]
    rfl
  have record : Census.record (draft.forget chosen) = Census.record draft := by
    funext census entry
    unfold Census.record
    rw [child]
    rfl
  rw [census, census, record, forget, StatementTable.entries_forget, List.foldlM_map]
  refine congrArg (List.foldlM · _ _) (funext₂ fun census entry ↦ ?_)
  exact Statement.apply_forgetIf (fun shape ↦ Census.record draft census (entry.1, shape))
    (fun _ _ _ ↦ rfl) (fun _ _ ↦ rfl) ..

private theorem parents_forget : (draft.forget chosen).parents = draft.parents := by
  have adoptions : (draft.forget chosen).adoptions = draft.adoptions := by
    rw [adoptions, adoptions, forget, StatementTable.entries_forget, List.flatMap_map]
    exact List.flatMap_congr fun entry _ ↦ by simp
  rw [parents, parents, adoptions, size_forget]

private theorem detached?_forget : (draft.forget chosen).detached? = draft.detached? := by
  rw [detached?, detached?, size_forget]
  simp [forget]

private theorem undefinedLabel?_forget (definitions : List (LabelId × StmtId)) :
    (draft.forget chosen).undefinedLabel? definitions = draft.undefinedLabel? definitions := by
  rw [undefinedLabel?, undefinedLabel?, ← List.head?_filterMap, ← List.head?_filterMap, forget,
    StatementTable.filterMap_forget]
  intro forgets shape
  rcases Statement.forgetIf_cases forgets shape with same | ⟨_, _, _, rfl, same⟩ | ⟨_, _, rfl, same⟩
  all_goals rw [same]

end Draft

/-! ### Bodies -/

namespace Body

/-- The body without what is known about the conditions of the chosen statements. -/
def forget (chosen : StmtId → Bool) (body : Body) : Body :=
  { body with statements := body.statements.forget chosen }

variable {chosen : StmtId → Bool} {body : Body} {stmt : StmtId}

@[simp]
theorem size_forget : (body.forget chosen).size = body.size := StatementTable.size_forget

@[simp]
theorem has_forget : (body.forget chosen).has = body.has := by
  funext stmt
  rw [has, has, size_forget]

@[simp]
theorem get?_forget : (body.forget chosen).get? stmt =
    (body.get? stmt).map (·.forgetIf (chosen stmt)) :=
  StatementTable.shape?_forget

/-- Other statements than conditionals and loops are left as they are. -/
theorem get?_forget_eq_some {kept : Statement}
    (conditional : ∀ condition thenBranch elseBranch,
      kept ≠ .conditional condition thenBranch elseBranch)
    (loop : ∀ condition inner, kept ≠ .loop condition inner) :
    (body.forget chosen).get? stmt = some kept ↔ body.get? stmt = some kept := by
  simp [Statement.forgetIf_eq_iff conditional loop]

theorem entries_forget : (body.forget chosen).entries =
    body.entries.map fun entry ↦ (entry.1, entry.2.forgetIf (chosen entry.1)) :=
  StatementTable.entries_forget

@[simp]
theorem children_forget : (body.forget chosen).children = body.children :=
  StatementTable.childrenOf_forget

@[simp]
theorem isLambda_forget : (body.forget chosen).isLambda = body.isLambda := by
  funext stmt
  simp [isLambda, Option.any_map]

@[simp]
theorem methods_forget : (body.forget chosen).methods = body.methods := by
  have same : (body.forget chosen).lambdaBodies = body.lambdaBodies := by
    refine StatementTable.filterMap_forget fun forgets shape ↦ ?_
    rcases Statement.forgetIf_cases forgets shape with
      same | ⟨_, _, _, rfl, same⟩ | ⟨_, _, rfl, same⟩
    all_goals rw [same]
  rw [methods, methods, same]
  rfl

@[simp]
theorem lineage_forget : (body.forget chosen).lineage = body.lineage := by
  have step (depth : Nat) (stmt : StmtId) :
      (body.forget chosen).lineageTo depth stmt = body.lineageTo depth stmt := by
    induction depth generalizing stmt with
    | zero => rfl
    | succ depth ih =>
      rw [lineageTo, lineageTo]
      simp only [ih]
      rfl
  funext stmt
  rw [lineage, lineage, size_forget, step]

@[simp]
theorem recurse_forget {α : Type} {step : StmtId → (StmtId → α) → α} {cut : α} :
    (body.forget chosen).recurse step cut = body.recurse step cut :=
  StatementTable.recurse_forget

@[simp]
theorem inMethod_forget : (body.forget chosen).inMethod = body.inMethod := by
  rw [inMethod, inMethod, recurse_forget, isLambda_forget, children_forget]

/-- The parent of a statement is left with the same parts. -/
theorem parentShape?_forget : ∃ forgets, (body.forget chosen).parentShape? stmt =
    (body.parentShape? stmt).map (·.forgetIf forgets) := by
  rw [parentShape?, parentShape?]
  show ∃ forgets, (body.parent? stmt).bind (body.forget chosen).get? = _
  cases body.parent? stmt with
  | none => exact ⟨false, rfl⟩
  | some parent => exact ⟨chosen parent, get?_forget⟩

@[simp]
theorem role?_forget : (body.forget chosen).role? = body.role? := by
  funext stmt
  obtain ⟨forgets, same⟩ := @parentShape?_forget chosen body stmt
  rw [role?, role?, same]
  cases body.parentShape? stmt with
  | none => rfl
  | some shape =>
    rcases Statement.forgetIf_cases _ shape with same | ⟨_, _, _, rfl, same⟩ | ⟨_, _, rfl, same⟩
    all_goals rw [Option.map_some, same]

@[simp]
theorem methodOf_forget : (body.forget chosen).methodOf = body.methodOf := by
  funext stmt
  rw [methodOf, methodOf, lineage_forget, role?_forget]
  rfl

@[simp]
theorem rethrowOwner?_forget : (body.forget chosen).rethrowOwner? = body.rethrowOwner? := by
  funext stmt
  rw [rethrowOwner?, rethrowOwner?, lineage_forget, role?_forget]

@[simp]
theorem finallyOf?_forget : (body.forget chosen).finallyOf? = body.finallyOf? := by
  funext part
  obtain ⟨forgets, same⟩ := @parentShape?_forget chosen body part
  rw [finallyOf?, finallyOf?, role?_forget, same]
  cases body.parentShape? part with
  | none => rfl
  | some shape =>
    rcases Statement.forgetIf_cases _ shape with same | ⟨_, _, _, rfl, same⟩ | ⟨_, _, rfl, same⟩
    all_goals rw [Option.map_some, same]
    all_goals
      cases body.role? part with
      | none => rfl
      | some role => cases role <;> rfl

/-! ### Jumps -/

private theorem enclosing?_forget {accepts : Statement → Bool}
    (same : ∀ forgets shape, accepts (shape.forgetIf forgets) = accepts shape) :
    (body.forget chosen).enclosing? accepts = body.enclosing? accepts := by
  funext stmt
  simp [enclosing?, ancestors, Option.any_map, same]

private theorem resolve_forget : (body.forget chosen).resolve = body.resolve := by
  funext numbering stmt form
  cases form with
  | goto label => rfl
  | breakOut =>
    rw [resolve, resolve, enclosing?_forget fun _ _ ↦ Statement.isBreakable_forgetIf]
  | continueLoop =>
    rw [resolve, resolve, enclosing?_forget fun _ _ ↦ Statement.isLoop_forgetIf]
  | returnOut => rfl

private theorem leaveScopes_forget {numbering : Numbering} {form : Jump} {landing : StmtId} :
    (body.forget chosen).leaveScopes numbering stmt form landing =
      body.leaveScopes numbering stmt form landing := by
  funext steps
  induction steps with
  | zero => rfl
  | succ steps ih =>
    funext current requires
    rw [leaveScopes, leaveScopes, ih, handlerKind?, handlerKind?, role?_forget, finallyOf?_forget]
    rfl

private theorem enterScopes_forget {common : StmtId} :
    (body.forget chosen).enterScopes stmt common = body.enterScopes stmt common := by
  funext steps
  induction steps with
  | zero => rfl
  | succ steps ih =>
    funext entered
    rw [enterScopes, enterScopes, ih, role?_forget]
    rfl

private theorem checkJump_forget : (body.forget chosen).checkJump = body.checkJump := by
  have entered : (body.forget chosen).enterTarget = body.enterTarget := by
    funext stmt common target
    cases target with
    | atLabel label dest => rw [enterTarget, enterTarget, enterScopes_forget, size_forget]
    | _ => rfl
  funext numbering stmt form target
  rw [checkJump, checkJump, leaveScopes_forget, entered, size_forget]

/-- The rules of jumps and rethrows do not depend on conditions. -/
theorem route?_forget : (body.forget chosen).route? = body.route? := by
  funext numbering stmt
  rw [route?, route?, get?_forget, resolve_forget, checkJump_forget, rethrowOwner?_forget]
  cases body.get? stmt with
  | none => rfl
  | some shape =>
    rcases Statement.forgetIf_cases _ shape with same | ⟨_, _, _, rfl, same⟩ | ⟨_, _, rfl, same⟩
    all_goals rw [Option.map_some, same]

@[simp]
theorem numbering_forget : Numbering.ofBody (body.forget chosen) = Numbering.ofBody body := by
  have inner (stmt : StmtId) :
      Tally.lambdaBody? (body.forget chosen) stmt = Tally.lambdaBody? body stmt := by
    rw [Tally.lambdaBody?, Tally.lambdaBody?, get?_forget]
    cases body.get? stmt with
    | none => rfl
    | some shape =>
      rcases Statement.forgetIf_cases _ shape with
        same | ⟨_, _, _, rfl, same⟩ | ⟨_, _, rfl, same⟩
      all_goals rw [Option.map_some, same]
  have visit : Tally.visit (body.forget chosen) = Tally.visit body := by
    funext visit tally
    cases visit with
    | enter stmt =>
      rw [Tally.visit, Tally.visit, Tally.handDown, Tally.handDown, inner, children_forget]
      rfl
    | leave stmt => rfl
  have visits : (body.forget chosen).visits = body.visits := by
    funext visit
    cases visit with
    | enter stmt => rw [Body.visits, Body.visits, children_forget]
    | leave stmt => rfl
  rw [Numbering.ofBody, Numbering.ofBody, visit, visits, walkSteps, walkSteps, Tally.start,
    Tally.start, size_forget]
  rfl

end Body

/-- The body of a draft, without the conditions of some statements, is that of the draft without
them. -/
theorem Draft.toBody_forget {draft : Draft} {body : Body} (made : draft.toBody = .ok body)
    (chosen : StmtId → Bool) : (draft.forget chosen).toBody = .ok (body.forget chosen) := by
  obtain ⟨census, parents, inside, counted, adopted, attached, defined, rfl⟩ := toBody_eq_ok made
  have root : ¬ (draft.forget chosen).size ≤ (draft.forget chosen).root.index := by
    rw [size_forget]
    exact Nat.not_le.mpr inside
  simp only [toBody, if_neg root, census_forget, counted, parents_forget, adopted,
    detached?_forget, attached, undefinedLabel?_forget, Outcome.bind_eq_ok]
  exact ⟨census, rfl, parents, rfl, by rw [defined]; rfl⟩

end ProtectedRegions
