import ProtectedRegions.Flow.Numbering
import ProtectedRegions.Proofs.Body.Traversal

/-!
# What the numbering decides

The walk around a tree visits each statement twice, and the visits of what is inside a statement
stand in one piece between its own two. So comparing numbers decides lexical containment. A
statement is entered before its children are, so by then its method is known and can be handed
down to them: the methods that the walk enters are those found by looking outward.
-/

namespace ProtectedRegions

variable {body : Body}

namespace Tally

variable {visits : List Visit} {stmt : StmtId}

/-- The tally after some visits. -/
def after (body : Body) (visits : List Visit) (tally : Tally) : Tally :=
  visits.foldl (fun tally visit ↦ Tally.visit body visit tally) tally

/-- The tally of the whole walk is that of the tour. -/
theorem ofBody_eq_after (tree : body.IsTree) :
    Numbering.ofBody body = (after body body.tour (start body)).toNumbering := by
  rw [Numbering.ofBody, tree.workOff_visits, List.foldlM_pure]
  rfl

/-- Handing methods down moves none out of the table. -/
theorem size_handDown (body : Body) (stmt : StmtId) (methods : Array StmtId) :
    (handDown body stmt methods).size = methods.size := by
  rw [handDown]
  induction (body.children stmt).reverse generalizing methods with
  | nil => rfl
  | cons child rest ih => rw [List.foldl_cons, ih, Array.size_setIfInBounds]

private theorem index_inj {first second : StmtId} (same : first.index = second.index) :
    first = second := by
  cases first
  cases second
  exact congrArg _ same

/-- Visits that are made once are numbered one after the other. -/
private theorem numbers_after (nodup : visits.Nodup) (tally : Tally)
    (lt : stmt.index < tally.pre.size) (lt' : stmt.index < tally.post.size) :
    ((after body visits tally).pre[stmt.index]? =
        if .enter stmt ∈ visits then some (tally.next + visits.idxOf (.enter stmt))
        else tally.pre[stmt.index]?) ∧
      ((after body visits tally).post[stmt.index]? =
        if .leave stmt ∈ visits then some (tally.next + visits.idxOf (.leave stmt))
        else tally.post[stmt.index]?) := by
  induction visits generalizing tally with
  | nil => simp [after]
  | cons visit rest ih =>
    rw [List.nodup_cons] at nodup
    have kept : stmt.index < (tally.visit body visit).pre.size ∧
        stmt.index < (tally.visit body visit).post.size := by
      cases visit <;> simp [Tally.visit, lt, lt']
    have next : (tally.visit body visit).next = tally.next + 1 := by
      cases visit <;> rfl
    obtain ⟨pre, post⟩ := ih nodup.2 (tally.visit body visit) kept.1 kept.2
    rw [after, List.foldl_cons]
    rw [after] at pre post
    rw [pre, post, next]
    constructor
    · by_cases first : visit = .enter stmt
      · subst first
        simp [nodup.1, Tally.visit, lt]
      · have same : (tally.visit body visit).pre[stmt.index]? = tally.pre[stmt.index]? := by
          cases visit with
          | enter other =>
            have : other.index ≠ stmt.index := fun h ↦ first (index_inj h ▸ rfl)
            simp [Tally.visit, Array.getElem?_setIfInBounds_ne this]
          | leave other => rfl
        rw [same]
        simp [first, Ne.symm first, Nat.add_assoc, Nat.add_comm 1]
    · by_cases first : visit = .leave stmt
      · subst first
        simp [nodup.1, Tally.visit, lt']
      · have same : (tally.visit body visit).post[stmt.index]? = tally.post[stmt.index]? := by
          cases visit with
          | enter other => rfl
          | leave other =>
            have : other.index ≠ stmt.index := fun h ↦ first (index_inj h ▸ rfl)
            simp [Tally.visit, Array.getElem?_setIfInBounds_ne this]
        rw [same]
        simp [first, Ne.symm first, Nat.add_assoc, Nat.add_comm 1]

end Tally

/-! ### Containment -/

namespace Numbering

/-- The numbers of a statement are the places of its visits in the tour. -/
theorem ofBody_eq (tree : body.IsTree) {stmt : StmtId} (has : body.has stmt = true) :
    (ofBody body).pre[stmt.index]? = some (body.tour.idxOf (.enter stmt)) ∧
      (ofBody body).post[stmt.index]? = some (body.tour.idxOf (.leave stmt)) := by
  have inside := tree.inside_root has
  obtain ⟨entered, left⟩ := tree.mem_tourOf tree.has_root stmt
  have lt : stmt.index < body.size := of_decide_eq_true has
  obtain ⟨pre, post⟩ := Tally.numbers_after (tree.nodup_tourOf tree.has_root) (Tally.start body)
    (by simpa [Tally.start] using lt) (by simpa [Tally.start] using lt)
  rw [if_pos (entered.mpr inside), Tally.start, Nat.zero_add] at pre
  rw [if_pos (left.mpr inside), Tally.start, Nat.zero_add] at post
  rw [Tally.ofBody_eq_after tree]
  exact ⟨pre, post⟩

private theorem idxOf_mid {before middle after : List Visit}
    (nodup : (before ++ middle ++ after).Nodup) (visit : Visit) :
    (visit ∈ middle ∧ (before ++ middle ++ after).idxOf visit =
      before.length + middle.idxOf visit ∧ middle.idxOf visit < middle.length) ∨
    (visit ∉ middle ∧ (before ++ middle ++ after).idxOf visit < before.length) ∨
    (visit ∉ middle ∧ before.length + middle.length ≤
      (before ++ middle ++ after).idxOf visit) := by
  rw [List.append_assoc] at nodup ⊢
  by_cases inBefore : visit ∈ before
  · refine .inr (.inl ⟨fun inMiddle ↦ ?_, ?_⟩)
    · exact (List.disjoint_of_nodup_append nodup) inBefore (List.mem_append_left _ inMiddle)
    · rw [List.idxOf_append_of_mem inBefore]
      exact List.idxOf_lt_length_of_mem inBefore
  · rw [List.idxOf_append_of_notMem inBefore]
    by_cases inMiddle : visit ∈ middle
    · rw [List.idxOf_append_of_mem inMiddle]
      exact .inl ⟨inMiddle, rfl, List.idxOf_lt_length_of_mem inMiddle⟩
    · rw [List.idxOf_append_of_notMem inMiddle]
      exact .inr (.inr ⟨inMiddle, by omega⟩)

/-- The piece of the tour around a statement, between the visits of the statement itself. -/
private theorem exists_piece (tree : body.IsTree) {stmt : StmtId} (has : body.has stmt = true) :
    ∃ before after, body.tour = before ++ body.tourOf stmt ++ after ∧
      body.tour.idxOf (.enter stmt) = before.length ∧
      body.tour.idxOf (.leave stmt) + 1 = before.length + (body.tourOf stmt).length := by
  obtain ⟨before, after, split⟩ := tree.tourOf_infix has
  have nodup := tree.nodup_tourOf tree.has_root
  rw [show body.tourOf body.root = body.tour from rfl, ← split] at nodup
  obtain ⟨entered, left⟩ := tree.mem_tourOf has stmt
  have unique := tree.nodup_tourOf has
  refine ⟨before, after, split.symm, ?_, ?_⟩
  · rcases idxOf_mid nodup (.enter stmt) with ⟨-, place, -⟩ | ⟨absent, -⟩ | ⟨absent, -⟩
    · rw [← split, place, tree.tourOf_eq has, List.cons_append, List.idxOf_cons_self, Nat.add_zero]
    · exact absurd (entered.mpr .refl) absent
    · exact absurd (entered.mpr .refl) absent
  · rcases idxOf_mid nodup (.leave stmt) with ⟨-, place, -⟩ | ⟨absent, -⟩ | ⟨absent, -⟩
    · rw [← split, place, Nat.add_assoc]
      congr 1
      rw [tree.tourOf_eq has] at unique ⊢
      have absent := List.disjoint_of_nodup_append unique
      rw [List.idxOf_append_of_notMem fun mem ↦ absent mem (List.mem_singleton_self _)]
      simp
    · exact absurd (left.mpr .refl) absent
    · exact absurd (left.mpr .refl) absent

/-- Comparing numbers decides containment between statements of the body. -/
theorem contains_iff (tree : body.IsTree) {outer inner : StmtId} (has : body.has outer = true)
    (has' : body.has inner = true) :
    (ofBody body).contains outer inner = true ↔ body.Inside outer inner := by
  obtain ⟨pre, post⟩ := ofBody_eq tree has
  obtain ⟨pre', post'⟩ := ofBody_eq tree has'
  simp only [contains, pre, post, pre', post', Bool.and_eq_true, decide_eq_true_eq]
  obtain ⟨before, after, split, first, last⟩ := exists_piece tree has
  have ordered : body.tour.idxOf (.enter inner) < body.tour.idxOf (.leave inner) := by
    obtain ⟨before', after', -, first', last'⟩ := exists_piece tree has'
    rw [tree.tourOf_eq has'] at last'
    simp only [List.length_append, List.length_cons] at last'
    omega
  have nodup := tree.nodup_tourOf tree.has_root
  rw [show body.tourOf body.root = body.tour from rfl, split] at nodup
  obtain ⟨entered, left⟩ := tree.mem_tourOf has inner
  -- Both visits of `inner` stand in the piece around `outer`, or both stand on one side of it.
  have places := idxOf_mid nodup (.enter inner)
  have places' := idxOf_mid nodup (.leave inner)
  rw [entered, ← split] at places
  rw [left, ← split] at places'
  constructor
  · intro compared
    by_contra outside
    simp only [outside, false_and, not_false_eq_true, true_and, false_or] at places places'
    omega
  · intro inside
    simp only [inside, true_and, not_true_eq_false, false_and, or_false] at places places'
    omega

/-- The numbers are kept in arrays with a place for each statement. -/
theorem size_ofBody :
    (ofBody body).pre.size = body.size ∧ (ofBody body).methods.size = body.size := by
  apply workOff_keeps (motive := fun tally : Tally ↦
    tally.pre.size = body.size ∧ tally.methods.size = body.size)
  · rintro (stmt | stmt) tally ⟨pre, methods⟩
    · exact ⟨(Array.size_setIfInBounds ..).trans pre, (Tally.size_handDown ..).trans methods⟩
    · exact ⟨pre, methods⟩
  · exact ⟨Array.size_replicate, Array.size_replicate⟩

/-- Nothing contains, or is contained in, an id that names no statement. -/
theorem contains_eq_false {outer inner : StmtId}
    (h : body.has outer = false ∨ body.has inner = false) :
    (ofBody body).contains outer inner = false := by
  have missing {stmt : StmtId} (absent : body.has stmt = false) :
      (ofBody body).pre[stmt.index]? = none := by
    rw [Array.getElem?_eq_none_iff, size_ofBody.1]
    exact Nat.le_of_not_lt (of_decide_eq_false absent)
  unfold contains
  rcases h with h | h
  · rw [missing h]
  · rw [missing h]
    cases (ofBody body).pre[outer.index]? <;> rfl

end Numbering

/-! ### Methods -/

namespace Tally

variable {visits : List Visit} {stmt : StmtId}

/-- What a tally knows of methods after some visits: that of the root, and those of the children of
every statement that was entered. -/
structure Settled (body : Body) (visits : List Visit) (tally : Tally) : Prop where
  size : tally.methods.size = body.size
  root : tally.methods[body.root.index]? = some (body.methodOf body.root)
  child {parent stmt : StmtId} : .enter parent ∈ visits → stmt ∈ body.children parent →
    tally.methods[stmt.index]? = some (body.methodOf stmt)

/-- What a statement hands down to a child is the method of the child. -/
private theorem handed_eq (tree : body.IsTree) {parent child : StmtId}
    (mem : child ∈ body.children parent) :
    (lambdaBody? body parent).getD (body.methodOf parent) = body.methodOf child := by
  rw [tree.methodOf_child mem]
  by_cases lambda : body.isLambda parent = true
  · obtain ⟨inner, found⟩ := Body.isLambda_iff.mp lambda
    rw [Body.children_of_get? found] at mem
    rw [if_pos lambda, List.mem_singleton.mp mem, lambdaBody?, found]
    rfl
  · have none : lambdaBody? body parent = none := by
      rw [lambdaBody?]
      split
      · next inner found => exact absurd (Body.isLambda_iff.mpr ⟨inner, found⟩) lambda
      · rfl
    rw [if_neg lambda, none]
    rfl

/-- Children are put in the method of a lambda or in that of their parent; nothing else is put
anywhere. -/
private theorem getElem?_handDown (tree : body.IsTree) {parent : StmtId} {methods : Array StmtId}
    (size : methods.size = body.size)
    (known : methods[parent.index]? = some (body.methodOf parent)) (other : StmtId) :
    (handDown body parent methods)[other.index]? =
      if other ∈ body.children parent then some (body.methodOf other)
      else methods[other.index]? := by
  -- What is handed down does not change on the way: no child is its own parent.
  have handed (children : List StmtId) (listed : ∀ child ∈ children, child ∈ body.children parent) :
      (children.foldl (fun methods child ↦ methods.setIfInBounds child.index
        ((lambdaBody? body parent).getD (methods[parent.index]?.getD body.root)))
          methods)[other.index]? =
        if other ∈ children then some (body.methodOf other) else methods[other.index]? := by
    induction children generalizing methods with
    | nil => simp
    | cons child rest ih =>
      obtain ⟨mem, later⟩ := List.forall_mem_cons.mp listed
      have lt : child.index < methods.size := size ▸ of_decide_eq_true (tree.has_child mem)
      have apart : child.index ≠ parent.index := by
        intro same
        rw [index_inj same] at mem
        exact tree.not_inside_parent mem .refl
      rw [List.foldl_cons, known, Option.getD_some, handed_eq tree mem,
        ih (by rwa [Array.size_setIfInBounds])
          (by rw [Array.getElem?_setIfInBounds_ne apart, known]) later]
      by_cases first : other = child
      · subst first
        simp [lt]
      · have different : child.index ≠ other.index := fun same ↦ first (index_inj same.symm)
        rw [Array.getElem?_setIfInBounds_ne different]
        simp [first]
  rw [handDown, handed _ fun _ ↦ List.mem_reverse.mp]
  simp only [List.mem_reverse]

/-- A visit settles the methods of the children that it comes to, if its own is settled. -/
private theorem Settled.visit (tree : body.IsTree) {tally : Tally}
    (settled : Settled body visits tally) {visit : Visit}
    (own : ∀ stmt, visit = .enter stmt → stmt = body.root ∨
      ∃ parent, .enter parent ∈ visits ∧ stmt ∈ body.children parent) :
    Settled body (visits ++ [visit]) (tally.visit body visit) := by
  cases visit with
  | leave stmt =>
    refine ⟨settled.size, settled.root, fun entered mem ↦ ?_⟩
    rcases List.mem_append.mp entered with entered | entered
    · exact settled.child entered mem
    · cases List.mem_singleton.mp entered
  | enter stmt =>
    have known : tally.methods[stmt.index]? = some (body.methodOf stmt) := by
      rcases own stmt rfl with rfl | ⟨parent, entered, mem⟩
      · exact settled.root
      · exact settled.child entered mem
    have after := getElem?_handDown tree settled.size known
    refine ⟨(size_handDown ..).trans settled.size, ?_, ?_⟩
    · exact (after body.root).trans ((if_neg (tree.root_not_mem stmt)).trans settled.root)
    · intro parent child entered mem
      refine (after child).trans ?_
      split
      · rfl
      · next outside =>
        rcases List.mem_append.mp entered with entered | entered
        · exact settled.child entered mem
        · cases List.mem_singleton.mp entered
          exact (outside mem).elim

/-- A statement is entered after its parent. -/
private theorem entered_before (tree : body.IsTree) {later : List Visit}
    (split : body.tour = visits ++ .enter stmt :: later) : stmt = body.root ∨
      ∃ parent, .enter parent ∈ visits ∧ stmt ∈ body.children parent := by
  have entered : .enter stmt ∈ body.tour :=
    split ▸ List.mem_append_right _ List.mem_cons_self
  have has := tree.has_inside tree.has_root ((tree.mem_tourOf tree.has_root stmt).1.mp entered)
  refine (tree.exists_parent has).imp_right fun ⟨parent, mem⟩ ↦ ⟨parent, ?_, mem⟩
  have has' := Body.has_of_mem_children mem
  have around := (Numbering.contains_iff tree has' has).mpr (.of_child mem)
  have le : body.tour.idxOf (.enter parent) ≤ body.tour.idxOf (.enter stmt) := by
    simp only [Numbering.contains, Numbering.ofBody_eq tree has, Numbering.ofBody_eq tree has',
      Bool.and_eq_true, decide_eq_true_eq] at around
    exact around.1
  have place : body.tour.idxOf (.enter stmt) = visits.length := by
    have nodup := tree.nodup_tourOf tree.has_root
    rw [show body.tourOf body.root = body.tour from rfl, split, List.nodup_append] at nodup
    have absent : .enter stmt ∉ visits := fun mem ↦
      nodup.2.2 _ mem _ List.mem_cons_self rfl
    rw [split, List.idxOf_append_of_notMem absent, List.idxOf_cons_self, Nat.add_zero]
  by_contra absent
  have same : body.tour.idxOf (.enter parent) = body.tour.idxOf (.enter stmt) := by
    have place' : body.tour.idxOf (.enter parent) =
        visits.length + (Visit.enter stmt :: later).idxOf (.enter parent) := by
      rw [split, List.idxOf_append_of_notMem absent]
    omega
  have entered' := (tree.mem_tourOf tree.has_root parent).1.mpr (tree.inside_root has')
  cases (List.idxOf_inj entered').mp same
  exact tree.not_inside_parent mem .refl

/-- After the tour every method is settled. -/
private theorem settled_after (tree : body.IsTree) {visits : List Visit} (later : List Visit)
    (split : body.tour = visits ++ later) :
    Settled body visits (after body visits (start body)) := by
  induction visits using List.reverseRecOn generalizing later with
  | nil =>
    have lt : body.root.index < body.size := of_decide_eq_true tree.has_root
    refine ⟨Array.size_replicate, ?_, by simp⟩
    rw [tree.methodOf_root]
    simp [after, start, lt]
  | append_singleton visits visit ih =>
    rw [List.append_assoc, List.singleton_append] at split
    rw [after, List.foldl_append]
    apply (ih _ split).visit tree
    rintro stmt rfl
    exact entered_before tree split

end Tally

/-- The method that the walk hands down to a statement is the one found by looking outward. -/
theorem Numbering.methodOf_ofBody (tree : body.IsTree) {stmt : StmtId}
    (has : body.has stmt = true) :
    (Numbering.ofBody body).methodOf body.root stmt = body.methodOf stmt := by
  have settled := Tally.settled_after tree [] (List.append_nil _).symm
  have known : (Numbering.ofBody body).methods[stmt.index]? = some (body.methodOf stmt) := by
    rw [Tally.ofBody_eq_after tree]
    rcases tree.exists_parent has with rfl | ⟨parent, mem⟩
    · exact settled.root
    · have inside := tree.inside_root (Body.has_of_mem_children mem)
      exact settled.child ((tree.mem_tourOf tree.has_root parent).1.mpr inside) mem
  rw [methodOf, known, Option.getD_some]

end ProtectedRegions
