import Mathlib.Data.List.Nodup
import Mathlib.Logic.Relation
import ProtectedRegions.Digraph
import ProtectedRegions.Proofs.Digraph.Walk

/-!
# Walks through a graph that grows

A walk may be stopped between any two steps, for edges to be added to the graph and nodes to be
pushed, in whatever order. A session keeps account of what was pushed and of what the walk read at
each node that it yielded. The discovered nodes are at every moment those that the account leads
to from the pushed ones.
-/

namespace ProtectedRegions

namespace Digraph

variable {ν ε : Type} {graph : Digraph ν ε}

/-- All edges run between nodes of the graph. -/
def Joined (graph : Digraph ν ε) : Prop :=
  ∀ edge ∈ graph.edges, edge.source < graph.size ∧ edge.target < graph.size

/-- The graph without nodes has no edges. -/
theorem joined_empty : (empty : Digraph ν ε).Joined := nofun

/-- A new node leaves the edges between the old ones. -/
theorem Joined.addNode (joined : graph.Joined) (data : ν) : (graph.addNode data).2.Joined := by
  intro edge mem
  have size : (graph.addNode data).2.size = graph.size + 1 := Array.size_push _
  obtain ⟨source, target⟩ := joined edge mem
  exact ⟨size ▸ Nat.lt_succ_of_lt source, size ▸ Nat.lt_succ_of_lt target⟩

/-- An edge is added if both of its ends are nodes. -/
theorem addEdge_eq_ok {edge : Edge ε} {result : Nat × Digraph ν ε} :
    graph.addEdge edge = .ok result ↔ edge.source < graph.size ∧ edge.target < graph.size ∧
      result = (graph.edges.size, graph.connect edge) := by
  rw [addEdge]
  split
  · next missing => simp [Nat.not_lt.mpr missing]
  · next source =>
    split
    · next missing => simp [Nat.not_lt.mpr missing]
    · next target => simp [Nat.lt_of_not_le source, Nat.lt_of_not_le target, eq_comm]

/-- An edge that is added runs between nodes, like the others. -/
theorem Joined.addEdge (joined : graph.Joined) {edge : Edge ε} {name : Nat} {after : Digraph ν ε}
    (added : graph.addEdge edge = .ok (name, after)) : after.Joined := by
  obtain ⟨source, target, same⟩ := addEdge_eq_ok.mp added
  cases same
  intro other mem
  rcases Array.mem_push.mp mem with old | rfl
  · exact joined other old
  · exact ⟨source, target⟩

/-- The successors of a node are nodes. -/
theorem Joined.lt_size (joined : graph.Joined) {node next : Nat}
    (mem : next ∈ graph.successors node) : next < graph.size := by
  obtain ⟨edge, listed, rfl⟩ := List.mem_map.mp mem
  exact (joined edge (Array.mem_filter.mp (Array.mem_toList_iff.mp listed)).1).2

end Digraph

namespace Walk

/-- A call on a walk or on its graph: it adds an edge, pushes a node, or asks for the next node. -/
inductive Call (ε : Type) where
  | connect (edge : Digraph.Edge ε)
  | push (node : Nat)
  | next

/-- A walk with the graph it goes through and an account of what became of it, latest first. -/
structure Session (ν ε : Type) where
  graph : Digraph ν ε
  walk : Walk
  /-- The nodes that were pushed. -/
  roots : List Nat
  /-- The nodes that were yielded, with the successors that each had then. -/
  reads : List (Nat × List Nat)

namespace Session

variable {ν ε : Type} {graph : Digraph ν ε} {session : Session ν ε} {calls : List (Call ε)}

/-- A new walk for the nodes of a graph. -/
def start (graph : Digraph ν ε) : Session ν ε := ⟨graph, .start graph.size, [], []⟩

/-- What a call does. An edge that lacks an end is not added, and a finished walk stays as it is. -/
def perform (session : Session ν ε) : Call ε → Session ν ε
  | .connect edge =>
    match session.graph.addEdge edge with
    | .error _ => session
    | .ok (_, graph) => { session with graph }
  | .push node => { session with walk := session.walk.push node, roots := node :: session.roots }
  | .next =>
    match session.walk.next? session.graph.successors with
    | none => session
    | some (node, walk) =>
      { session with walk, reads := (node, session.graph.successors node) :: session.reads }

/-- What several calls do, one after the other. -/
def run (graph : Digraph ν ε) (calls : List (Call ε)) : Session ν ε :=
  calls.foldl perform (start graph)

/-- The nodes that were yielded, latest first. -/
def yielded (session : Session ν ε) : List Nat := session.reads.map Prod.fst

/-- A node was yielded while the other was a successor of it. -/
def Follows (session : Session ν ε) (node next : Nat) : Prop :=
  ∃ successors, (node, successors) ∈ session.reads ∧ next ∈ successors

/-- What holds of a session in a graph, whatever was called. -/
structure Invariant (graph : Digraph ν ε) (session : Session ν ε) : Prop where
  split : session.walk.Split (· ∈ session.yielded)
  nodup : session.yielded.Nodup
  expanded : session.walk.expanded = session.yielded.length
  capacity : session.walk.capacity = session.graph.size
  size : session.graph.size = graph.size
  joined : session.graph.Joined
  grows (node : Nat) : graph.successors node ⊆ session.graph.successors node
  read {node : Nat} {successors : List Nat} : (node, successors) ∈ session.reads →
    graph.successors node ⊆ successors ∧ successors ⊆ session.graph.successors node
  followed {node next : Nat} : session.Follows node next → session.walk.isDiscovered next = true
  rooted {root : Nat} : root ∈ session.roots → root < graph.size →
    session.walk.isDiscovered root = true
  sound {node : Nat} : session.walk.isDiscovered node = true →
    ∃ root ∈ session.roots, root < graph.size ∧ Relation.ReflTransGen session.Follows root node

/-- Nothing is discovered at the start. -/
theorem invariant_start (joined : graph.Joined) : (start graph).Invariant graph where
  split := by simpa [start, yielded] using split_start graph.size
  nodup := List.nodup_nil
  expanded := rfl
  capacity := rfl
  size := rfl
  joined := joined
  grows _ := List.Subset.refl _
  read := nofun
  followed := nofun
  rooted := nofun
  sound {node} found := by
    have := ((split_start graph.size).isDiscovered_iff node).mp found
    simp [Walk.start] at this

namespace Invariant

variable (inv : session.Invariant graph)

include inv

/-- Adding an edge keeps the invariant: what was read is still there. -/
theorem connect (edge : Digraph.Edge ε) : (session.perform (.connect edge)).Invariant graph := by
  unfold perform
  dsimp only
  split
  · exact inv
  · next name after added =>
    have joined := inv.joined.addEdge added
    obtain ⟨-, -, same⟩ := Digraph.addEdge_eq_ok.mp added
    cases same
    have kept (node : Nat) :
        session.graph.successors node ⊆ (session.graph.connect edge).successors node := by
      rw [Digraph.successors_connect]
      exact List.subset_append_left _ _
    exact { inv with
      joined
      grows node _ mem := kept node (inv.grows node mem)
      read mem := (inv.read mem).imp_right fun subset _ listed ↦ kept _ (subset listed) }

/-- Pushing a node keeps the invariant: a node of the graph is discovered, as a root. -/
theorem push (node : Nat) : (session.perform (.push node)).Invariant graph := by
  have found (other : Nat) : (session.walk.push node).isDiscovered other = true ↔
      (other = node ∧ node < graph.size) ∨ session.walk.isDiscovered other = true := by
    rw [isDiscovered_push, inv.capacity, inv.size]
    simp
  have known {other : Nat} (before : session.walk.isDiscovered other = true) :
      (session.walk.push node).isDiscovered other = true := (found other).mpr (.inr before)
  exact { inv with
    split := inv.split.push node
    expanded := (expanded_push _ _).trans inv.expanded
    capacity := (capacity_push _ _).trans inv.capacity
    followed follows := known (inv.followed follows)
    rooted := fun {root} mem lt ↦ by
      rcases List.mem_cons.mp mem with rfl | before
      · exact (found _).mpr (.inl ⟨rfl, lt⟩)
      · exact known (inv.rooted before lt)
    sound := fun {other} discovered ↦ by
      rcases (found other).mp discovered with ⟨rfl, lt⟩ | before
      · exact ⟨_, List.mem_cons_self, lt, .refl⟩
      · obtain ⟨root, mem, leads⟩ := inv.sound before
        exact ⟨root, List.mem_cons_of_mem _ mem, leads⟩ }

/-- A step keeps the invariant: its node is a new one, and all of its successors are discovered. -/
theorem next : (session.perform .next).Invariant graph := by
  unfold perform
  dsimp only
  split
  · exact inv
  · next node after step =>
    obtain ⟨split, capacity, discovered, fresh, found⟩ := inv.split.next? step
    have known {other : Nat} (before : session.walk.isDiscovered other = true) :
        after.isDiscovered other = true := (found other).mpr (.inr before)
    have successor {other : Nat} (mem : other ∈ session.graph.successors node) :
        after.isDiscovered other = true :=
      (found other).mpr (.inl ⟨mem, inv.capacity ▸ inv.joined.lt_size mem⟩)
    have more : session.Follows ≤ Follows { session with
        walk := after
        reads := (node, session.graph.successors node) :: session.reads } :=
      fun _ _ ⟨successors, mem, listed⟩ ↦ ⟨successors, List.mem_cons_of_mem _ mem, listed⟩
    exact { inv with
      split := by simpa [yielded] using split
      nodup := List.nodup_cons.mpr ⟨fresh, inv.nodup⟩
      expanded := by
        rw [expanded_next? step, inv.expanded]
        rfl
      capacity := capacity.trans inv.capacity
      read := fun mem ↦ by
        rcases List.mem_cons.mp mem with same | before
        · cases same
          exact ⟨inv.grows node, List.Subset.refl _⟩
        · exact inv.read before
      followed := fun ⟨successors, mem, listed⟩ ↦ by
        rcases List.mem_cons.mp mem with same | before
        · cases same
          exact successor listed
        · exact known (inv.followed ⟨successors, before, listed⟩)
      rooted mem lt := known (inv.rooted mem lt)
      sound := fun {other} reached ↦ by
        rcases (found other).mp reached with ⟨listed, -⟩ | before
        · obtain ⟨root, mem, lt, leads⟩ := inv.sound discovered
          exact ⟨root, mem, lt, .tail (.mono more _ _ leads) ⟨_, List.mem_cons_self, listed⟩⟩
        · obtain ⟨root, mem, lt, leads⟩ := inv.sound before
          exact ⟨root, mem, lt, .mono more _ _ leads⟩ }

/-- Any call keeps the invariant. -/
theorem perform (call : Call ε) : (session.perform call).Invariant graph :=
  match call with
  | .connect edge => inv.connect edge
  | .push node => inv.push node
  | .next => inv.next

/-- Any calls keep the invariant. -/
theorem foldl_perform (calls : List (Call ε)) :
    (calls.foldl Session.perform session).Invariant graph := by
  induction calls generalizing session with
  | nil => exact inv
  | cons call rest ih => exact ih (inv.perform call)

/-- The discovered nodes are those that the account leads to from the roots. -/
theorem isDiscovered_iff (node : Nat) : session.walk.isDiscovered node = true ↔
    ∃ root ∈ session.roots, root < graph.size ∧
      Relation.ReflTransGen session.Follows root node := by
  refine ⟨inv.sound, ?_⟩
  rintro ⟨root, mem, lt, leads⟩
  induction leads with
  | refl => exact inv.rooted mem lt
  | tail _ follows _ => exact inv.followed follows

/-- Once a walk is over, and no edge was added, the discovered nodes are those that the edges of the
graph lead to from the roots. -/
theorem isDiscovered_iff_of_finished (finished : session.walk.stack = [])
    (same : session.graph = graph) (node : Nat) : session.walk.isDiscovered node = true ↔
      ∃ root ∈ session.roots, root < graph.size ∧
        Relation.ReflTransGen (fun node next ↦ next ∈ graph.successors node) root node := by
  constructor
  · intro discovered
    obtain ⟨root, mem, lt, leads⟩ := inv.sound discovered
    refine ⟨root, mem, lt, .mono ?_ _ _ leads⟩
    rintro node next ⟨successors, mem, listed⟩
    exact same ▸ (inv.read mem).2 listed
  · rintro ⟨root, mem, lt, leads⟩
    induction leads with
    | refl => exact inv.rooted mem lt
    | @tail node next _ listed discovered =>
      -- The node is not on the stack, so it was yielded, and its successors were read then.
      rw [inv.split.isDiscovered_iff, finished] at discovered
      obtain ⟨⟨_, successors⟩, mem, rfl⟩ :=
        List.mem_map.mp (discovered.resolve_left List.not_mem_nil)
      exact inv.followed ⟨successors, mem, (inv.read mem).1 listed⟩

end Invariant

/-- However edges are added, nodes pushed and steps taken, no node is yielded twice; the discovered
nodes are those yielded and those on the stack, each of them once; as many are expanded as were
yielded; and the successors that a node had when it was yielded are discovered. The discovered
nodes are always those that the edges read so far lead to from the nodes pushed. When the walk is
over and no edge was added, they are those that the edges of the graph lead to. -/
theorem run_never_loses_or_repeats (joined : graph.Joined)
    (ran : run graph calls = session) :
    (session.yielded ++ session.walk.stack).Nodup ∧
      (∀ node, session.walk.isDiscovered node = true ↔
        node ∈ session.yielded ++ session.walk.stack) ∧
      session.walk.expanded = session.yielded.length ∧
      (∀ node next, session.Follows node next → session.walk.isDiscovered next = true) ∧
      (∀ node, session.walk.isDiscovered node = true ↔
        ∃ root ∈ session.roots, root < graph.size ∧
          Relation.ReflTransGen session.Follows root node) ∧
      (session.walk.next? session.graph.successors = none → session.graph = graph →
        ∀ node, session.walk.isDiscovered node = true ↔
          ∃ root ∈ session.roots, root < graph.size ∧
            Relation.ReflTransGen (fun node next ↦ next ∈ graph.successors node) root node) := by
  have inv : session.Invariant graph := ran ▸ (invariant_start joined).foldl_perform calls
  refine ⟨?_, fun node ↦ ?_, inv.expanded, fun _ _ ↦ inv.followed, inv.isDiscovered_iff,
    fun finished same ↦ inv.isDiscovered_iff_of_finished (next?_eq_none_iff.mp finished) same⟩
  · exact inv.nodup.append inv.split.nodup fun _ yielded waits ↦ inv.split.apart waits yielded
  · rw [inv.split.isDiscovered_iff, List.mem_append, or_comm]

/-- Two nodes in a circle, with a third one on its own and a fourth. -/
def circle : Digraph Unit Unit :=
  ⟨#[(), (), (), ()], #[⟨0, 1, ()⟩, ⟨1, 0, ()⟩, ⟨2, 2, ()⟩]⟩

/-- An edge from a node that was yielded is not followed, one from a node that waits is; and a
node that the graph does not have is not pushed. -/
theorem run_never_loses_or_repeats_circle :
    ∃ session, run circle [.push 0, .push 7, .next, .connect ⟨0, 3, ()⟩, .connect ⟨1, 2, ()⟩,
        .connect ⟨1, 9, ()⟩, .next, .push 1, .next, .next] = session ∧
      session.yielded = [2, 1, 0] ∧ session.walk.stack = [] ∧
      session.walk.isDiscovered 3 = false ∧
      ∃ root ∈ session.roots, root < circle.size ∧
        Relation.ReflTransGen session.Follows root 2 := by
  have joined : circle.Joined := by
    unfold Digraph.Joined
    decide
  obtain ⟨-, found, -, -, leads, -⟩ := run_never_loses_or_repeats joined rfl
  refine ⟨_, rfl, by decide +kernel, by decide +kernel, by decide +kernel, ?_⟩
  exact (leads 2).mp (by decide +kernel)

end Session
end Walk
end ProtectedRegions
