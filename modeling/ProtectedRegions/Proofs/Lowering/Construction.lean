import ProtectedRegions.Lowering.Method
import ProtectedRegions.Proofs.Code.Tokens
import ProtectedRegions.Proofs.Flow.Search
import ProtectedRegions.Proofs.Lookup
import ProtectedRegions.Proofs.Outcome

/-!
# Constructions and structured code

What is done to a construction amounts to a piece of structured code: it lays out that code and
reports its events. The regions of the code are listed behind those that were opened before, the
outermost of them become children of the innermost open region, and what was open before is open
again. The decisions about the statements in the code are taken out.

That a step performs a piece of code is shown for the operations first, then for what opens a
region, fills it and closes it.
-/

namespace ProtectedRegions

namespace Region

variable {parent : Option RegionId} {ids ids' : List RegionId} {regions before after : List Region}
  {region : Region} {index : Nat} {change : Region → Region}

theorem length_adopt : (adopt parent ids regions).length = regions.length := by
  cases parent with
  | none => rfl
  | some parent => exact List.length_modify ..

/-- A parent that gets no children stays as it is. -/
theorem adopt_nil : adopt parent [] regions = regions := by
  cases parent with
  | none => rfl
  | some parent =>
    simp only [adopt, List.append_nil]
    exact List.modify_id ..

/-- Children may come at once or one after the other. -/
theorem adopt_adopt :
    adopt parent ids' (adopt parent ids regions) = adopt parent (ids ++ ids') regions := by
  cases parent with
  | none => rfl
  | some parent =>
    simp only [adopt, List.modify_modify_eq, Function.comp_def, List.append_assoc]

/-- The change of a region between others. -/
theorem modify_between (place : index = before.length) :
    (before ++ region :: after).modify index change = before ++ change region :: after := by
  subst place
  induction before with
  | nil => rfl
  | cons first rest ih => exact congrArg (first :: ·) ih

/-- The region that was listed last gets its children. -/
theorem adopt_last {id : RegionId} (place : id.index = before.length) :
    adopt (some id) ids (before ++ [region]) =
      before ++ [{ region with children := region.children ++ ids }] :=
  modify_between place

/-- The change of a region in front of others. -/
theorem modify_append (within : index < before.length) :
    (before ++ after).modify index change = before.modify index change ++ after := by
  induction before generalizing index with
  | nil => cases within
  | cons first rest ih =>
    cases index with
    | zero => rfl
    | succ index => exact congrArg (first :: ·) (ih (Nat.lt_of_succ_lt_succ within))

/-- A parent is found in front of what is listed behind it. -/
theorem adopt_append (within : ∀ id ∈ parent, id.index < before.length) :
    adopt parent ids (before ++ after) = adopt parent ids before ++ after := by
  cases parent with
  | none => rfl
  | some parent => exact modify_append (within parent rfl)

end Region

namespace Construction

/-- With a piece of code laid out. -/
def extend (construction : Construction) (code : Code) (layout : Layout) : Construction :=
  { construction with
    decisions := construction.decisions.filter (·.1 ∉ code.statements)
    layout
    regions :=
      Region.adopt construction.opened.head? (code.outermost construction.regions.length)
        construction.regions ++
      code.regions construction.layout.offset construction.regions.length
        construction.opened.head? }

/-- What is needed to lay out a piece of code inside the given scopes: the innermost open region is
there, and so are the right decisions about the statements in the code. -/
structure Ready (flow : Flow) (config : Config) (scopes : List StmtId) (code : Code)
    (construction : Construction) : Prop where
  scopes_eq : construction.scopes = scopes
  within : ∀ id ∈ construction.opened.head?, id.index < construction.regions.length
  nodup : code.statements.Nodup
  decided : ∀ stmt decision, (stmt, decision) ∈ construction.decisions → ∃ kind inner,
    flow.body.get? stmt = some (.synthetic kind inner) ∧
      decision = flow.decideCleanup config kind stmt inner
  complete : ∀ stmt kind inner, flow.body.get? stmt = some (.synthetic kind inner) →
    stmt ∈ code.statements → stmt ∈ construction.decisions.map (·.1)

variable {flow : Flow} {config : Config} {scopes : List StmtId} {first second : Code}
  {construction : Construction} {middle layout : Layout}

/-- Code in sequence is laid out in sequence. -/
theorem extend_extend
    (within : ∀ id ∈ construction.opened.head?, id.index < construction.regions.length)
    (laid : first.lay construction.layout = .ok middle) :
    (construction.extend first middle).extend second layout =
      construction.extend (first ++ second) layout := by
  have place : (construction.extend first middle).regions.length =
      construction.regions.length + first.regionCount := by
    rw [extend, List.length_append, Region.length_adopt, Code.length_regions]
  have decisions : (construction.extend first middle).decisions.filter
      (·.1 ∉ second.statements) =
        construction.decisions.filter (·.1 ∉ (first ++ second).statements) := by
    rw [extend, List.filter_filter]
    refine List.filter_congr fun entry _ ↦ ?_
    show _ = decide (entry.1 ∉ first.statements ++ second.statements)
    simp [Bool.and_comm]
  rw [extend, decisions, place]
  simp only [extend, Code.offset_of_lay laid]
  rw [Region.adopt_append (by rwa [Region.length_adopt]), Region.adopt_adopt, List.append_assoc]
  rfl

namespace Ready

/-- What is ready for code is ready for any code with the same statements. -/
theorem of_statements (ready : Ready flow config scopes first construction)
    (same : first.statements = second.statements) :
    Ready flow config scopes second construction :=
  ⟨ready.scopes_eq, ready.within, same ▸ ready.nodup, ready.decided, same ▸ ready.complete⟩

/-- What is ready for code in sequence is ready for the first part of it. -/
theorem first_part (ready : Ready flow config scopes (first ++ second) construction) :
    Ready flow config scopes first construction where
  scopes_eq := ready.scopes_eq
  within := ready.within
  nodup := (List.nodup_append.mp ready.nodup).1
  decided := ready.decided
  complete stmt kind inner found mem :=
    ready.complete stmt kind inner found (List.mem_append_left _ mem)

/-- When the first part is laid out, the second can be. -/
theorem second_part (ready : Ready flow config scopes (first ++ second) construction) :
    Ready flow config scopes second (construction.extend first middle) where
  scopes_eq := ready.scopes_eq
  within id innermost := by
    rw [extend, List.length_append, Region.length_adopt]
    exact Nat.lt_add_right _ (ready.within id innermost)
  nodup := (List.nodup_append.mp ready.nodup).2.1
  decided stmt decision mem := ready.decided stmt decision (List.mem_filter.mp mem).1
  complete stmt kind inner found mem := by
    obtain ⟨entry, listed, rfl⟩ := List.mem_map.mp
      (ready.complete stmt kind inner found (List.mem_append_right _ mem))
    refine List.mem_map_of_mem (List.mem_filter.mpr ⟨listed, decide_eq_true fun mem' ↦ ?_⟩)
    exact (List.nodup_append.mp ready.nodup).2.2 _ mem' _ mem rfl

end Ready
end Construction

/-- A step lays out a piece of code inside the given scopes, and reports its events. -/
def Performs (flow : Flow) (config : Config) (scopes : List StmtId) (construct : Construct Unit)
    (code : Code) : Prop :=
  ∀ construction layout, construction.Ready flow config scopes code →
    code.lay construction.layout = .ok layout →
      construct construction = ⟨.ok ((), construction.extend code layout), code.events⟩

namespace Construct

variable {α β : Type} {construction middle : Construction} {events : List Event}

/-- A step that succeeds hands the construction on. -/
theorem bind_of_eq {first : Construct α} {next : α → Construct β} {value : α}
    (first_eq : first construction = ⟨.ok (value, middle), events⟩) :
    (first >>= next) construction =
      ⟨(next value middle).result, events ++ (next value middle).events⟩ := by
  show (first construction >>= fun pair ↦ next pair.1 pair.2) = _
  rw [first_eq, Logged.ok_bind]

/-- A decision that is there is taken out. -/
theorem takeDecision_apply {kind : SyntheticKind} {stmt : StmtId} {decision : CleanupDecision}
    (looked : construction.decisions.lookup stmt = some decision) :
    takeDecision kind stmt construction =
      ⟨.ok (decision,
        { construction with decisions := construction.decisions.filter (·.1 ≠ stmt) }), []⟩ := by
  rw [takeDecision]
  show ((liftM (Logged.require (.malformed (.undecided kind stmt))
      (construction.decisions.lookup stmt)) : Construct CleanupDecision) >>= fun decision ↦ do
    set { construction with decisions := construction.decisions.filter (·.1 ≠ stmt) }
    return decision) construction = _
  rw [looked]
  rfl

end Construct

namespace Performs

variable {flow : Flow} {config : Config} {scopes : List StmtId} {construct next : Construct Unit}
  {code first second third : Code}

/-- Two steps perform two pieces of code in sequence. -/
theorem append (performs : Performs flow config scopes construct first)
    (performs' : Performs flow config scopes next second) :
    Performs flow config scopes (do construct; next) (first ++ second) := by
  intro construction layout ready laid
  obtain ⟨middle, laid, laid'⟩ := Outcome.bind_eq_ok.mp laid
  rw [Construct.bind_of_eq (performs construction middle ready.first_part laid),
    performs' _ layout ready.second_part laid', Construction.extend_extend ready.within laid]
  rfl

/-- Code in sequence may be taken together from its end. -/
theorem assoc (performs : Performs flow config scopes construct (first ++ (second ++ third))) :
    Performs flow config scopes construct (first ++ second ++ third) := by
  intro construction layout ready laid
  have same : construction.extend (first ++ (second ++ third)) layout =
      construction.extend (first ++ second ++ third) layout := by
    simp only [Construction.extend, Code.append_eq, Code.statements, Code.outermost, Code.regions,
      Code.regionCount, Code.size, List.append_assoc, Nat.add_assoc]
  have statements : (first ++ (second ++ third)).statements =
      (first ++ second ++ third).statements := (List.append_assoc ..).symm
  obtain ⟨whole, laidFirst, laidThird⟩ := Outcome.bind_eq_ok.mp laid
  obtain ⟨middle, laidFirst, laidSecond⟩ := Outcome.bind_eq_ok.mp laidFirst
  have laid' : (first ++ (second ++ third)).lay construction.layout = .ok layout :=
    Outcome.bind_eq_ok.mpr
      ⟨middle, laidFirst, Outcome.bind_eq_ok.mpr ⟨whole, laidSecond, laidThird⟩⟩
  rw [performs construction layout (ready.of_statements statements.symm) laid', same]
  exact congrArg (Logged.mk _) (List.append_assoc ..).symm

/-- A step that only moves the layout on performs code without statements and regions. -/
private theorem of_moves
    (moves : ∀ construction layout, code.lay construction.layout = .ok layout →
      construct construction = ⟨.ok ((), { construction with layout }), code.events⟩)
    (statements : code.statements = []) (outermost : ∀ next, code.outermost next = [])
    (regions : ∀ offset next parent, code.regions offset next parent = []) :
    Performs flow config scopes construct code := by
  intro construction layout _ laid
  have decisions : construction.decisions.filter (·.1 ∉ code.statements) =
      construction.decisions := by
    rw [statements]
    exact List.filter_eq_self.mpr fun _ _ ↦ rfl
  rw [moves construction layout laid, Construction.extend, decisions, outermost, regions,
    Region.adopt_nil, List.append_nil]

/-- Nothing is done for no code. -/
theorem nothing : Performs flow config scopes (pure ()) .nothing := by
  refine of_moves (fun construction layout laid ↦ ?_) rfl (fun _ ↦ rfl) fun _ _ _ ↦ rfl
  cases laid
  rfl

theorem emit {source : StmtId} {operation : Instruction LabelKey} :
    Performs flow config scopes (Construct.emit operation) (.instr source operation) := by
  refine of_moves (fun construction layout laid ↦ ?_) rfl (fun _ ↦ rfl) fun _ _ _ ↦ rfl
  cases laid
  rfl

theorem define {label : LabelKey} :
    Performs flow config scopes (Construct.define label) (.mark label) := by
  refine of_moves (fun construction layout laid ↦ ?_) rfl (fun _ ↦ rfl) fun _ _ _ ↦ rfl
  rw [Code.lay] at laid
  split at laid
  · next placed =>
    cases laid
    show (do
      Logged.ofResult (construction.layout.place label).1
      return ((), { construction with layout := (construction.layout.place label).2 }) :
        Logged (Unit × Construction)) = _
    rw [placed]
    rfl
  · cases laid

theorem report {event : Event} :
    Performs flow config scopes (liftM (Logged.report event)) (.note event) := by
  refine of_moves (fun construction layout laid ↦ ?_) rfl (fun _ ↦ rfl) fun _ _ _ ↦ rfl
  cases laid
  rfl

theorem onlyIf {condition : Bool} (performs : Performs flow config scopes construct code) :
    Performs flow config scopes (Construct.onlyIf condition construct)
      (.onlyIf condition code) := by
  cases condition with
  | false => exact nothing
  | true => exact performs

theorem forM {α : Type} {list : List α} {each : α → Construct Unit} {part : α → Code}
    (performs : ∀ x ∈ list, Performs flow config scopes (each x) (part x)) :
    Performs flow config scopes (list.forM each) (.concat (list.map part)) := by
  induction list with
  | nil => exact nothing
  | cons x rest ih =>
    obtain ⟨first, later⟩ := List.forall_mem_cons.mp performs
    exact first.append (ih later)

/-- What is done inside one more scope lays out code for that place. -/
theorem inScope {scope : StmtId}
    (performs : Performs flow config (scope :: scopes) construct code) :
    Performs flow config scopes (Construct.inScope scope construct) code := by
  intro construction layout ready laid
  have inside := performs { construction with scopes := scope :: construction.scopes } layout
    ⟨congrArg (scope :: ·) ready.scopes_eq, ready.within, ready.nodup, ready.decided,
      ready.complete⟩ laid
  show ((do construct; modify fun construction ↦
    { construction with scopes := construction.scopes.tail }) : Construct Unit)
      { construction with scopes := scope :: construction.scopes } = _
  rw [Construct.bind_of_eq inside]
  exact congrArg (Logged.mk _) (List.append_nil _)

/-- The bracket of a statement that is not synthetic needs no decision. -/
theorem statement {stmt : StmtId}
    (plain : ∀ kind inner, flow.body.get? stmt ≠ some (.synthetic kind inner))
    (performs : Performs flow config scopes construct code) :
    Performs flow config scopes construct (.statement stmt code) := by
  intro construction layout ready laid
  have decisions : construction.decisions.filter (·.1 ∉ (Code.statement stmt code).statements) =
      construction.decisions.filter (·.1 ∉ code.statements) := by
    refine List.filter_congr fun entry mem ↦ ?_
    obtain ⟨kind, inner, found, -⟩ := ready.decided entry.1 entry.2 mem
    have different : entry.1 ≠ stmt := fun same ↦ plain kind inner (same ▸ found)
    simp [Code.statements, different]
  rw [performs construction layout ⟨ready.scopes_eq, ready.within,
    (List.nodup_cons.mp ready.nodup).2, ready.decided, fun stmt' kind inner found mem ↦
      ready.complete stmt' kind inner found (List.mem_cons_of_mem _ mem)⟩ laid,
    Construction.extend, Construction.extend, decisions]
  rfl

/-- The bracket of a synthetic statement takes the decision about it out, and the code in it is what
was decided for. -/
theorem decided {kind : SyntheticKind} {stmt inner : StmtId}
    {decide : CleanupDecision → Construct Unit}
    (found : flow.body.get? stmt = some (.synthetic kind inner))
    (performs : Performs flow config scopes
      (decide (flow.decideCleanup config kind stmt inner)) code) :
    Performs flow config scopes (do decide (← Construct.takeDecision kind stmt))
      (.statement stmt code) := by
  intro construction layout ready laid
  have looked : construction.decisions.lookup stmt =
      some (flow.decideCleanup config kind stmt inner) := by
    refine lookup_of_unique (ready.complete stmt kind inner found List.mem_cons_self)
      fun other mem ↦ ?_
    obtain ⟨kind', inner', found', same⟩ := ready.decided stmt other mem
    rw [found] at found'
    cases found'
    exact same
  obtain ⟨fresh, nodup⟩ := List.nodup_cons.mp ready.nodup
  have ready' : Construction.Ready flow config scopes code { construction with
      decisions := construction.decisions.filter (·.1 ≠ stmt) } := by
    refine ⟨ready.scopes_eq, ready.within, nodup,
      fun stmt' decision mem ↦ ready.decided stmt' decision (List.mem_filter.mp mem).1,
      fun stmt' kind' inner' found' mem ↦ ?_⟩
    obtain ⟨entry, listed, rfl⟩ := List.mem_map.mp
      (ready.complete stmt' kind' inner' found' (List.mem_cons_of_mem _ mem))
    refine List.mem_map_of_mem (List.mem_filter.mpr ⟨listed, decide_eq_true fun same ↦ ?_⟩)
    exact fresh (same ▸ mem)
  have decisions : (construction.decisions.filter (·.1 ≠ stmt)).filter (·.1 ∉ code.statements) =
      construction.decisions.filter (·.1 ∉ (Code.statement stmt code).statements) := by
    rw [List.filter_filter]
    refine List.filter_congr fun entry _ ↦ ?_
    simp [Code.statements, Bool.and_comm]
  rw [Construct.bind_of_eq (Construct.takeDecision_apply looked), performs _ layout ready' laid,
    Construction.extend, decisions]
  rfl

/-- What stands in front of a statement and holds no statement may be taken into its bracket. -/
theorem into_statement {stmt : StmtId} (plain : first.statements = [])
    (performs : Performs flow config scopes construct (first ++ .statement stmt second)) :
    Performs flow config scopes construct (.statement stmt (first ++ second)) := by
  intro construction layout ready laid
  have statements : (first ++ .statement stmt second).statements =
      (Code.statement stmt (first ++ second)).statements := by
    simp only [Code.append_eq, Code.statements, plain, List.nil_append]
  rw [performs construction layout (ready.of_statements statements.symm) laid,
    Construction.extend, statements]
  rfl

end Performs

/-! ### Regions -/

namespace Construction

variable {flow : Flow} {config : Config} {scopes : List StmtId} {code handler : Code}
  {construction : Construction} {middle layout : Layout} {head : RegionHead}

/-- What is ready for code is ready for it inside a region that is opened there. -/
theorem Ready.opening (ready : Ready flow config scopes code construction) :
    Ready flow config scopes code (construction.opening head) where
  scopes_eq := ready.scopes_eq
  within id innermost := by
    cases innermost
    rw [Construction.opening, List.length_append, Region.length_adopt]
    exact Nat.lt_succ_self _
  nodup := ready.nodup
  decided := ready.decided
  complete := ready.complete

/-- With a region opened and code laid out in it. -/
theorem extend_opening : (construction.opening head).extend code layout =
    { construction with
      decisions := construction.decisions.filter (·.1 ∉ code.statements)
      layout
      regions :=
        Region.adopt construction.opened.head? [construction.nextRegion] construction.regions ++
          { head with
            id := construction.nextRegion
            span := .ofLength construction.layout.offset 0
            parent := construction.opened.head?
            children := code.outermost (construction.regions.length + 1)
            handler := none } ::
          code.regions construction.layout.offset (construction.regions.length + 1)
            (some construction.nextRegion)
      opened := construction.nextRegion :: construction.opened } := by
  have place : construction.nextRegion.index =
      (Region.adopt construction.opened.head? [construction.nextRegion]
        construction.regions).length := Region.length_adopt.symm
  rw [extend, Construction.opening]
  simp only [List.head?_cons, List.length_append, Region.length_adopt, List.length_singleton,
    Region.adopt_last place, List.append_assoc, List.cons_append, List.nil_append]

/-- Closing a region behind the code in it gives the region of that code. -/
theorem closing_extend_opening (laid : code.lay construction.layout = .ok layout)
    (exits : ExitSet) :
    ((construction.opening head).extend code layout).closing construction.nextRegion exits =
      construction.extend (.region { head with exits } code) layout := by
  have place : construction.nextRegion.index =
      (Region.adopt construction.opened.head? [construction.nextRegion]
        construction.regions).length := Region.length_adopt.symm
  rw [extend_opening, closing, Region.modify_between place, Code.offset_of_lay laid]
  simp only [Span.start_ofLength, Nat.add_sub_cancel_left]
  rfl

/-- The region that was opened gets the bounds of the handler behind the code in it, and closing it
gives the region of code that ends in its own handler. -/
theorem closing_handled (laid : code.lay construction.layout = .ok middle)
    (laid' : handler.lay middle = .ok layout) (exits : ExitSet) :
    closing { (construction.opening head).extend (code ++ handler) layout with
        regions := ((construction.opening head).extend (code ++ handler) layout).regions.modify
          construction.nextRegion.index fun region ↦
            { region with handler := some (.ofLength middle.offset
              (layout.offset - middle.offset)) } } construction.nextRegion exits =
      construction.extend (.handled { head with exits } code handler) layout := by
  have place : construction.nextRegion.index =
      (Region.adopt construction.opened.head? [construction.nextRegion]
        construction.regions).length := Region.length_adopt.symm
  have stop := Code.offset_of_lay laid
  have whole : layout.offset - construction.layout.offset = code.size + handler.size := by
    rw [Code.offset_of_lay laid', stop, Nat.add_assoc, Nat.add_sub_cancel_left]
  have bounds : layout.offset - middle.offset = handler.size := by
    rw [Code.offset_of_lay laid', Nat.add_sub_cancel_left]
  rw [extend_opening, closing]
  simp only [Region.modify_between place, Span.start_ofLength, whole, bounds]
  rw [stop]
  rfl

end Construction

namespace Construct

variable {α : Type} {construction : Construction}

/-- A region is opened and then goes by its id. -/
theorem openRegion_bind {kind : RegionKind} {origin : RegionOrigin} {stmt : StmtId}
    {next : RegionId → Construct α} :
    (do
      let id ← openRegion kind origin stmt
      next id : Construct α) construction =
      next construction.nextRegion (construction.opening ⟨kind, origin, stmt, none, []⟩) := rfl

/-- A region that has been opened can be changed. -/
theorem updateRegion_apply {id : RegionId} (within : id.index < construction.regions.length)
    (change : Region → Region) : updateRegion id change construction =
      ⟨.ok ((), { construction with regions := construction.regions.modify id.index change }),
        []⟩ := by
  show ((if id.index < construction.regions.length then _ else _ : Construct Unit) construction) = _
  rw [if_pos within]
  rfl

/-- The region that was opened last gets what is known of a catch clause. -/
theorem updateRegion_opening {head : RegionHead} {info : CatchInfo} :
    updateRegion construction.nextRegion (fun region ↦ { region with catchInfo := some info })
        (construction.opening head) =
      ⟨.ok ((), construction.opening { head with catchInfo := some info }), []⟩ := by
  have place : construction.nextRegion.index =
      (Region.adopt construction.opened.head? [construction.nextRegion]
        construction.regions).length := Region.length_adopt.symm
  rw [updateRegion_apply]
  · rw [Construction.opening, Region.modify_between place]
    rfl
  · rw [Construction.opening, List.length_append, ← place]
    exact Nat.lt_succ_self _

end Construct

namespace Code

/-- Events stand for nothing but themselves. -/
theorem notes_spec (reported : List Event) : (notes reported).statements = [] ∧
    (∀ next, (notes reported).outermost next = []) ∧
    (∀ offset next parent, (notes reported).regions offset next parent = []) ∧
    (∀ layout, (notes reported).lay layout = .ok layout) ∧
    (notes reported).events = reported := by
  induction reported with
  | nil => exact ⟨rfl, fun _ ↦ rfl, fun _ _ _ ↦ rfl, fun _ ↦ rfl, rfl⟩
  | cons event rest ih =>
    obtain ⟨statements, outermost, regions, lays, events⟩ := ih
    exact ⟨statements, fun next ↦ outermost _, fun offset next parent ↦ regions _ _ parent, lays,
      congrArg (event :: ·) events⟩

end Code

namespace Performs

variable {flow : Flow} {config : Config} {scopes : List StmtId} {construct : Construct Unit}
  {code handler : Code} {head : RegionHead} {ask : Construct ExitSet} {exits : ExitSet}
  {reported : List Event} {construction : Construction} {layout : Layout}

/-- Code is performed with the events that are reported behind it. -/
theorem append_notes
    (applies : ∀ construction layout, construction.Ready flow config scopes code →
      code.lay construction.layout = .ok layout → construct construction =
        ⟨.ok ((), construction.extend code layout), code.events ++ reported⟩) :
    Performs flow config scopes construct (code ++ .notes reported) := by
  intro construction layout ready laid
  obtain ⟨statements, outermost, regions, lays, events⟩ := Code.notes_spec reported
  obtain ⟨_, laid, same⟩ := Outcome.bind_eq_ok.mp laid
  rw [lays] at same
  cases same
  rw [applies construction layout ready.first_part laid]
  simp only [Construction.extend, Code.append_eq, Code.statements, Code.outermost, Code.regions,
    Code.events, statements, outermost, regions, events, List.append_nil]

/-- Where nothing is reported there is nothing to add to the code. -/
theorem of_no_notes (performs : Performs flow config scopes construct (code ++ .notes [])) :
    Performs flow config scopes construct code := by
  intro construction layout ready laid
  have laid' : (code ++ .notes []).lay construction.layout = .ok layout :=
    Outcome.bind_eq_ok.mpr ⟨layout, laid, rfl⟩
  have statements : code.statements = (code ++ .notes []).statements :=
    (List.append_nil _).symm
  have same : construction.extend (code ++ .notes []) layout = construction.extend code layout := by
    rw [Construction.extend, ← statements]
    show { construction with
      decisions := _
      layout
      regions := Region.adopt _ (_ ++ []) _ ++ (_ ++ []) } = _
    rw [List.append_nil, List.append_nil]
    rfl
  rw [performs construction layout (ready.of_statements statements) laid', same]
  exact congrArg (Logged.mk _) (List.append_nil _)

/-- A region that is opened, filled and closed is that of the code in it. -/
theorem close_opened (performs : Performs flow config scopes construct code)
    (ready : construction.Ready flow config scopes code)
    (laid : code.lay construction.layout = .ok layout)
    (answers : ∀ construction, ask construction = ⟨.ok (exits, construction), reported⟩) :
    (do
      construct
      let exits ← ask
      Construct.closeRegion construction.nextRegion exits : Construct Unit)
        (construction.opening head) =
      ⟨.ok ((), construction.extend (.region { head with exits } code) layout),
        code.events ++ reported⟩ := by
  rw [Construct.bind_of_eq (performs _ layout ready.opening laid),
    Construct.bind_of_eq (answers _), ← Construction.closing_extend_opening laid]
  exact congrArg (fun events ↦ Logged.mk _ (code.events ++ events)) (List.append_nil _)

/-- A region that is opened, filled, given its handler and closed is that of the code in it with the
handler behind. -/
theorem close_handled {handle : Construct Unit}
    (performs : Performs flow config scopes construct code)
    (performs' : Performs flow config scopes handle handler)
    (ready : construction.Ready flow config scopes (code ++ handler))
    (laid : (code ++ handler).lay construction.layout = .ok layout)
    (answers : ∀ construction, ask construction = ⟨.ok (exits, construction), reported⟩) :
    (do
      construct
      Flow.layOutHandler construction.nextRegion handle
      let exits ← ask
      Construct.closeRegion construction.nextRegion exits : Construct Unit)
        (construction.opening head) =
      ⟨.ok ((), construction.extend (.handled { head with exits } code handler) layout),
        code.events ++ handler.events ++ reported⟩ := by
  have opened : (construction.opening head).Ready flow config scopes (code ++ handler) :=
    ready.opening
  obtain ⟨middle, laid, laid'⟩ := Outcome.bind_eq_ok.mp laid
  have within : construction.nextRegion.index <
      ((construction.opening head).extend (code ++ handler) layout).regions.length := by
    rw [Construction.extend_opening, List.length_append, Region.length_adopt]
    exact Nat.lt_add_of_pos_right (Nat.succ_pos _)
  have handles : Flow.layOutHandler construction.nextRegion handle
      ((construction.opening head).extend code middle) =
        ⟨.ok ((), { (construction.opening head).extend (code ++ handler) layout with
          regions := ((construction.opening head).extend (code ++ handler) layout).regions.modify
            construction.nextRegion.index fun region ↦
              { region with handler := some (.ofLength middle.offset
                (layout.offset - middle.offset)) } }), handler.events⟩ := by
    have inner := performs' _ layout opened.second_part laid'
    rw [Construction.extend_extend opened.within laid] at inner
    show ((do
      handle
      let stop := (← get).layout.offset
      Construct.updateRegion construction.nextRegion fun region ↦
        { region with handler := some (.ofLength middle.offset (stop - middle.offset)) } :
          Construct Unit) ((construction.opening head).extend code middle)) = _
    rw [Construct.bind_of_eq inner]
    show (⟨(Construct.updateRegion _ _ _).result, _ ++ (Construct.updateRegion _ _ _).events⟩ :
      Logged _) = _
    rw [Construct.updateRegion_apply within]
    exact congrArg (Logged.mk _) (List.append_nil _)
  rw [Construct.bind_of_eq (performs _ middle opened.first_part laid),
    Construct.bind_of_eq handles, Construct.bind_of_eq (answers _),
    ← Construction.closing_handled laid laid']
  refine congrArg (Logged.mk _) ?_
  rw [List.append_assoc]
  exact congrArg (fun events ↦ code.events ++ (handler.events ++ events)) (List.append_nil _)

/-- What is asked of the flow about statements of the body has an answer. -/
theorem analyze_apply {query : ExitQuery} (tree : flow.body.IsTree)
    (named : ∀ stmt ∈ query.named, flow.body.has stmt = true) (construction : Construction) :
    (liftM (flow.analyze query) : Construct ExitSet) construction =
      ⟨.ok (flow.exits query, construction), flow.exitEvents query⟩ := by
  show (flow.analyze query >>= fun exits ↦ pure (exits, construction)) = _
  rw [Flow.analyze_of_named tree named]
  exact congrArg (Logged.mk _) (List.append_nil _)

variable {kind : RegionKind} {origin : RegionOrigin} {stmt : StmtId}

/-- A region around code. -/
theorem region (performs : Performs flow config scopes construct code)
    (answers : ∀ construction, ask construction = ⟨.ok (exits, construction), reported⟩) :
    Performs flow config scopes
      (do
        let id ← Construct.openRegion kind origin stmt
        construct
        let exits ← ask
        Construct.closeRegion id exits)
      (.region ⟨kind, origin, stmt, none, exits⟩ code ++ .notes reported) := by
  refine append_notes fun construction layout ready laid ↦ ?_
  exact performs.close_opened (ready.of_statements rfl) laid answers

/-- A region around code, of which a catch clause is known. -/
theorem clauseRegion {info : CatchInfo} (performs : Performs flow config scopes construct code)
    (answers : ∀ construction, ask construction = ⟨.ok (exits, construction), reported⟩) :
    Performs flow config scopes
      (do
        let id ← Construct.openRegion kind origin stmt
        Construct.updateRegion id fun region ↦ { region with catchInfo := some info }
        construct
        let exits ← ask
        Construct.closeRegion id exits)
      (.region ⟨kind, origin, stmt, some info, exits⟩ code ++ .notes reported) := by
  refine append_notes fun construction layout ready laid ↦ ?_
  rw [Construct.openRegion_bind, Construct.bind_of_eq Construct.updateRegion_opening]
  exact performs.close_opened (ready.of_statements rfl) laid answers

/-- A region around code and the handler behind it. -/
theorem handled {handle : Construct Unit} (performs : Performs flow config scopes construct code)
    (performs' : Performs flow config scopes handle handler)
    (answers : ∀ construction, ask construction = ⟨.ok (exits, construction), reported⟩) :
    Performs flow config scopes
      (do
        let id ← Construct.openRegion kind origin stmt
        construct
        Flow.layOutHandler id handle
        let exits ← ask
        Construct.closeRegion id exits)
      (.handled ⟨kind, origin, stmt, none, exits⟩ code handler ++ .notes reported) := by
  refine append_notes fun construction layout ready laid ↦ ?_
  exact performs.close_handled performs' (ready.of_statements rfl) laid answers

end Performs
end ProtectedRegions
