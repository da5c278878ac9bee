import Firmware.Proofs.Builtin.Order
import Firmware.Proofs.Code.Mentions
import Firmware.Proofs.Generator.Sequence
import Firmware.Proofs.Schedule.Turns
/-!
Emission of the hub and the sensors.  A sensor waits for nothing but the hub, which has
been emitted before it, so every routine ends in its turn.
-/

namespace Firmware

namespace Builtin

variable {inst : Instance} {own : Local} {shared : Shared} {statement : Statement}

/-- The call that attaches an instance to its parent, if it has one. -/
def parentCalls (inst : Instance) : List Statement :=
  (inst.config.slotName? parentField).toList.map fun parent =>
    Role.call inst "set_parent" [.variable parent true]

/-- What the routine of an instance adds to the code. -/
def routinePieces (inst : Instance) : List Piece :=
  [.header header, .global (.ofIdentifier inst.id),
      .statement (.assignment inst.id.name (.new inst.id.type []))]
    ++ (parentCalls inst).map .statement

/-- What the roles of an instance add after its routine. -/
def rolePieces (inst : Instance) : List Piece :=
  inst.declaration.capabilities.flatMap (Capability.pieces inst)

def pieces (inst : Instance) : List Piece := routinePieces inst ++ rolePieces inst

/-- The statements that follow the creation of an instance's object. -/
def laterStatements (inst : Instance) : List Statement :=
  parentCalls inst ++ (rolePieces inst).filterMap Piece.statement?

/-- The statements of an instance: the creation of its object, and then all others. -/
def statementsOf (inst : Instance) : List Statement :=
  .assignment inst.id.name (.new inst.id.type []) :: laterStatements inst

theorem statements_pieces (inst : Instance) :
    (pieces inst).filterMap Piece.statement? = statementsOf inst := by
  simp [pieces, routinePieces, statementsOf, laterStatements, List.filterMap_cons,
    Piece.statement?, Function.comp_def]

theorem statements_ofPieces (done : List Instance) :
    (Code.ofPieces (done.flatMap pieces)).statements = done.flatMap statementsOf := by
  simp only [Code.ofPieces, List.filterMap_flatMap, statements_pieces]

/-- The roles of an instance: everything is schedulable, and sensors are measurable. -/
theorem capabilities_cases (h : IsHub inst ∨ IsSensor inst) :
    inst.declaration.capabilities = [.schedulable] ∨
      inst.declaration.capabilities = [.measurable, .schedulable] :=
  h.imp (fun hhub => congrArg Declaration.capabilities hhub.declaration)
    fun hsensor => congrArg Declaration.capabilities hsensor.declaration

/-- An instance declares one variable, its own, and registers one object. -/
theorem globals_objects_pieces (h : IsHub inst ∨ IsSensor inst) :
    (pieces inst).filterMap Piece.global? = [Global.ofIdentifier inst.id] ∧
      (pieces inst).filterMap Piece.object? = [inst.id.name] := by
  rcases capabilities_cases h with hroles | hroles <;>
    simp [pieces, routinePieces, rolePieces, hroles, Capability.pieces, List.filterMap_cons,
      Piece.global?, Piece.object?, Function.comp_def]

/-- What follows the creation mentions the instance and its parent only. -/
theorem uses_of_mem_laterStatements (hmem : statement ∈ laterStatements inst) :
    statement.Uses (inst.id.name :: (inst.config.slotName? parentField).toList) := by
  rcases List.mem_append.mp hmem with hcall | hrole
  · obtain ⟨parent, hparent, rfl⟩ := List.mem_map.mp hcall
    rw [Option.mem_toList] at hparent
    rw [Option.mem_def.mp hparent]
    exact Role.uses_call inst "set_parent" [.variable parent true]
  · obtain ⟨piece, hpiece, hstatement⟩ := List.mem_filterMap.mp hrole
    cases piece with
    | statement added =>
        obtain rfl := Option.some.inj hstatement
        obtain ⟨capability, _, hadded⟩ := List.mem_flatMap.mp hpiece
        exact (Capability.uses_of_mem_pieces hadded).mono (by simp)
    | _ => simp [Piece.statement?] at hstatement

theorem run_sensorRoutine (hid : own.id = inst.id)
    (hparent : ∀ parent, inst.config.slotName? parentField = some parent →
      Table.get? shared.published parent = some ⟨parent, hubType, true⟩) :
    ∃ own' shared', Step.run own shared (sensorRoutine inst.id inst.config) = .ended own' shared' ∧
      own'.declared = own.declared ++ [inst.id] ∧ shared'.published = shared.published ∧
      shared'.code = (routinePieces inst).foldl Code.put shared.code := by
  cases hname : inst.config.slotName? parentField with
  | none =>
      simp only [sensorRoutine, hname, List.append_nil, Step.run, Action.perform,
        Local.identifier, Term.expressions, bind, Except.bind, hid]
      refine ⟨_, _, rfl, rfl, rfl, ?_⟩
      simp [routinePieces, parentCalls, hname, Code.put, Code.declare]
  | some parent =>
      have hvisible := hparent parent hname
      simp only [sensorRoutine, hname, List.cons_append, List.nil_append, Step.run, Action.perform,
        Local.identifier, Term.expressions, Term.expression, bind, Except.bind, hid,
        Local.record_published, hvisible, Step.receive, Local.bindTo, Table.get?_insert_self,
        Except.map]
      refine ⟨_, _, rfl, rfl, rfl, ?_⟩
      simp [routinePieces, parentCalls, hname, Code.put, Code.declare, Role.call,
        Expression.ofIdentifier]

/-- What has been emitted: the code is made of the pieces of the instances so far, and
their variables are visible, and no others. -/
structure Emitted (done : List Instance) (shared : Shared) : Prop where
  code : shared.code = .ofPieces (done.flatMap pieces)
  visible : ∀ inst ∈ done, Table.get? shared.published inst.id.name = some inst.id
  listed : ∀ name, Table.contains shared.published name = true → name ∈ done.map (·.id.name)

theorem emitted_start (names : NameTable) (tasks : List Task) :
    Emitted [] (Schedule.start names tasks).shared where
  code := rfl
  visible := by simp
  listed name h := by simp [Schedule.start, Table.contains] at h

theorem globals_objects_of_pieces {done : List Instance}
    (hcases : ∀ inst ∈ done, IsHub inst ∨ IsSensor inst) (hnames : (done.map (·.id.name)).Nodup) :
    (Code.ofPieces (done.flatMap pieces)).globals = done.map (Global.ofIdentifier ·.id) ∧
      (Code.ofPieces (done.flatMap pieces)).runtimeObjects = done.map (·.id.name) := by
  have hglobals : (done.flatMap pieces).filterMap Piece.global? =
      done.map (Global.ofIdentifier ·.id) := by
    rw [List.filterMap_flatMap, ← List.flatMap_pure_eq_map]
    exact List.flatMap_congr fun inst hmem => (globals_objects_pieces (hcases inst hmem)).1
  have hobjects : (done.flatMap pieces).filterMap Piece.object? = done.map (·.id.name) := by
    rw [List.filterMap_flatMap, ← List.flatMap_pure_eq_map]
    exact List.flatMap_congr fun inst hmem => (globals_objects_pieces (hcases inst hmem)).2
  refine ⟨hglobals, ?_⟩
  simp only [Code.ofPieces, hobjects]
  exact OrderedSet.ofList_eq_self hnames

section Turn

variable {done : List Instance} {task : Task} (h : Emitted done shared)
  (hcases : ∀ inst ∈ done ++ [task.inst], IsHub inst ∨ IsSensor inst)
  (hnames : ((done ++ [task.inst]).map (·.id.name)).Nodup)

include h hcases hnames

/-- What follows the end of a routine: the roles of the instance are emitted, and its
variable becomes visible. -/
theorem Emitted.concluded {ended : Shared} (hdeclared : own.declared = [task.inst.id])
    (hpublished : ended.published = shared.published)
    (hcode : ended.code = (routinePieces task.inst).foldl Code.put shared.code) :
    ∃ final, Schedule.conclude task own ended = .ok final ∧
      Emitted (done ++ [task.inst]) final := by
  have hended : ended.code = .ofPieces (done.flatMap pieces ++ routinePieces task.inst) := by
    rw [hcode, h.code, ← Code.foldl_put_empty, ← List.foldl_append, Code.foldl_put_empty]
  rw [List.map_append, List.nodup_append] at hnames
  obtain ⟨hdone, _, hnew⟩ := hnames
  have hfresh : task.inst.id.name ∉ done.map (·.id.name) := fun hmem =>
    hnew _ hmem _ (List.mem_singleton.mpr rfl) rfl
  have hobjects : ended.code.runtimeObjects = done.map (·.id.name) := by
    have hbefore := (globals_objects_of_pieces
      (fun inst hmem => hcases inst (List.mem_append_left _ hmem)) hdone).2
    simpa [hended, Code.ofPieces, routinePieces, List.filterMap_cons, Piece.object?,
      Function.comp_def] using hbefore
  have hroles : task.inst.declaration.capabilities.Nodup := by
    rcases capabilities_cases (hcases task.inst (by simp)) with hroles | hroles <;>
      simp [hroles]
  obtain ⟨code, hemitted, _⟩ := Capability.exists_emitAll hroles (hobjects ▸ hfresh)
  have hunseen : Table.contains ended.published task.inst.id.name = false := by
    rw [← Bool.not_eq_true, hpublished]
    exact fun hseen => hfresh (h.listed _ hseen)
  refine ⟨_, Schedule.conclude_eq_ok_iff.mpr ⟨code, hemitted, rfl⟩, ?_⟩
  rw [hdeclared, List.singleton_append]
  refine ⟨?_, fun inst hmem => ?_, fun name hname => ?_⟩
  · rw [Shared.foldl_publish_code, Capability.emitAll_eq_ok hemitted, hended,
      ← Code.foldl_put_empty, ← Code.foldl_put_empty, ← List.foldl_append]
    simp [pieces, rolePieces]
  · rcases List.mem_append.mp hmem with hbefore | hlast
    · apply Shared.get?_foldl_publish_of_some
      rw [hpublished]
      exact h.visible inst hbefore
    · obtain rfl := List.mem_singleton.mp hlast
      exact Shared.get?_publish_of_some (Shared.get?_publish_self hunseen)
  · rw [Shared.contains_foldl_publish, hpublished] at hname
    rw [List.map_append]
    refine List.mem_append.mpr (hname.imp (h.listed name) fun hmem => ?_)
    simpa using hmem

/-- An instance whose turn comes is emitted at once, as its parent is visible. -/
theorem Emitted.turn {position : Nat}
    (hscript : task.progress = .unstarted (sensorRoutine task.inst.id task.inst.config))
    (hparent : ∀ parent, task.inst.config.slotName? parentField = some parent →
      ∃ hub ∈ done, hub.id = ⟨parent, hubType, true⟩) :
    ∃ own ended final, task.poll? position shared = some (.ended own ended) ∧
      Schedule.conclude task own ended = .ok final ∧ Emitted (done ++ [task.inst]) final := by
  have hid : (task.initialLocal position).id = task.inst.id := rfl
  have hvisible : ∀ parent, task.inst.config.slotName? parentField = some parent →
      Table.get? ((task.initialLocal position).record .started shared).published parent =
        some ⟨parent, hubType, true⟩ := by
    intro parent hname
    obtain ⟨hub, hmem, hvariable⟩ := hparent parent hname
    simpa [hvariable] using h.visible hub hmem
  obtain ⟨own, ended, hrun, hdeclared, hpublished, hcode⟩ := run_sensorRoutine hid hvisible
  rw [Local.record_published] at hpublished
  rw [Local.record_code] at hcode
  obtain ⟨final, hconcluded, hemitted⟩ := h.concluded hcases hnames hdeclared hpublished hcode
  exact ⟨own, ended, final, by simp only [Task.poll?, hscript, hrun], hconcluded, hemitted⟩

end Turn

section Plan

variable {generator : Generator} {json : Json} {document : Document} {names : NameTable}
  {ordered : Ordered} {done rest : List Instance} {parent : String}
  (hcomponents : generator.components = registry)
  (hdocument : Document.ofJson json = .ok document)
  (hplan : generator.plan document = .ok (names, ordered))

include hcomponents hdocument hplan

/-- Every planned instance runs the routine of a sensor: that of the hub is the same for an
instance without a parent. -/
theorem exists_sensorRoutine (hmem : inst ∈ ordered.instances) :
    ∃ component, generator.components.find inst.kind = .ok component ∧
      component.routine inst.id inst.config = sensorRoutine inst.id inst.config := by
  rw [hcomponents]
  rcases isHub_or_isSensor hcomponents hplan hmem with hhub | hsensor
  · refine ⟨hubComponent, by rw [kind_of_isHub hhub]; rfl, ?_⟩
    have hnone : inst.config.slotName? parentField = none := by
      refine Option.eq_none_iff_forall_ne_some.mpr fun parent hname => ?_
      have href := mem_references_of_parent hcomponents hdocument hplan hmem hname
      simp [references_of_isHub hcomponents hdocument hplan hmem hhub] at href
    simp [hubComponent, hubRoutine, sensorRoutine, hnone]
  · exact ⟨sensorComponent, by rw [kind_of_isSensor hsensor]; rfl, rfl⟩

theorem pairwise_isHub : ordered.instances.Pairwise fun a b => IsHub b → IsHub a := by
  obtain ⟨hubs, sensors, hsplit, harranged⟩ := exists_arranged hcomponents hdocument hplan
  have hsensor : ∀ inst ∈ sensors, ¬ IsHub inst := fun inst hmem hhub => by
    have hkind := hasHubKind_of_isSensor (harranged.sensor inst hmem)
    simp [hasHubKind_of_isHub hhub] at hkind
  rw [hsplit, List.pairwise_append]
  refine ⟨?_, ?_, fun a ha _ _ _ => harranged.hub a ha⟩
  · exact List.pairwise_of_forall_mem_list fun a ha _ _ _ => harranged.hub a ha
  · exact List.pairwise_of_forall_mem_list fun _ _ b hb hhub => absurd hhub (hsensor b hb)

theorem exists_parent (hsplit : ordered.instances = done ++ inst :: rest)
    (hparent : inst.config.slotName? parentField = some parent) :
    ∃ hub ∈ done, IsHub hub ∧ hub.id.name = parent := by
  have hmem : inst ∈ ordered.instances := by simp [hsplit]
  have href := mem_references_of_parent hcomponents hdocument hplan hmem hparent
  obtain ⟨hub, hpresent, hhub, hname⟩ :=
    exists_isHub_of_reference hcomponents hdocument hplan hmem href
  have hnot : ¬ IsHub inst := fun hself => by
    simp [references_of_isHub hcomponents hdocument hplan hmem hself] at href
  have hpairwise := pairwise_isHub hcomponents hdocument hplan
  rw [hsplit] at hpresent hpairwise
  obtain ⟨_, hlater, _⟩ := List.pairwise_append.mp hpairwise
  rcases List.mem_append.mp hpresent with hbefore | hafter
  · exact ⟨hub, hbefore, hhub, hname⟩
  · rcases List.mem_cons.mp hafter with rfl | hrest
    · exact absurd hhub hnot
    · exact absurd ((List.pairwise_cons.mp hlater).1 hub hrest hhub) hnot

/-- The task of a planned instance is to run the routine of a sensor. -/
theorem progress_of_tasksOf {tasks : List Task} {task : Task} {position : Nat}
    (htasks : Schedule.tasksOf generator.components ordered = .ok tasks)
    (hpresent : tasks[position]? = some task) :
    task.progress = .unstarted (sensorRoutine task.inst.id task.inst.config) := by
  have hat := Schedule.tasksOf_getElem? htasks position
  rw [hpresent, Option.map_some] at hat
  obtain ⟨inst, hinst, htask⟩ := Option.map_eq_some_iff.mp hat
  obtain ⟨component, hfound, rfl⟩ := Schedule.taskOf_eq_ok htask
  obtain ⟨_, hsame, hroutine⟩ :=
    exists_sensorRoutine hcomponents hdocument hplan (List.mem_of_getElem? hinst)
  obtain rfl := Except.ok.inj (hfound.symm.trans hsame)
  simp only [hroutine]

/-- The instance whose turn it is is emitted after those before it. -/
theorem Emitted.next {tasks : List Task} {task : Task} {position : Nat}
    (h : Emitted (ordered.instances.take position) shared)
    (htasks : Schedule.tasksOf generator.components ordered = .ok tasks)
    (hpresent : tasks[position]? = some task) :
    ∃ own ended final, task.poll? position shared = some (.ended own ended) ∧
      Schedule.conclude task own ended = .ok final ∧
        Emitted (ordered.instances.take (position + 1)) final := by
  have hinst : ordered.instances[position]? = some task.inst := by
    rw [(Schedule.assigns_tasksOf htasks).getElem?, hpresent, Option.map_some]
  obtain ⟨hbound, hget⟩ := List.getElem?_eq_some_iff.mp hinst
  have hnext : ordered.instances.take (position + 1) =
      ordered.instances.take position ++ [task.inst] := by
    rw [← hget, List.take_append_getElem hbound]
  have hsplit : ordered.instances =
      ordered.instances.take position ++ task.inst :: ordered.instances.drop (position + 1) := by
    rw [← hget, ← List.drop_eq_getElem_cons hbound, List.take_append_drop]
  rw [hnext]
  refine h.turn ?_ ?_ (progress_of_tasksOf hcomponents hdocument hplan htasks hpresent) ?_
  · rw [← hnext]
    exact fun inst hmem => isHub_or_isSensor hcomponents hplan (List.mem_of_mem_take hmem)
  · rw [← hnext, List.map_take]
    exact (nodup_names hcomponents hdocument hplan).sublist (List.take_sublist ..)
  · intro parent hparent
    obtain ⟨hub, hmem, hhub, rfl⟩ := exists_parent hcomponents hdocument hplan hsplit hparent
    exact ⟨hub, hmem, hhub.id_eq⟩

/-- The plan of a document is emitted, all instances one after another. -/
theorem exists_emitted :
    ∃ final, Emitted ordered.instances final ∧
      (generator.generateJson json).result = .ok final.code := by
  obtain ⟨_, _, _, _, hordered⟩ := Generator.plan_eq_ok hplan
  obtain ⟨tasks, htasks⟩ : ∃ tasks, Schedule.tasksOf generator.components ordered = .ok tasks := by
    refine exists_mapM_eq_ok fun item hitem => ?_
    obtain ⟨component, hfound, _⟩ := exists_sensorRoutine hcomponents hdocument hplan
      (List.fst_mem_of_mem_zipIdx hitem)
    exact ⟨_, by simp only [Schedule.taskOf, hfound]; rfl⟩
  have hassigns := Schedule.assigns_tasksOf htasks
  obtain ⟨final, hemitted, hresult⟩ := Schedule.run_in_turns
    (fun count shared => Emitted (ordered.instances.take count) shared) hassigns.fresh
    (hassigns.downward hordered) (emitted_start names tasks)
    fun count task shared hpresent hbefore =>
      hbefore.next hcomponents hdocument hplan htasks hpresent
  refine ⟨final, ?_, ?_⟩
  · have hlength : tasks.length = ordered.instances.length := by
      rw [← hassigns.instances, List.length_map]
    rwa [hlength, List.take_length] at hemitted
  · rw [Generator.generateJson_eq_emit hdocument hplan, Schedule.emit, htasks]
    exact hresult

end Plan

end Builtin

end Firmware
