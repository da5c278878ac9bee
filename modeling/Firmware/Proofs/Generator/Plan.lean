import Firmware.Generator
import Firmware.Proofs.Graph.Edges
import Firmware.Proofs.NameTable.Resolution
import Firmware.Proofs.Schema.Composed
import Firmware.Proofs.Validation.Fields
import Firmware.Proofs.Value.Slots
/-!
The stages before emission.  When the plan of a document succeeds, every instance
comes from a node that the schema of a registered component accepts, and differs
from what validation made of it only in the names of its identifiers.  The variable
of an instance is always one that its configuration declares.
-/

namespace Firmware

/-- Registries made by adding components to an empty one, each with a composed
schema. -/
inductive Components.Registered : Components → Prop
  | empty : Registered .empty
  | add {components extended : Components} {component : Component}
      (registered : Registered components)
      (composed : component.declaration.schema.Composed)
      (added : components.add component = .ok extended) : Registered extended

theorem Components.find_eq_ok_iff {components : Components} {kind : String}
    {component : Component} :
    components.find kind = .ok component ↔
      Table.get? components.byKind kind = some component := by
  unfold find
  cases Table.get? components.byKind kind <;> simp

theorem Components.add_eq_ok {components extended : Components} {component : Component}
    (h : components.add component = .ok extended) :
    component.declaration.schema.idField?.isSome = true ∧
      extended.byKind = Table.insert components.byKind component.declaration.kind component := by
  unfold add at h
  simp only at h
  split at h
  · simp at h
  · next hfield =>
      split at h
      · simp at h
      · obtain rfl := Except.ok.inj h
        exact ⟨by simpa [← Option.isSome_iff_ne_none] using hfield, rfl⟩

theorem Components.Registered.of_mem {components : Components} {entry : String × Component}
    (h : components.Registered) (hmem : entry ∈ components.byKind) :
    entry.2.declaration.schema.Composed ∧ entry.2.declaration.kind = entry.1 ∧
      entry.2.declaration.schema.idField?.isSome = true := by
  induction h with
  | empty => simp [Components.empty] at hmem
  | add _ hcomposed hadded ih =>
      obtain ⟨hfield, hbyKind⟩ := Components.add_eq_ok hadded
      rw [hbyKind] at hmem
      rcases Table.mem_insert hmem with rfl | hold
      · exact ⟨hcomposed, rfl, hfield⟩
      · exact ih hold

theorem Components.Registered.composed {components : Components} {kind : String}
    {component : Component} (h : components.Registered)
    (hfound : components.find kind = .ok component) : component.declaration.schema.Composed :=
  (h.of_mem (Table.mem_of_get?_eq (Components.find_eq_ok_iff.mp hfound))).1

theorem Components.Registered.kind_eq {components : Components} {kind : String}
    {component : Component} (h : components.Registered)
    (hfound : components.find kind = .ok component) : component.declaration.kind = kind :=
  (h.of_mem (Table.mem_of_get?_eq (Components.find_eq_ok_iff.mp hfound))).2.1

theorem Components.Registered.exists_idField {components : Components} {kind : String}
    {component : Component} (h : components.Registered)
    (hfound : components.find kind = .ok component) :
    ∃ declared, component.declaration.schema.idField? = some declared :=
  Option.isSome_iff_exists.mp
    (h.of_mem (Table.mem_of_get?_eq (Components.find_eq_ok_iff.mp hfound))).2.2

namespace Generator

variable {generator : Generator} {document : Document} {names table : NameTable}
  {ordered : Ordered} {candidate : Candidate}
  {instances : List Instance} {inst : Instance}

/-- A plan goes through all stages. -/
theorem plan_eq_ok (h : generator.plan document = .ok (names, ordered)) :
    ∃ valid instances,
      Validation.gather (candidates generator.components 0 document.kinds) = .ok valid ∧
      resolve generator.initialNames valid = .ok (names, instances) ∧
      Ordered.ofInstances instances = .ok ordered := by
  unfold plan at h
  simp only [bind, Except.bind] at h
  split at h
  · simp at h
  · next valid hvalid =>
      split at h
      · simp at h
      · next resolved hresolved =>
          obtain ⟨names', instances⟩ := resolved
          split at h
          · simp at h
          · next ordered' hordered =>
              obtain ⟨rfl, rfl⟩ := Prod.mk.inj (Except.ok.inj h)
              exact ⟨valid, instances, Except.mapError_eq_ok_iff.mp hvalid,
                Except.mapError_eq_ok_iff.mp hresolved, Except.mapError_eq_ok_iff.mp hordered⟩

theorem stage_of_plan {failure : Failure} (h : generator.plan document = .error failure) :
    failure.stage = .validation ∨ failure.stage = .identifiers ∨ failure.stage = .ordering := by
  unfold plan at h
  simp only [bind, Except.bind] at h
  split at h
  · next hvalid =>
      obtain rfl := Except.error.inj h
      obtain ⟨_, _, rfl⟩ := Except.mapError_eq_error hvalid
      exact .inl rfl
  · split at h
    · next hresolved =>
        obtain rfl := Except.error.inj h
        obtain ⟨_, _, rfl⟩ := Except.mapError_eq_error hresolved
        exact .inr (.inl rfl)
    · split at h
      · next hordered =>
          obtain rfl := Except.error.inj h
          obtain ⟨_, _, rfl⟩ := Except.mapError_eq_error hordered
          exact .inr (.inr rfl)
      · simp at h

/-- A run fails before emission, or emits a plan. -/
theorem fails_or_plans (generator : Generator) (json : Json) :
    (∃ failure, (generator.generateJson json).result = .error failure ∧
        failure.stage ≠ .emission) ∨
      ∃ document names ordered, Document.ofJson json = .ok document ∧
        generator.plan document = .ok (names, ordered) := by
  cases hdocument : Document.ofJson json with
  | error problems =>
      refine .inl ⟨.ofProblems .parse problems, ?_, by simp [Failure.ofProblems]⟩
      simp only [generateJson, hdocument]
  | ok document =>
      cases hplan : generator.plan document with
      | error failure =>
          refine .inl ⟨failure, by simp only [generateJson, hdocument, generate, hplan], ?_⟩
          rcases stage_of_plan hplan with hstage | hstage | hstage <;> simp [hstage]
      | ok planned => exact .inr ⟨document, planned.1, planned.2, rfl, hplan⟩

def Candidate.named (table : NameTable) (candidate : Candidate) : Candidate :=
  { candidate with config := candidate.config.mapSlots table.fillSlot }

theorem zipWith_resolveDeclarations (names : NameTable) (valid : List Candidate) :
    List.zipWith (fun candidate config => { candidate with config }) valid
        (names.resolveDeclarations (valid.map (·.config))).nodes =
      valid.map (Candidate.named (names.resolveDeclarations (valid.map (·.config))).table) := by
  simp [NameTable.resolveDeclarations, List.zipWith_map_right, Candidate.named, List.zipWith_self]

/-- The instances are those of the candidates with their identifiers named. -/
theorem resolve_eq_ok {valid : List Candidate} (h : resolve names valid = .ok (table, instances)) :
    (names.resolveDeclarations (valid.map (·.config))).problems = [] ∧
      table = (names.resolveDeclarations (valid.map (·.config))).table ∧
      (valid.map (Candidate.named table)).map instanceOf = instances.map .ok := by
  unfold resolve at h
  simp only at h
  split at h
  · simp at h
  · next hproblems =>
      split at h
      · next gathered hgathered =>
          obtain ⟨_, hpair⟩ := Problem.settle_eq_ok_iff.mp h
          obtain ⟨rfl, rfl⟩ := Prod.mk.inj hpair
          refine ⟨by simpa using hproblems, rfl, ?_⟩
          rw [← zipWith_resolveDeclarations]
          exact Validation.gather_eq_ok_iff.mp hgathered
      · simp at h

theorem instanceOf_eq_ok (h : instanceOf candidate = .ok inst) :
    ∃ field type name, candidate.declaration.schema.idField? = some (field, type) ∧
      candidate.config.slotName? field = some name ∧
      inst = ⟨candidate.index, candidate.declaration, candidate.config, ⟨name, type, true⟩⟩ := by
  unfold instanceOf Instance.configure at h
  cases hfield : candidate.declaration.schema.idField? with
  | none => simp [hfield] at h
  | some found =>
      obtain ⟨field, type⟩ := found
      simp only [hfield] at h
      cases hname : candidate.config.slotName? field with
      | none => simp [hname] at h
      | some name =>
          simp only [hname, Except.ok.injEq] at h
          exact ⟨field, type, name, rfl, hname, h.symm⟩

/-- A candidate is what the schema of its component makes of a node of the
document. -/
structure Validates (components : Components) (document : Document)
    (candidate : Candidate) (kind : String) (nodes : List Node) (raw : Node)
    (component : Component) : Prop where
  listed : (kind, nodes) ∈ document.kinds
  among : raw ∈ nodes
  found : components.find kind = .ok component
  declaration : candidate.declaration = component.declaration
  valid : component.declaration.schema.validate raw.path raw = .ok candidate.config

/-- The valid candidates of a kind stand for its nodes, one by one. -/
theorem candidatesOf_eq_ok {components : Components} {start : Nat} {kind : String}
    {nodes : List Node} {valid : List Candidate}
    (h : candidatesOf components start kind nodes = valid.map .ok) :
    ∃ component, components.find kind = .ok component ∧ valid.length = nodes.length ∧
      ∀ (position : Nat) (candidate : Candidate), valid[position]? = some candidate →
        ∃ raw config, nodes[position]? = some raw ∧
          component.declaration.schema.validate raw.path raw = .ok config ∧
          candidate = ⟨start + position, component.declaration, config⟩ := by
  unfold candidatesOf at h
  cases hfound : components.find kind with
  | error problem => cases valid <;> simp [hfound] at h
  | ok component =>
      simp only [hfound] at h
      refine ⟨component, rfl, by simpa using (congrArg List.length h).symm, ?_⟩
      intro position candidate hcandidate
      have hposition := congrArg (·[position]?) h
      simp only [List.getElem?_map, List.getElem?_mapIdx, hcandidate, Option.map_some]
        at hposition
      obtain ⟨raw, hraw, hvalid⟩ := Option.map_eq_some_iff.mp hposition
      obtain ⟨config, hconfig, rfl⟩ := Except.map_eq_ok hvalid
      exact ⟨raw, config, hraw, hconfig, rfl⟩

theorem paths_of_candidatesOf {components : Components} {start : Nat} {kind : String}
    {nodes : List Node} {valid : List Candidate}
    (h : candidatesOf components start kind nodes = valid.map .ok) :
    valid.map (·.config.path) = nodes.map (·.path) := by
  obtain ⟨component, _, hlength, hvalid⟩ := candidatesOf_eq_ok h
  refine List.ext_getElem (by simpa using hlength) fun position hbound hbound' => ?_
  rw [List.length_map] at hbound hbound'
  obtain ⟨raw, config, hraw, hconfig, hcandidate⟩ :=
    hvalid position _ (List.getElem?_eq_getElem hbound)
  rw [List.getElem?_eq_getElem hbound'] at hraw
  rw [List.getElem_map, List.getElem_map, hcandidate, Option.some.inj hraw,
    Schema.path_of_validate hconfig]

/-- Valid candidates are located where the nodes of the document are, in order. -/
theorem paths_of_candidates {components : Components} {start : Nat}
    {kinds : Table String (List Node)} {valid : List Candidate}
    (h : candidates components start kinds = valid.map .ok) :
    valid.map (·.config.path) = (kinds.flatMap (·.2)).map (·.path) := by
  induction kinds generalizing start valid with
  | nil =>
      obtain rfl := List.map_eq_nil_iff.mp h.symm
      rfl
  | cons entry rest ih =>
      rw [candidates] at h
      obtain ⟨first, others, rfl, hfirst, hothers⟩ := List.map_eq_append_iff.mp h.symm
      rw [List.map_append, List.flatMap_cons, List.map_append, ih hothers.symm,
        paths_of_candidatesOf hfirst.symm]

theorem mem_candidates {components : Components} {start : Nat}
    {kinds : Table String (List Node)}
    (h : .ok candidate ∈ candidates components start kinds) :
    ∃ kind nodes raw component,
      Validates components ⟨kinds⟩ candidate kind nodes raw component := by
  induction kinds generalizing start with
  | nil => simp [candidates] at h
  | cons entry rest ih =>
      obtain ⟨kind, nodes⟩ := entry
      rw [candidates] at h
      rcases List.mem_append.mp h with hfirst | hrest
      · unfold candidatesOf at hfirst
        cases hfound : components.find kind with
        | error problem => simp [hfound] at hfirst
        | ok component =>
            simp only [hfound, List.mem_mapIdx] at hfirst
            obtain ⟨offset, hbound, hcandidate⟩ := hfirst
            obtain ⟨config, hvalid, rfl⟩ := Except.map_eq_ok hcandidate
            exact ⟨kind, nodes, nodes[offset], component, List.mem_cons_self,
              List.getElem_mem hbound, hfound, rfl, hvalid⟩
      · obtain ⟨kind, nodes, raw, component, hvalidates⟩ := ih hrest
        exact ⟨kind, nodes, raw, component, .tail _ hvalidates.listed, hvalidates.among,
          hvalidates.found, hvalidates.declaration, hvalidates.valid⟩

theorem exists_validates {components : Components} {valid : List Candidate}
    (hvalid : Validation.gather (candidates components 0 document.kinds) = .ok valid)
    (hmem : candidate ∈ valid) : ∃ kind nodes raw component,
      Validates components document candidate kind nodes raw component := by
  apply mem_candidates
  rw [Validation.gather_eq_ok_iff.mp hvalid]
  exact List.mem_map_of_mem hmem

end Generator

theorem Schema.idField?_spec {schema : Schema} {name type : String}
    (h : schema.idField? = some (name, type)) :
    ∃ field base, (name, field) ∈ schema.fields ∧ field.kind = .declareId type base := by
  have hdeclared : ∀ {field : Field} {type : String}, field.kind.declaredType? = some type →
      ∃ base, field.kind = .declareId type base := by
    intro field type htype
    unfold Kind.declaredType? at htype
    split at htype
    · next base hkind => exact ⟨base, Option.some.inj htype ▸ hkind⟩
    · simp at htype
  unfold idField? at h
  split at h
  · next found hfound =>
      obtain ⟨rfl, rfl⟩ := Prod.mk.inj (Option.some.inj h)
      obtain ⟨field, hfield, htype⟩ := Option.bind_eq_some_iff.mp hfound
      obtain ⟨base, hkind⟩ := hdeclared htype
      exact ⟨field, base, Table.mem_of_get?_eq hfield, hkind⟩
  · obtain ⟨⟨found, field⟩, hmem, htype⟩ := List.exists_of_findSome?_eq_some h
    obtain ⟨_, hfieldtype, hpair⟩ := Option.map_eq_some_iff.mp htype
    obtain ⟨rfl, rfl⟩ := Prod.mk.inj hpair
    obtain ⟨base, hkind⟩ := hdeclared hfieldtype
    exact ⟨field, base, hmem, hkind⟩

/-- Where a schema declares an identifier, the validated value is a declaration of its
type. -/
theorem Schema.Sound.declares_of_validate {schema : Schema} {path : Path} {raw node : Node}
    {name type : String} {base : Option String} {field : Field} {value : Value}
    (h : schema.Sound) (hvalid : schema.validate path raw = .ok node)
    (hfield : (name, field) ∈ schema.fields) (hkind : field.kind = .declareId type base)
    (hentry : (name, value) ∈ node.entries) :
    ∃ slot, value = .identifier slot ∧ slot.declares = true ∧ slot.type = type := by
  obtain ⟨found, hfound, hresult⟩ := (mem_entries_of_validate hvalid).mp hentry
  obtain rfl := Option.some.inj ((h.field?_eq hfound).symm.trans (h.field?_eq hfield))
  rcases Field.result_cases hresult with ⟨_, _, hconvert⟩ | hdefault | ⟨_, _, hwaits, rfl⟩
  · rw [hkind] at hconvert
    exact Kind.convert_declareId_eq_ok hconvert
  · obtain ⟨_, hconvert⟩ := h.defaults _ hfield _ hdefault
    rw [hkind] at hconvert
    exact Kind.convert_declareId_eq_ok hconvert
  · obtain ⟨rfl, _⟩ := Kind.declareId.inj (hkind.symm.trans hwaits)
    exact ⟨_, rfl, rfl, rfl⟩

namespace Generator

variable {generator : Generator} {document : Document} {names : NameTable}
  {ordered : Ordered} {valid : List Candidate} {instances : List Instance}

/-- Every instance that is resolved is made of a candidate, whose identifiers have the names
of the table; its variable is named by a field of its configuration. -/
theorem exists_candidate_of_resolve {inst : Instance}
    (hvalid : Validation.gather (candidates generator.components 0 document.kinds) = .ok valid)
    (h : resolve generator.initialNames valid = .ok (names, instances)) (hmem : inst ∈ instances) :
    ∃ candidate kind nodes raw component key type name,
      Validates generator.components document candidate kind nodes raw component ∧
        component.declaration.schema.idField? = some (key, type) ∧
        (candidate.config.mapSlots names.fillSlot).slotName? key = some name ∧
        inst = ⟨candidate.index, component.declaration,
          candidate.config.mapSlots names.fillSlot, ⟨name, type, true⟩⟩ := by
  obtain ⟨_, _, hinstances⟩ := resolve_eq_ok h
  have hok : Except.ok inst ∈ instances.map (Except.ok (ε := List Problem)) :=
    List.mem_map_of_mem hmem
  rw [← hinstances, List.map_map] at hok
  obtain ⟨candidate, hcandidate, hinst⟩ := List.mem_map.mp hok
  obtain ⟨key, type, name, hid, hname, rfl⟩ := instanceOf_eq_ok hinst
  obtain ⟨kind, nodes, raw, component, hvalidates⟩ := exists_validates hvalid hcandidate
  rw [Candidate.named, hvalidates.declaration] at hid
  refine ⟨candidate, kind, nodes, raw, component, key, type, name, hvalidates, hid, hname, ?_⟩
  rw [Candidate.named, hvalidates.declaration]

theorem exists_candidate_of_plan {inst : Instance}
    (h : generator.plan document = .ok (names, ordered)) (hmem : inst ∈ ordered.instances) :
    ∃ candidate kind nodes raw component key type name,
      Validates generator.components document candidate kind nodes raw component ∧
        component.declaration.schema.idField? = some (key, type) ∧
        (candidate.config.mapSlots names.fillSlot).slotName? key = some name ∧
        inst = ⟨candidate.index, component.declaration,
          candidate.config.mapSlots names.fillSlot, ⟨name, type, true⟩⟩ := by
  obtain ⟨valid, instances, hvalid, hresolve, hordered⟩ := plan_eq_ok h
  apply exists_candidate_of_resolve hvalid hresolve
  exact (Ordered.instances_perm hordered).mem_iff.mp hmem

theorem name_mem_declarations_of_resolve (hregistered : generator.components.Registered)
    (hvalid : Validation.gather (candidates generator.components 0 document.kinds) = .ok valid)
    (h : resolve generator.initialNames valid = .ok (names, instances)) :
    ∀ inst ∈ instances, inst.id.name ∈ inst.config.declarations := by
  intro inst hmem
  obtain ⟨candidate, _, _, _, component, key, type, name, hvalidates, hid, hname, rfl⟩ :=
    exists_candidate_of_resolve hvalid h hmem
  have hsound := (hregistered.composed hvalidates.found).sound
  obtain ⟨field, base, hfield, hkind⟩ := Schema.idField?_spec hid
  obtain ⟨slot, hslot, hslotname⟩ := Option.bind_eq_some_iff.mp hname
  obtain ⟨value, hvalue, hsome⟩ := Option.bind_eq_some_iff.mp hslot
  -- The slot of the name was a declaration before its identifier was named.
  obtain ⟨original, horiginal, hmapped⟩ :=
    Option.map_eq_some_iff.mp ((Node.get?_mapSlots _ candidate.config key).symm.trans hvalue)
  obtain ⟨declared, rfl, hdeclares, _⟩ := hsound.declares_of_validate hvalidates.valid hfield
    hkind (Table.mem_of_get?_eq horiginal)
  rw [Value.mapSlots] at hmapped
  obtain rfl := hmapped
  obtain rfl := Option.some.inj hsome
  refine Node.mem_declarations.mpr ⟨_, Node.mem_slots_of_get? hvalue, ?_, hslotname⟩
  rw [NameTable.declares_fillSlot]
  exact hdeclares

theorem name_mem_declarations (hregistered : generator.components.Registered)
    (h : generator.plan document = .ok (names, ordered)) :
    ∀ inst ∈ ordered.instances, inst.id.name ∈ inst.config.declarations := by
  obtain ⟨valid, instances, hvalid, hresolve, hordered⟩ := plan_eq_ok h
  intro inst hmem
  apply name_mem_declarations_of_resolve hregistered hvalid hresolve
  exact (Ordered.instances_perm hordered).mem_iff.mp hmem

end Generator

end Firmware
