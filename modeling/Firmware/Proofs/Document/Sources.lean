import Firmware.Proofs.Document
import Firmware.Proofs.Insertion
import Firmware.Proofs.Json.Parts
import Firmware.Proofs.Value.Json
import Firmware.Proofs.Value.Reaching
/-!
Where the parts of a document come from.  Reading a JSON value loses nothing, and it reads
every part at the location that leads to its source.  The mappings of a document are thus
located at the objects (or `null` instances) they are read from, each at its own.
-/

namespace Firmware

variable {path place : Path} {json source : Json} {kind : String} {index : Nat} {steps : Path}
  {node mapping : Node} {document : Document}

/-- The word that holds an integer is that integer. -/
theorem Text.toInt_of_word? {value : Int} {word : Int64} (h : word? value = some word) :
    word.toInt = value := by
  unfold word? at h
  split at h
  · next hrange =>
      obtain rfl := Option.some.inj h
      exact Int64.toInt_ofInt_of_le hrange.1 (Int.lt_add_one_of_le hrange.2)
  · simp at h

namespace Value

mutual

/-- A JSON value is written as it was read, its keys in their order. -/
theorem toJson_ofJson (path : Path) : ∀ json : Json, json.hasUniqueKeys = true →
    json.hasOwnNumbers = true → (ofJson path json).toJson = json
  | .null, _, _ | .bool _, _, _ | .float _, _, _ | .text _, _, _ => rfl
  | .integer value, _, hnumber => by
      obtain ⟨word, hword⟩ := Option.isSome_iff_exists.mp hnumber
      rw [ofJson, hword]
      exact congrArg Json.integer (Text.toInt_of_word? hword)
  | .array items, hkeys, hnumbers => by
      rw [ofJson, toJson, itemsToJson_itemsOfJson path 0 items (Json.every_array.mp hkeys).2
        (Json.every_array.mp hnumbers).2]
  | .object entries, hkeys, hnumbers => by
      have hnodup := Json.nodup_keys_of_hasUniqueKeys hkeys
      rw [ofJson, Table.ofList_of_nodup (by rwa [keys_entriesOfJson]), toJson,
        entriesToJson_entriesOfJson path entries (Json.every_object.mp hkeys).2
          (Json.every_object.mp hnumbers).2]

theorem itemsToJson_itemsOfJson (path : Path) (position : Nat) : ∀ items : List Json,
    (∀ item ∈ items, item.hasUniqueKeys = true) → (∀ item ∈ items, item.hasOwnNumbers = true) →
    itemsToJson (itemsOfJson path position items) = items
  | [], _, _ => rfl
  | item :: rest, hkeys, hnumbers => by
      rw [List.forall_mem_cons] at hkeys hnumbers
      rw [itemsOfJson, itemsToJson, toJson_ofJson _ item hkeys.1 hnumbers.1,
        itemsToJson_itemsOfJson path (position + 1) rest hkeys.2 hnumbers.2]

theorem entriesToJson_entriesOfJson (path : Path) : ∀ entries : List (String × Json),
    (∀ entry ∈ entries, entry.2.hasUniqueKeys = true) →
    (∀ entry ∈ entries, entry.2.hasOwnNumbers = true) →
    entriesToJson (entriesOfJson path entries) = entries
  | [], _, _ => rfl
  | (key, value) :: rest, hkeys, hnumbers => by
      rw [List.forall_mem_cons] at hkeys hnumbers
      rw [entriesOfJson, entriesToJson, toJson_ofJson _ value hkeys.1 hnumbers.1,
        entriesToJson_entriesOfJson path rest hkeys.2 hnumbers.2]

end

/-- The part of a value at a step is read from the part of its source there, at the location
of that step. -/
theorem part?_ofJson (hkeys : json.hasUniqueKeys = true) (path : Path) (step : Segment) :
    (ofJson path json).part? step = (json.part? step).map (ofJson (path ++ [step])) := by
  cases json with
  | object entries =>
      have hnodup := Json.nodup_keys_of_hasUniqueKeys hkeys
      rw [ofJson, Table.ofList_of_nodup (by rwa [keys_entriesOfJson]), entriesOfJson_eq_map]
      cases step with
      | key name => exact Table.get?_mapValues (fun key => ofJson (path.field key)) entries name
      | index position => rfl
  | array items =>
      cases step with
      | key name => rfl
      | index position => exact getElem?_itemsOfJson path items position
  | integer value =>
      rw [ofJson]
      split <;> rfl
  | null | bool | float | text => rfl

/-- The value that steps reach is read from what they reach in the source, at the location to
which they lead. -/
theorem reach?_ofJson (hkeys : json.hasUniqueKeys = true) (path steps : Path) :
    (ofJson path json).reach? steps = (json.follow? steps).map (ofJson (path ++ steps)) := by
  induction steps generalizing json path with
  | nil => simp
  | cons step rest ih =>
      rw [reach?, part?_ofJson hkeys, Json.follow?_cons]
      cases hpart : json.part? step with
      | none => rfl
      | some part =>
          rw [Option.map_some, Option.bind_some, Option.bind_some,
            ih (Json.every_of_part? hkeys hpart), List.append_assoc, List.singleton_append]

end Value

namespace Node

theorem toJson_of_ofJson? {entries : List (String × Json)}
    (hkeys : (Json.object entries).hasUniqueKeys = true)
    (hnumbers : (Json.object entries).hasOwnNumbers = true) (path : Path) :
    ∃ node, ofJson? path (.object entries) = some node ∧ node.toJson = .object entries :=
  ⟨_, rfl, Value.toJson_ofJson path _ hkeys hnumbers⟩

/-- The mappings in a node that is read from JSON are read from what the steps to them reach
in the source, at the locations to which these steps lead. -/
theorem ofJson?_of_reach? (hkeys : source.hasUniqueKeys = true)
    (hread : ofJson? place source = some node)
    (hreach : node.toValue.reach? steps = some mapping.toValue) :
    mapping.path = place ++ steps ∧
      ∃ part, source.follow? steps = some part ∧ ofJson? mapping.path part = some mapping := by
  cases source with
  | object entries =>
      obtain rfl := Option.some.inj hread
      have hvalue := (Value.reach?_ofJson hkeys place steps).symm.trans hreach
      obtain ⟨part, hpart, hmapping⟩ := Option.map_eq_some_iff.mp hvalue
      have hnode : (Value.ofJson (place ++ steps) part).node? = some mapping :=
        congrArg Value.node? hmapping
      obtain ⟨inner, rfl, rfl⟩ := Value.node?_ofJson_eq_some hnode
      exact ⟨rfl, .object inner, hpart, rfl⟩
  | null =>
      obtain rfl := Option.some.inj hread
      rcases Value.reach?_mapping_eq_some_iff.mp hreach with ⟨rfl, hself⟩ |
        ⟨_, _, _, _, hentry, _⟩
      · obtain rfl : mapping = empty place := (Option.some.inj (congrArg Value.node? hself)).symm
        exact ⟨(List.append_nil place).symm, .null, rfl, rfl⟩
      · contradiction
  | _ => contradiction

/-- Every object in the source of a node is one of its mappings. -/
theorem exists_reach?_of_follow? {entries : List (String × Json)}
    (hkeys : source.hasUniqueKeys = true) (hread : ofJson? place source = some node)
    (hfollow : source.follow? steps = some (.object entries)) :
    ∃ mapping : Node, node.toValue.reach? steps = some mapping.toValue ∧
      mapping.path = place ++ steps := by
  cases source with
  | object own =>
      obtain rfl := Option.some.inj hread
      refine ⟨⟨place ++ steps, Table.ofList (Value.entriesOfJson (place ++ steps) entries)⟩, ?_,
        rfl⟩
      exact (Value.reach?_ofJson hkeys place steps).trans (by rw [hfollow]; rfl)
  | null => cases steps <;> simp [Json.follow?, Json.part?] at hfollow
  | _ => contradiction

end Node

namespace Document

/-- The source of an instance of a kind in the JSON value of a document: an element of the
kind's array, or the one value that is no array; with the place at which it stands. -/
inductive Source (json : Json) (kind : String) : Nat → Path → Json → Prop
  | single {source : Json} (entry : json.part? (.key kind) = some source)
      (single : ∀ items, source ≠ .array items) : Source json kind 0 [.key kind] source
  | listed {items : List Json} {index : Nat} {source : Json}
      (entry : json.part? (.key kind) = some (.array items))
      (item : items[index]? = some source) :
      Source json kind index [.key kind, .index index] source

/-- A mapping of a document: in an instance of a kind, reached by some steps. -/
def Holds (document : Document) (kind : String) (index : Nat) (steps : Path) (mapping : Node) :
    Prop :=
  ∃ node, (document.instances kind)[index]? = some node ∧
    node.toValue.reach? steps = some mapping.toValue

/-- Where a source stands, it is found. -/
theorem Source.follow?_append (h : Source json kind index place source) (steps : Path) :
    json.follow? (place ++ steps) = source.follow? steps := by
  cases h with
  | single hentry => rw [List.singleton_append, Json.follow?_cons, hentry, Option.bind_some]
  | listed hentry hitem =>
      rw [List.cons_append, List.singleton_append, Json.follow?_cons, hentry, Option.bind_some,
        Json.follow?_cons, Json.part?, hitem, Option.bind_some]

theorem Source.hasUniqueKeys (h : Source json kind index place source)
    (hkeys : json.hasUniqueKeys = true) : source.hasUniqueKeys = true := by
  cases h with
  | single hentry => exact Json.every_of_part? hkeys hentry
  | listed hentry hitem =>
      have hpart : (Json.array _).part? (.index index) = some source := hitem
      exact Json.every_of_part? (Json.every_of_part? hkeys hentry) hpart

/-- No location is below the places of two sources. -/
theorem Source.eq_of_append_eq {kind' : String} {index' : Nat} {place' steps' : Path}
    {source' : Json} (h : Source json kind index place source)
    (h' : Source json kind' index' place' source') (heq : place ++ steps = place' ++ steps') :
    kind = kind' ∧ index = index' ∧ steps = steps' := by
  cases h with
  | single hentry hsingle =>
      cases h' with
      | single => simpa using heq
      | listed hentry' =>
          obtain rfl : kind = kind' := by simpa using (List.cons.inj heq).1
          exact absurd (Option.some.inj (hentry.symm.trans hentry')) (hsingle _)
  | listed hentry =>
      cases h' with
      | single hentry' hsingle =>
          obtain rfl : kind = kind' := by simpa using (List.cons.inj heq).1
          exact absurd (Option.some.inj (hentry'.symm.trans hentry)) (hsingle _)
      | listed => simpa using heq

/-- An object below the root of a document stands in a source. -/
theorem exists_source_of_follow? {step : Segment} {rest : Path} {entries : List (String × Json)}
    (hread : ofJson json = .ok document)
    (h : json.follow? (step :: rest) = some (.object entries)) :
    ∃ kind index place source steps, Source json kind index place source ∧
      step :: rest = place ++ steps := by
  rw [Json.follow?_cons, Option.bind_eq_some_iff] at h
  obtain ⟨whole, hwhole, hrest⟩ := h
  cases step with
  | index position =>
      cases json with
      | array => simp [ofJson] at hread
      | _ => simp [Json.part?] at hwhole
  | key kind =>
      cases whole with
      | array items =>
          cases rest with
          | nil => simp at hrest
          | cons inner steps =>
              rw [Json.follow?_cons, Option.bind_eq_some_iff] at hrest
              obtain ⟨source, hitem, _⟩ := hrest
              cases inner with
              | key name => simp [Json.part?] at hitem
              | index position =>
                  exact ⟨kind, position, _, source, steps, .listed hwhole hitem, rfl⟩
      | _ => exact ⟨kind, 0, _, _, rest, .single hwhole (by simp), rfl⟩

theorem eq_map_nodesOf {results : List (Except Problem Node)} (h : problemsOf results = []) :
    results = (nodesOf results).map .ok := by
  induction results with
  | nil => rfl
  | cons result rest ih =>
      cases result with
      | ok node => exact congrArg (.ok node :: ·) (ih h)
      | error problem => simp [problemsOf] at h

theorem readNode_eq_ok_iff :
    readNode place source = .ok node ↔ Node.ofJson? place source = some node := by
  unfold readNode
  cases Node.ofJson? place source <;> simp

/-- What is read of the entry of a kind is what is read of the sources in it. -/
theorem getElem?_readInstances_iff {whole : Json} {result : Except Problem Node}
    (hentry : json.part? (.key kind) = some whole) :
    (readInstances kind whole)[index]? = some result ↔
      ∃ place source, Source json kind index place source ∧ readNode place source = result := by
  unfold readInstances
  split
  · next items =>
      rw [List.getElem?_mapIdx, Option.map_eq_some_iff]
      constructor
      · rintro ⟨item, hitem, hresult⟩
        exact ⟨_, item, .listed hentry hitem, hresult⟩
      · rintro ⟨place, source, hsource | hsource, hresult⟩
        · next hsingle =>
            exact absurd (Option.some.inj (hsource.symm.trans hentry)) (hsingle items)
        · next hitem =>
            cases Option.some.inj (hsource.symm.trans hentry)
            exact ⟨source, hitem, hresult⟩
  · next hsingle =>
      rw [List.getElem?_singleton]
      constructor
      · intro h
        split at h
        · next hzero => exact ⟨_, whole, hzero ▸ .single hentry hsingle, Option.some.inj h⟩
        · simp at h
      · rintro ⟨place, source, hsource | hsource, hresult⟩
        · cases Option.some.inj (hsource.symm.trans hentry)
          rw [if_pos rfl, ← hresult]
          rfl
        · exact absurd (Option.some.inj (hsource.symm.trans hentry)).symm (hsingle _)

theorem instances_of_ofJson {entries : List (String × Json)}
    (hkeys : (Json.object entries).hasUniqueKeys = true)
    (hread : ofJson (.object entries) = .ok document) (kind : String) :
    Table.get? entries kind = none ∧ document.instances kind = [] ∨
      ∃ whole, Table.get? entries kind = some whole ∧
        readInstances kind whole = (document.instances kind).map .ok := by
  have hnodup := Json.nodup_keys_of_hasUniqueKeys hkeys
  rw [ofJson_object, Problem.settle_eq_ok_iff] at hread
  obtain ⟨hproblems, rfl⟩ := hread
  have hkinds : Table.ofList ((readKinds entries).map fun kind => (kind.1, nodesOf kind.2)) =
      Table.mapValues (fun kind source => nodesOf (readInstances kind source)) entries := by
    rw [readKinds, List.map_map]
    refine Table.ofList_of_nodup ?_
    rwa [Table.keys, List.map_map]
  rw [instances, hkinds, Table.get?_mapValues]
  cases hentry : Table.get? entries kind with
  | none => exact .inl ⟨rfl, rfl⟩
  | some whole =>
      have hnone : problemsOf (readInstances kind whole) = [] :=
        List.flatMap_eq_nil_iff.mp hproblems (kind, readInstances kind whole)
          (List.mem_map.mpr ⟨_, Table.mem_of_get?_eq hentry, rfl⟩)
      exact .inr ⟨whole, rfl, eq_map_nodesOf hnone⟩

/-- Every source of a document that can be read is read as an instance. -/
theorem Source.exists_instance (hsource : Source json kind index place source)
    (hkeys : json.hasUniqueKeys = true) (hread : ofJson json = .ok document) :
    ∃ node, (document.instances kind)[index]? = some node ∧
      Node.ofJson? place source = some node := by
  obtain ⟨whole, hwhole⟩ : ∃ whole, json.part? (.key kind) = some whole := by
    cases hsource <;> exact ⟨_, ‹_›⟩
  cases json with
  | object entries =>
      rcases instances_of_ofJson hkeys hread kind with ⟨hnone, _⟩ | ⟨whole', hentry, hmap⟩
      · exact absurd (hwhole.symm.trans hnone) (by simp)
      · obtain rfl := Option.some.inj (hwhole.symm.trans hentry)
        have hresult := (getElem?_readInstances_iff hwhole).mpr ⟨place, source, hsource, rfl⟩
        rw [hmap, List.getElem?_map, Option.map_eq_some_iff] at hresult
        obtain ⟨node, hnode, hok⟩ := hresult
        exact ⟨node, hnode, readNode_eq_ok_iff.mp hok.symm⟩
  | _ => simp [Json.part?] at hwhole

/-- Every instance of a document is read from a source. -/
theorem exists_source (hkeys : json.hasUniqueKeys = true) (hread : ofJson json = .ok document)
    (hnode : (document.instances kind)[index]? = some node) :
    ∃ place source, Source json kind index place source ∧
      Node.ofJson? place source = some node := by
  cases json with
  | object entries =>
      rcases instances_of_ofJson hkeys hread kind with ⟨_, hempty⟩ | ⟨whole, hentry, hmap⟩
      · rw [hempty] at hnode
        simp at hnode
      · have hresult : (readInstances kind whole)[index]? = some (.ok node) := by
          rw [hmap, List.getElem?_map, hnode, Option.map_some]
        have hpart : (Json.object entries).part? (.key kind) = some whole := hentry
        obtain ⟨place, source, hsource, hok⟩ := (getElem?_readInstances_iff hpart).mp hresult
        exact ⟨place, source, hsource, readNode_eq_ok_iff.mp hok⟩
  | _ => simp [ofJson] at hread

/-- Reading JSON loses nothing and locates everything.  An object whose numbers are words or
finite is read, and written with all it had, its keys in their order.  In a document that can be
read, every mapping at any depth has a location that, followed from the root, reaches the JSON
value it is read from; every object below the root is read as a mapping located there; and
mappings at different places have different locations. -/
theorem kept_and_located :
    (∀ (path : Path) (entries : List (String × Json)),
      (Json.object entries).hasUniqueKeys = true → (Json.object entries).hasOwnNumbers = true →
      ∃ node, Node.ofJson? path (.object entries) = some node ∧ node.toJson = .object entries) ∧
    ∀ (json : Json) (document : Document), json.hasUniqueKeys = true →
      ofJson json = .ok document →
      (∀ kind index steps mapping, document.Holds kind index steps mapping →
        ∃ source, json.follow? mapping.path = some source ∧
          Node.ofJson? mapping.path source = some mapping) ∧
      (∀ step rest entries, json.follow? (step :: rest) = some (.object entries) →
        ∃ kind index steps mapping, document.Holds kind index steps mapping ∧
          mapping.path = step :: rest) ∧
      ∀ kind index steps mapping kind' index' steps' mapping',
        document.Holds kind index steps mapping → document.Holds kind' index' steps' mapping' →
        mapping.path = mapping'.path → kind = kind' ∧ index = index' ∧ steps = steps' := by
  refine ⟨fun path entries hkeys hnumbers => Node.toJson_of_ofJson? hkeys hnumbers path,
    fun json document hkeys hread => ⟨?_, ?_, ?_⟩⟩
  · rintro kind index steps mapping ⟨node, hnode, hreach⟩
    obtain ⟨place, source, hsource, hof⟩ := exists_source hkeys hread hnode
    obtain ⟨hpath, part, hpart, hmapping⟩ :=
      Node.ofJson?_of_reach? (hsource.hasUniqueKeys hkeys) hof hreach
    exact ⟨part, by rw [hpath, hsource.follow?_append, hpart], hmapping⟩
  · intro step rest entries hfollow
    obtain ⟨kind, index, place, source, steps, hsource, hplace⟩ :=
      exists_source_of_follow? hread hfollow
    obtain ⟨node, hnode, hof⟩ := hsource.exists_instance hkeys hread
    rw [hplace, hsource.follow?_append] at hfollow
    obtain ⟨mapping, hreach, hpath⟩ :=
      Node.exists_reach?_of_follow? (hsource.hasUniqueKeys hkeys) hof hfollow
    exact ⟨kind, index, steps, mapping, ⟨node, hnode, hreach⟩, hpath.trans hplace.symm⟩
  · rintro kind index steps mapping kind' index' steps' mapping' ⟨node, hnode, hreach⟩
      ⟨node', hnode', hreach'⟩ hsame
    obtain ⟨place, source, hsource, hof⟩ := exists_source hkeys hread hnode
    obtain ⟨place', source', hsource', hof'⟩ := exists_source hkeys hread hnode'
    have hpath := (Node.ofJson?_of_reach? (hsource.hasUniqueKeys hkeys) hof hreach).1
    have hpath' := (Node.ofJson?_of_reach? (hsource'.hasUniqueKeys hkeys) hof' hreach').1
    exact hsource.eq_of_append_eq hsource' (hpath.symm.trans (hsame.trans hpath'))

/-- Two hubs, the first of them `null`, and a pump; mappings stand in a list and in a mapping. -/
def hubs : List (String × Json) :=
  [("hub", .array [.null, .object [("relays", .array [.float (.limit true), .object
      [("pin", .integer (-1))]])]]), ("pump", .object [("motor", .object [])])]

/-- The relay of the second hub and the motor of the pump are located where they stand. -/
theorem hubs_kept_and_located :
    (Json.object hubs).hasUniqueKeys = true ∧ (Json.object hubs).hasOwnNumbers = true ∧
      (∃ node, Node.ofJson? [] (.object hubs) = some node ∧ node.toJson = .object hubs) ∧
      ∃ document relay motor, ofJson (.object hubs) = .ok document ∧
        document.Holds "hub" 1 [.key "relays", .index 1] relay ∧
        document.Holds "pump" 0 [.key "motor"] motor ∧
        (∃ source, (Json.object hubs).follow? relay.path = some source ∧
          Node.ofJson? relay.path source = some relay) ∧
        (∃ kind index steps mapping, document.Holds kind index steps mapping ∧
          mapping.path = [.key "hub", .index 1, .key "relays", .index 1]) ∧
        relay.path ≠ motor.path := by
  have hkeys : (Json.object hubs).hasUniqueKeys = true := by decide
  have hnumbers : (Json.object hubs).hasOwnNumbers = true := by decide
  obtain ⟨document, hread⟩ : ∃ document, ofJson (.object hubs) = .ok document := ⟨_, rfl⟩
  have hrelay : document.Holds "hub" 1 [.key "relays", .index 1]
      ⟨[.key "hub", .index 1, .key "relays", .index 1], [("pin", .integer (-1))]⟩ := by
    cases hread
    exact ⟨_, rfl, rfl⟩
  have hmotor : document.Holds "pump" 0 [.key "motor"] ⟨[.key "pump", .key "motor"], []⟩ := by
    cases hread
    exact ⟨_, rfl, rfl⟩
  have ⟨hlocated, hfound, hapart⟩ := kept_and_located.2 _ document hkeys hread
  refine ⟨hkeys, hnumbers, kept_and_located.1 [] hubs hkeys hnumbers, document, _, _, hread,
    hrelay, hmotor, hlocated _ _ _ _ hrelay, ?_, ?_⟩
  · exact hfound _ _ _ (by rfl)
  · intro hsame
    have hkind := (hapart _ _ _ _ _ _ _ _ hrelay hmotor hsame).1
    simp at hkind

end Document

end Firmware
