import Firmware.Proofs.Json.Parts
import Firmware.Proofs.Validation.Grown
import Firmware.Proofs.Value.Dumped
/-!
The dump of a validated node, read and validated again.  Identifiers are read from their names,
and declarations that wait for a name from its absence.  Durations are read from their texts, as
binary64 numbers, so that those come back that are such numbers.
-/

namespace Firmware

open Validation

/-- A kind makes a value again, with its durations recounted, of its JSON form. -/
def Kind.Rereads (kind : Kind) (value : Value) : Prop :=
  ∀ path name place, (kind.convert path name (Value.ofJson place value.toJson)).map Value.content =
    .ok value.recounted.content

variable {path place origin : Path} {name : String} {kind : Kind} {schema : Schema}
  {field : Field} {given value : Value} {raw node : Node} {json : Json}

namespace Value

theorem itemsOfJson_itemsToJson (place : Path) (items : List Value) :
    itemsOfJson place 0 (itemsToJson items) =
      items.mapIdx fun position item => ofJson (place.index position) item.toJson := by
  have hforms : itemsToJson items = items.map toJson := by
    induction items with
    | nil => rfl
    | cons item rest ih => rw [itemsToJson, ih, List.map_cons]
  refine List.ext_getElem? fun position => ?_
  rw [getElem?_itemsOfJson, hforms, List.getElem?_map, List.getElem?_mapIdx, Option.map_map]
  rfl

theorem entriesOfJson_entriesToJson (place : Path) (entries : List (String × Value)) :
    entriesOfJson place (entriesToJson entries) =
      Table.mapValues (fun key value => ofJson (place.field key) value.toJson) entries := by
  induction entries with
  | nil => rfl
  | cons entry rest ih => rw [entriesToJson, entriesOfJson, ih]; rfl

theorem eq_text_of_asDeclaration {type : String} {base : Option String} {slot : Slot}
    (hbare : given.IsBare) (h : given.asDeclaration type base = .ok slot) :
    ∃ chosen, given = .text chosen ∧ slot = .explicit chosen type := by
  unfold asDeclaration at h
  split at h
  · next chosen =>
      split at h
      · simp at h
      · exact ⟨chosen, rfl, (Except.ok.inj h).symm⟩
  · simp [IsBare, slots] at hbare
  · simp at h

/-- What a bare value refers to is referred to by a chosen name. -/
theorem eq_text_of_asReference {type : String} {slot : Slot} (hbare : given.IsBare)
    (h : given.asReference type = .ok slot) :
    ∃ chosen, given = .text chosen ∧ slot = .reference chosen type := by
  unfold asReference at h
  split at h
  · next chosen =>
      split at h
      · simp at h
      · exact ⟨chosen, rfl, (Except.ok.inj h).symm⟩
  · simp [IsBare, slots] at hbare
  · simp at h

end Value

namespace Kind

/-- A value is read again if its kind makes it of what its JSON form is read as. -/
theorem rereads_of_form (hform : ∀ place, Value.ofJson place value.toJson = given)
    (hrecounted : value.recounted = value)
    (hagain : ∀ path name, kind.convert path name given = .ok value) : kind.Rereads value := by
  intro path name place
  rw [hform, hagain, hrecounted]
  rfl

theorem rereads_of_isOwnForm (hown : value.isOwnForm = true)
    (hagain : ∀ path name, kind.convert path name value = .ok value) : kind.Rereads value :=
  rereads_of_form (Value.ofJson_toJson hown) (Value.recounted_eq_self hown) hagain

theorem rereads_duration (milliseconds : UInt64) :
    Kind.duration.Rereads (.duration milliseconds) := by
  intro path name place
  rw [Value.toJson, Value.ofJson, convert, Value.asDuration, Value.durationOfText_repr]
  rfl

/-- What a simple kind makes of a bare value is read again. -/
theorem rereads_of_isSimple (hsimple : kind.isSimple = true) (hplain : kind.isCustom = false)
    (hbare : given.IsBare) (h : kind.convert path name given = .ok value) : kind.Rereads value := by
  have hagain : ∀ other label, kind.convert other label value = .ok value :=
    fun _ _ => convert_again hsimple hplain h
  cases kind with
  | nested | sequenceOf => simp [isSimple] at hsimple
  | custom => simp [isCustom] at hplain
  | integer min max =>
      obtain ⟨number, rfl, _⟩ := convert_integer_eq_ok h
      exact rereads_of_isOwnForm rfl hagain
  | float min max =>
      obtain ⟨number, rfl, _⟩ := convert_float_eq_ok h
      exact rereads_of_isOwnForm rfl hagain
  | boolean | text =>
      rw [convert] at h
      obtain ⟨_, _, rfl⟩ := Except.map_eq_ok (located_eq_ok h)
      exact rereads_of_isOwnForm rfl hagain
  | oneOf options =>
      rw [convert] at h
      obtain ⟨_, _, hchoice⟩ := Except.bind_eq_ok (located_eq_ok h)
      obtain ⟨option, rfl, _⟩ := choose_again hchoice
      exact rereads_of_isOwnForm rfl hagain
  | duration =>
      rw [convert] at h
      obtain ⟨milliseconds, _, rfl⟩ := Except.map_eq_ok (located_eq_ok h)
      exact rereads_duration milliseconds
  | declareId type base =>
      rw [convert] at h
      obtain ⟨slot, hslot, rfl⟩ := Except.map_eq_ok (located_eq_ok h)
      obtain ⟨chosen, rfl, rfl⟩ := Value.eq_text_of_asDeclaration hbare hslot
      refine rereads_of_form (fun _ => rfl) rfl fun _ _ => ?_
      rw [convert, hslot]
      rfl
  | useId type =>
      rw [convert] at h
      obtain ⟨slot, hslot, rfl⟩ := Except.map_eq_ok (located_eq_ok h)
      obtain ⟨chosen, rfl, rfl⟩ := Value.eq_text_of_asReference hbare hslot
      refine rereads_of_form (fun _ => rfl) rfl fun _ _ => ?_
      rw [convert, hslot]
      rfl

/-- Items that are read again make a sequence that is. -/
theorem rereads_sequenceOf {item : Kind} {items : List Value}
    (h : ∀ value ∈ items, item.Rereads value) :
    (Kind.sequenceOf item).Rereads (.sequence items) := by
  intro path name place
  have hgather : (gather (items.mapIdx fun position value => item.convert (path.index position) name
      (Value.ofJson (place.index position) value.toJson))).map (List.map Value.content) =
      .ok (items.map fun value => value.recounted.content) :=
    gather_mapIdx_iff.mpr fun position value hvalue =>
      h value (List.mem_of_getElem? hvalue) _ _ _
  obtain ⟨read, hread, hsame⟩ := Except.map_eq_ok hgather
  have hconvert : (Kind.sequenceOf item).convert path name
      (Value.ofJson place (Value.sequence items).toJson) = .ok (.sequence read) := by
    rw [Value.toJson, Value.ofJson, convert, Value.items, Value.itemsOfJson_itemsToJson,
      List.mapIdx_mapIdx]
    exact congrArg _ hread
  have hcontent : Value.itemsContent read = Value.itemsContent (Value.itemsRecounted items) := by
    rw [Value.itemsContent_eq_map, hsame, Value.itemsRecounted_eq_map, Value.itemsContent_eq_map,
      List.map_map]
    rfl
  rw [hconvert, Value.recounted, Value.content, ← hcontent]
  rfl

end Kind

namespace Node

/-- The node that is read at a location from the JSON form of one. -/
def reread (place : Path) (node : Node) : Node :=
  ⟨place,
    Table.mapValues (fun key value => Value.ofJson (place.field key) value.toJson) node.entries⟩

theorem keys_reread (place : Path) (node : Node) : (node.reread place).keys = node.keys :=
  Table.keys_mapValues (fun key (value : Value) => Value.ofJson (place.field key) value.toJson)
    node.entries

theorem get?_reread (place : Path) (node : Node) (name : String) :
    (node.reread place).get? name =
      (node.get? name).map fun value => Value.ofJson (place.field name) value.toJson :=
  Table.get?_mapValues (fun key (value : Value) => Value.ofJson (place.field key) value.toJson)
    node.entries name

theorem ofJson?_toJson (place : Path) (h : node.keys.Nodup) :
    ofJson? place node.toJson = some (node.reread place) := by
  have hentries : Table.ofList (Value.entriesOfJson place (Value.entriesToJson node.entries)) =
      (node.reread place).entries := by
    rw [Value.entriesOfJson_entriesToJson, Table.ofList_of_nodup]
    · rfl
    · rwa [Table.keys_mapValues]
  rw [toJson, ofJson?, hentries]
  rfl

end Node

/-- A field that waits for a name stands for that again, and has no JSON form. -/
theorem Field.Waits.result (h : field.Waits value) (hget : node.get? name = some value) :
    field.result path (node.reread place) name = .ok (some value.recounted) := by
  obtain ⟨hoptional, hdefault, type, base, hkind, rfl⟩ := h
  have hgiven : (node.reread place).given? name = none := by
    rw [Node.given?, Node.get?_reread, hget]
    rfl
  rw [Field.result_of_lacking hgiven, hoptional, hdefault, hkind]
  rfl

/-- What a plain kind made of a bare value is written as something that is there. -/
theorem Kind.Grown.ofJson_ne_null (h : kind.Grown value) (hplain : kind.isCustom = false)
    (place : Path) : Value.ofJson place value.toJson ≠ .null := by
  cases h with
  | custom => simp [isCustom] at hplain
  | sequenceOf | nested => nofun
  | @simple _ path name _ _ hsimple _ hbare hmade =>
      intro hnull
      have hread := rereads_of_isSimple hsimple hplain hbare hmade path name place
      rw [hnull] at hread
      obtain ⟨_, hconvert, _⟩ := Except.map_eq_ok hread
      exact convert_null_ne_ok hsimple hplain hconvert

/-- A field makes again what a validated node holds, of the JSON form of that. -/
theorem Field.exists_result_of_rereads (hplain : field.kind.isCustom = false)
    (hgrown : ∀ value, node.get? name = some value → ¬ field.Waits value →
      field.kind.Grown value ∧ field.kind.Rereads value)
    (hlacks : node.get? name = none → field.MayLack) :
    ∃ outcome, field.result path (node.reread place) name = .ok outcome ∧
      outcome.map Value.content = node.recounted.content.get? name := by
  rw [Node.get?_content, Node.get?_recounted]
  cases hget : node.get? name with
  | none =>
      have hgiven : (node.reread place).given? name = none := by
        rw [Node.given?, Node.get?_reread, hget]
        rfl
      exact ⟨none, (result_of_lacking hgiven).trans
        (Kind.absent_eq_ok_none_iff.mpr (hlacks hget)), rfl⟩
  | some value =>
      -- A declaration that waits is written as `null`, so that its field is absent again.
      by_cases hwaits : field.Waits value
      · exact ⟨_, hwaits.result hget, rfl⟩
      · obtain ⟨hmade, hrereads⟩ := hgrown value hget hwaits
        have hgiven : (node.reread place).given? name =
            some (Value.ofJson (place.field name) value.toJson) :=
          Node.given?_eq_some_iff.mpr
            ⟨by rw [Node.get?_reread, hget]; rfl, hmade.ofJson_ne_null hplain _⟩
        obtain ⟨read, hread, hsame⟩ := Except.map_eq_ok (hrereads (path.field name) name
          (place.field name))
        refine ⟨some read, ?_, congrArg some hsame⟩
        rw [result_of_given hgiven, hread]
        rfl

/-- A node is validated again, with its durations recounted, from its JSON form. -/
theorem Schema.map_content_reread (hnames : (Table.keys schema.fields).Nodup)
    (hkeys : node.keys.Sublist (Table.keys schema.fields))
    (hfields : ∀ entry ∈ schema.fields, ∃ outcome,
      entry.2.result path (node.reread place) entry.1 = .ok outcome ∧
        outcome.map Value.content = node.recounted.content.get? entry.1)
    (hconstraints : ∀ constraint ∈ schema.constraints, constraint.violation? node = none) :
    (schema.validate path (node.reread place)).map Node.content = .ok node.recounted.content := by
  refine map_content_validate hnames (node.keys_recounted ▸ hkeys)
    (node.keys_reread place ▸ hkeys.subset) hfields fun constraint hmem => ?_
  rw [← hconstraints constraint hmem]
  refine Constraint.violation?_congr (funext fun key => ?_)
  have hget : (node.recounted.get? key).isSome = (node.get? key).isSome := by
    rw [Node.get?_recounted, Option.isSome_map]
  exact hget

/-- A mapping is read again if the node it is is validated again. -/
theorem Kind.rereads_nested_iff (hnodup : node.keys.Nodup) :
    (Kind.nested schema).Rereads node.toValue ↔ ∀ path place,
      (schema.validate path (node.reread place)).map Node.content = .ok node.recounted.content := by
  have hconvert : ∀ path name place, (Kind.nested schema).convert path name
      (Value.ofJson place node.toValue.toJson) =
        (schema.validate path (node.reread place)).map Node.toValue := by
    intro path name place
    have hvalue : Value.ofJson place node.toValue.toJson = (node.reread place).toValue := by
      have hread := Option.some.inj (node.ofJson?_toJson place hnodup)
      exact congrArg Node.toValue hread
    rw [hvalue]
    rfl
  constructor
  · intro h path place
    have hread := h path schema.name place
    rw [hconvert] at hread
    obtain ⟨value, hvalue, hsame⟩ := Except.map_eq_ok hread
    obtain ⟨read, hvalid, rfl⟩ := Except.map_eq_ok hvalue
    rw [hvalid]
    exact congrArg Except.ok (Option.some.inj (congrArg Value.node? hsame))
  · intro h path name place
    obtain ⟨read, hvalid, hsame⟩ := Except.map_eq_ok (h path place)
    rw [hconvert, hvalid]
    exact congrArg Except.ok (congrArg Node.toValue hsame)

theorem Kind.isCustom_eq_false_of_checks (h : kind.checks = []) : kind.isCustom = false := by
  cases kind with
  | custom => simp [checks] at h
  | _ => rfl

/-- Whatever grows under kinds without supplied checks is read again. -/
theorem Kind.Grown.rereads (h : kind.Grown value) (hchecks : kind.checks = []) :
    kind.Rereads value := by
  induction h with
  | custom => simp [checks] at hchecks
  | simple hsimple hplain hbare hmade => exact rereads_of_isSimple hsimple hplain hbare hmade
  | sequenceOf _ ih => exact rereads_sequenceOf fun value hmem => ih value hmem hchecks
  | @nested schema own entries hnames hkeys hpresent habsent hconstraints ih =>
      have hplain : ∀ entry ∈ schema.fields, entry.2.kind.checks = [] := fun entry hmem =>
        List.eq_nil_iff_forall_not_mem.mpr fun check hcheck =>
          List.eq_nil_iff_forall_not_mem.mp hchecks check (Schema.mem_checks_of_mem hmem hcheck)
      have hnodup : (Node.mk own entries).keys.Nodup := hnames.sublist hkeys
      refine (rereads_nested_iff hnodup).mpr fun path place => ?_
      refine Schema.map_content_reread hnames hkeys (fun entry hmem => ?_) hconstraints
      refine Field.exists_result_of_rereads (isCustom_eq_false_of_checks (hplain entry hmem)) ?_ ?_
      · intro value hget hwaits
        have hvalue := Table.mem_of_get?_eq hget
        exact ⟨hpresent _ _ _ hmem hvalue hwaits, ih _ _ _ hmem hvalue hwaits (hplain entry hmem)⟩
      · intro hget
        exact habsent _ _ hmem (Table.get?_eq_none_iff.mp hget)

/-- A validated node is read again, with its durations recounted, from its JSON form. -/
theorem Schema.exists_reread (hcomposed : schema.ComposedOf Value.IsBare)
    (hcustom : schema.isCustomFree = true) (hread : Node.ofJson? origin json = some raw)
    (h : schema.validate path raw = .ok node) (place : Path) :
    ∃ again read, Node.ofJson? place node.toJson = some again ∧
      schema.validate path again = .ok read ∧ read.content = node.recounted.content := by
  have hdefaults := hcomposed.defaultsHave Kind.confers_grown
  have hgrown : (Kind.nested schema).Grown node.toValue :=
    Kind.confers_grown hdefaults (.inl (Node.isBare_of_ofJson? hread))
      (Kind.convert_nested_of_validate h schema.name)
  have hnames : (Table.keys schema.fields).Nodup := Schema.DefaultsHave.names hdefaults
  have hnodup : node.keys.Nodup := hnames.sublist (keys_sublist_of_validate h)
  have hrereads := hgrown.rereads (schema.checks_eq_nil hcustom)
  obtain ⟨read, hvalid, hsame⟩ := Except.map_eq_ok
    ((Kind.rereads_nested_iff hnodup).mp hrereads path place)
  exact ⟨node.reread place, read, node.ofJson?_toJson place hnodup, hvalid, hsame⟩

/-- A node is the same with its durations recounted exactly if these are read back exactly. -/
theorem Node.content_recounted_eq_iff (node : Node) :
    node.recounted.content = node.content ↔
      ∀ milliseconds ∈ node.toValue.durations, Double.nearestWord milliseconds = milliseconds := by
  rw [← Value.content_recounted_eq_iff]
  exact ⟨congrArg toValue, fun hsame => Option.some.inj (congrArg Value.node? hsame)⟩

/-- The dump of a node that a schema makes of a JSON document, with all its numbers finite, is a
configuration for the same node: it is read and validated again, and differs in durations at
most.  It is the same at every depth, locations aside, exactly if every duration is a binary64
number or the greatest word. -/
theorem Schema.reread_of_validate (hcomposed : schema.ComposedOf Value.IsBare)
    (hcustom : schema.isCustomFree = true) (hread : Node.ofJson? origin json = some raw)
    (h : schema.validate path raw = .ok node) (hfinite : node.toJson.hasOwnNumbers = true)
    (place : Path) :
    ∃ again read, Node.ofJson? place node.toJson.written = some again ∧
      schema.validate path again = .ok read ∧ read.content = node.recounted.content ∧
      (read.content = node.content ↔ ∀ milliseconds ∈ node.toValue.durations,
        milliseconds.toNat = 2 ^ 64 - 1 ∨
          ∃ number : Double, number.value? = some (milliseconds.toNat : ℚ)) := by
  obtain ⟨again, read, hagain, hvalid, hsame⟩ := exists_reread hcomposed hcustom hread h place
  refine ⟨again, read, ?_, hvalid, hsame, ?_⟩
  · rw [Json.written_eq_self _ hfinite, hagain]
  · rw [hsame, Node.content_recounted_eq_iff]
    exact forall₂_congr fun milliseconds _ => Double.nearestWord_eq_self_iff milliseconds

/-- Awnings that hold where they are for some time before they go in. -/
def holdingAwningSchema : Schema :=
  { awningSchema with fields := awningSchema.fields ++ [("hold", .mandatory .duration)] }

theorem composedOf_holdingAwning : holdingAwningSchema.ComposedOf Value.IsBare :=
  composedOf_awning.extend_plain [("hold", .mandatory .duration)] rfl rfl rfl

/-- An awning with an automatic name, a motor, a default, a stop and a duration is the same when
its dump is read somewhere else. -/
theorem awning_reread : ∃ raw node again read,
    Node.ofJson? .root (.object [("stops", .text "out"), ("hold", .integer 90000),
      ("motor", .text "north")]) = some raw ∧
    holdingAwningSchema.validate .root raw = .ok node ∧
    node.toJson = .object [("id", .null), ("motor", .text "north"),
      ("travel", .object [("steps", .integer 5)]), ("stops", .array [.text "Out"]),
      ("hold", .text "90000ms")] ∧
    Node.ofJson? [.key "copy"] node.toJson.written = some again ∧
    holdingAwningSchema.validate .root again = .ok read ∧ read.content = node.content := by
  have hread : Node.ofJson? .root (.object [("stops", .text "out"), ("hold", .integer 90000),
      ("motor", .text "north")]) =
      some ⟨.root, [("stops", .text "out"), ("hold", .integer 90000), ("motor", .text "north")]⟩ :=
    rfl
  have hvalid : holdingAwningSchema.validate .root
      ⟨.root, [("stops", .text "out"), ("hold", .integer 90000), ("motor", .text "north")]⟩ =
      .ok ⟨.root, [("id", .identifier (.automatic "Awning" none)),
        ("motor", .identifier (.reference "north" "Motor")),
        ("travel", .mapping [.key "travel"] [("steps", .integer 5)]),
        ("stops", .sequence [.text "Out"]), ("hold", .duration 90000)]⟩ := by
    with_unfolding_all rfl
  obtain ⟨again, read, hagain, hvalidAgain, _, hsame⟩ := Schema.reread_of_validate
    composedOf_holdingAwning rfl hread hvalid (by decide) [.key "copy"]
  refine ⟨_, _, again, read, hread, hvalid, rfl, hagain, hvalidAgain, hsame.mpr ?_⟩
  intro milliseconds hmem
  obtain rfl := List.mem_singleton.mp hmem
  exact (Double.nearestWord_eq_self_iff 90000).mp (by decide +kernel)

/-- Relays that let go after some time. -/
def relaySchema : Schema := ⟨"relay", [("timeout", .mandatory .duration)], []⟩

theorem composedOf_relay : relaySchema.ComposedOf Value.IsBare :=
  Schema.ComposedOf.extend_plain (.empty "relay") relaySchema.fields rfl rfl rfl

/-- Amplifiers without limits on their gain. -/
def amplifierSchema : Schema :=
  ⟨"amplifier", [("gain", .mandatory (.float (.infinite true) (.infinite false)))], []⟩

theorem composedOf_amplifier : amplifierSchema.ComposedOf Value.IsBare :=
  Schema.ComposedOf.extend_plain (.empty "amplifier") amplifierSchema.fields rfl rfl rfl

/-- A timeout that is given as an integer comes back from its dump one millisecond shorter, and a
gain without bound is missing in its dump. -/
theorem dump_changes :
    (relaySchema.ComposedOf Value.IsBare ∧ relaySchema.isCustomFree = true ∧
      ∃ raw node again read,
        Node.ofJson? .root (.object [("timeout", .integer 9007199254740993)]) = some raw ∧
        relaySchema.validate .root raw = .ok node ∧
        node.toJson = .object [("timeout", .text "9007199254740993ms")] ∧
        Node.ofJson? .root node.toJson.written = some again ∧
        relaySchema.validate .root again = .ok read ∧
        read.content = ⟨.root, [("timeout", .duration 9007199254740992)]⟩ ∧
        read.content ≠ node.content) ∧
    (amplifierSchema.ComposedOf Value.IsBare ∧ amplifierSchema.isCustomFree = true ∧
      ∃ raw again,
        Node.ofJson? .root (.object [("gain", .text "inf")]) = some raw ∧
        amplifierSchema.validate .root raw = .ok ⟨.root, [("gain", .float (.infinite false))]⟩ ∧
        Node.ofJson? .root
          (Node.mk .root [("gain", .float (.infinite false))]).toJson.written = some again ∧
        amplifierSchema.validate .root again = .error [.missingField .root "gain"]) := by
  have hread : Node.ofJson? .root (.object [("timeout", .integer 9007199254740993)]) =
      some ⟨.root, [("timeout", .integer 9007199254740993)]⟩ := rfl
  have hvalid : relaySchema.validate .root ⟨.root, [("timeout", .integer 9007199254740993)]⟩ =
      .ok ⟨.root, [("timeout", .duration 9007199254740993)]⟩ := rfl
  have hnearest : Double.nearestWord 9007199254740993 = 9007199254740992 := by decide +kernel
  obtain ⟨again, read, hagain, hvalidAgain, hsame⟩ :=
    Schema.exists_reread composedOf_relay rfl hread hvalid .root
  have hcontent : read.content = ⟨.root, [("timeout", .duration 9007199254740992)]⟩ := by
    rw [hsame, ← hnearest]
    rfl
  have hdiffers : read.content ≠
      (Node.mk .root [("timeout", .duration 9007199254740993)]).content := by
    rw [hsame, Ne, Node.content_recounted_eq_iff]
    intro hkept
    have hword := hkept 9007199254740993 (List.mem_singleton.mpr rfl)
    rw [hnearest] at hword
    exact absurd hword (by decide)
  refine ⟨⟨composedOf_relay, rfl, _, _, again, read, hread, hvalid, rfl, hagain, hvalidAgain,
    hcontent, hdiffers⟩, composedOf_amplifier, rfl, ?_⟩
  exact ⟨⟨.root, [("gain", .text "inf")]⟩, ⟨.root, [("gain", .null)]⟩, rfl, rfl, rfl, rfl⟩

end Firmware
