import Firmware.Proofs.Validation.Keeping
/-!
Validation is idempotent.  What has been validated is validated to itself, before and
after its declarations have got their names; only a supplied check that is asked about a
named value may answer anew.
-/

namespace Firmware

open Validation

mutual

/-- The values inside a value that supplied checks have converted, each with its check. -/
def Kind.supplied : Kind → Value → List (Check × Value)
  | .nested schema, value =>
      match value.node? with
      | some node => schema.supplied node
      | none => []
  | .sequenceOf item, value => value.items.flatMap fun part => item.supplied part
  | .custom _ check, value => [(check, value)]
  | _, _ => []
termination_by structural kind => kind

def Schema.supplied : Schema → Node → List (Check × Value)
  | ⟨_, fields, _⟩, node => Schema.suppliedFields fields node
termination_by structural schema => schema

def Schema.suppliedFields : List (String × Field) → Node → List (Check × Value)
  | [], _ => []
  | (name, ⟨kind, _, _⟩) :: rest, node =>
      (match node.given? name with
        | some value => kind.supplied value
        | none => []) ++ Schema.suppliedFields rest node
termination_by structural fields => fields

end

variable {path place : Path} {name : String} {kind : Kind} {schema : Schema} {value : Value}
  {raw node : Node} {table : NameTable} {found : Check × Value} {entry : String × Field}

namespace Schema

theorem mem_supplied_iff : found ∈ schema.supplied node ↔
    ∃ entry ∈ schema.fields, ∃ value, node.given? entry.1 = some value ∧
      found ∈ entry.2.kind.supplied value := by
  obtain ⟨_, fields, _⟩ := schema
  rw [supplied]
  induction fields with
  | nil => simp [suppliedFields]
  | cons first rest ih =>
      obtain ⟨key, kind, required, default⟩ := first
      rw [suppliedFields, List.mem_append, ih]
      cases hgiven : node.given? key <;> simp [hgiven]

/-- A field keeps the value it is given by a node that its schema keeps. -/
theorem Sound.keeps_given (hsound : schema.Sound) (h : schema.Keeps path node)
    (hmem : entry ∈ schema.fields) (hgiven : node.given? entry.1 = some value) :
    entry.2.kind.Keeps (path.field entry.1) entry.1 value := by
  obtain ⟨again, hvalid, hsame⟩ := Except.map_eq_ok h
  obtain ⟨outcome, hresult⟩ := exists_result_of_problemsOf (validate_eq_ok hvalid).1 hmem
  obtain ⟨kept, hconvert, rfl⟩ :=
    Except.map_eq_ok ((Field.result_of_given hgiven).symm.trans hresult)
  have hentry := (mem_entries_of_validate hvalid).mpr ⟨entry.2, hmem, hresult⟩
  have hnodup : again.keys.Nodup := hsound.names.sublist (keys_sublist_of_validate hvalid)
  have hkept : again.content.get? entry.1 = some kept.content := by
    rw [Node.get?_content, Node.get?, Table.get?_eq_of_mem hnodup hentry, Option.map_some]
  rw [hsame, Node.get?_content, (Node.given?_eq_some_iff.mp hgiven).1] at hkept
  rw [Kind.Keeps, hconvert]
  exact congrArg Except.ok (Option.some.inj hkept).symm

end Schema

namespace Kind

/-- A value that is kept is kept by the checks that convert its parts. -/
theorem Sound.supplied_kept (hsound : kind.Sound) (h : kind.Keeps path name value) :
    ∀ found ∈ kind.supplied value, found.1.Keeps found.2 := by
  induction hsound generalizing path name value with
  | @simple kind hsimple =>
      intro found hmem
      cases kind with
      | nested | sequenceOf => simp [isSimple] at hsimple
      | custom tag check =>
          obtain rfl := List.mem_singleton.mp hmem
          exact keeps_custom_iff.mp h
      | _ => simp [supplied] at hmem
  | @sequenceOf item _ ih =>
      obtain ⟨items, rfl⟩ := exists_items_of_keeps h
      intro found hmem
      obtain ⟨part, hpart, hfound⟩ := List.mem_flatMap.mp hmem
      obtain ⟨position, hposition⟩ := List.getElem?_of_mem hpart
      exact ih (keeps_sequenceOf_iff.mp h position part hposition) found hfound
  | @nested schema hnames hkinds hdefaults ih =>
      have hschema : schema.Sound := .nested hnames hkinds hdefaults
      obtain ⟨node, rfl⟩ := exists_node_of_keeps h
      intro found hmem
      obtain ⟨entry, hentry, part, hgiven, hfound⟩ := Schema.mem_supplied_iff.mp hmem
      have hnode := (keeps_nested_iff name).mp h
      exact ih entry hentry (hschema.keeps_given hnode hentry hgiven) found hfound

end Kind

namespace Node

variable {f : Path → Slot → Slot}

theorem given?_mapSlots : (node.mapSlots f).given? name =
    (node.given? name).map (Value.mapSlots f (node.path.field name)) := by
  rw [given?, given?, get?_mapSlots]
  cases node.get? name with
  | none => rfl
  | some value => cases value <;> rfl

theorem contains_mapSlots : (node.mapSlots f).contains = node.contains := by
  funext key
  have hget : ((node.mapSlots f).get? key).isSome = (node.get? key).isSome := by
    rw [get?_mapSlots, Option.isSome_map]
  exact hget

end Node

namespace Kind

/-- Replacing slots replaces those of the values that checks have converted. -/
theorem Sound.mem_supplied_mapSlots (hsound : kind.Sound) {f : Path → Slot → Slot}
    (hmem : found ∈ kind.supplied (value.mapSlots f place)) :
    ∃ old place, (found.1, old) ∈ kind.supplied value ∧ found.2 = old.mapSlots f place := by
  induction hsound generalizing value place with
  | @simple kind hsimple =>
      cases kind with
      | nested | sequenceOf => simp [isSimple] at hsimple
      | custom tag check =>
          obtain rfl := List.mem_singleton.mp hmem
          exact ⟨value, place, List.mem_singleton.mpr rfl, rfl⟩
      | _ => simp [supplied] at hmem
  | sequenceOf _ ih =>
      obtain ⟨part, hpart, hfound⟩ := List.mem_flatMap.mp hmem
      obtain ⟨item, hitem, _, rfl⟩ := Value.mem_items_mapSlots hpart
      obtain ⟨old, inner, hold, hsame⟩ := ih hfound
      exact ⟨old, inner, List.mem_flatMap.mpr ⟨item, hitem, hold⟩, hsame⟩
  | @nested schema _ _ _ ih =>
      cases value with
      | mapping own entries =>
          have hnode : found ∈ schema.supplied ((Node.mk own entries).mapSlots f) := hmem
          obtain ⟨entry, hentry, part, hgiven, hfound⟩ := Schema.mem_supplied_iff.mp hnode
          rw [Node.given?_mapSlots] at hgiven
          obtain ⟨given, hbefore, rfl⟩ := Option.map_eq_some_iff.mp hgiven
          obtain ⟨old, inner, hold, hsame⟩ := ih entry hentry hfound
          exact ⟨old, inner, Schema.mem_supplied_iff.mpr ⟨entry, hentry, given, hbefore, hold⟩,
            hsame⟩
      | _ => simp [supplied, Value.mapSlots, Value.node?] at hmem

/-- A declaration that declares itself while it waits does so under any name. -/
theorem asDeclaration_named {type : String} {base : Option String} {slot : Slot}
    (h : (Value.identifier slot).asDeclaration type base = .ok slot) (hname : slot.name = none)
    (given : Option String) :
    (Value.identifier { slot with name := given }).asDeclaration type base =
      .ok { slot with name := given } := by
  obtain ⟨_, own, suggested, declares⟩ := slot
  obtain rfl : _ = none := hname
  cases declares with
  | false => simp [Value.asDeclaration] at h
  | true =>
      obtain ⟨rfl, rfl⟩ : type = own ∧ base = suggested := by simpa [Value.asDeclaration] using h
      cases given <;> rfl

theorem declares_of_asReference {type : String} {slot result : Slot}
    (h : (Value.identifier slot).asReference type = .ok result) : slot.declares = false := by
  obtain ⟨_, _, _, declares⟩ := slot
  cases declares with
  | false => rfl
  | true => simp [Value.asReference] at h

/-- A kind without parts keeps what it keeps after naming, unless it is a supplied
check. -/
theorem keeps_named (hsimple : kind.isSimple = true) (hcustom : kind.isCustom = false)
    (h : kind.Keeps path name value) :
    kind.Keeps path name (value.mapSlots table.fillSlot place) := by
  obtain ⟨again, hagain, hsame⟩ := Except.map_eq_ok h
  have hscalar := isScalar_of_convert hsimple hcustom hagain
  obtain rfl := Value.eq_of_content_eq hscalar hsame
  cases value with
  | identifier slot =>
      cases hwaits : slot.waits with
      | false =>
          rw [Value.mapSlots, NameTable.fillSlot_eq_self hwaits]
          exact h
      | true =>
          obtain ⟨hdeclares, hname⟩ := Slot.waits_eq_true_iff.mp hwaits
          rw [Value.mapSlots, NameTable.fillSlot_of_waits hwaits]
          cases kind with
          | declareId type base =>
              rw [convert] at hagain
              obtain ⟨_, hslot, heq⟩ := Except.map_eq_ok (located_eq_ok hagain)
              obtain rfl := Value.identifier.inj heq
              rw [Keeps, convert, asDeclaration_named hslot hname]
              rfl
          | useId type =>
              rw [convert] at hagain
              obtain ⟨_, hslot, _⟩ := Except.map_eq_ok (located_eq_ok hagain)
              simp [declares_of_asReference hslot] at hdeclares
          | nested | sequenceOf => simp [isSimple] at hsimple
          | custom => simp [isCustom] at hcustom
          | _ => cases hagain
  | mapping | sequence => simp [Value.isScalar] at hscalar
  | _ => exact h

/-- Naming keeps the normal form of a value as long as the checks that convert its parts
keep them. -/
theorem Normal.named (h : kind.Normal value) (hsound : kind.Sound)
    (hkept : ∀ found ∈ kind.supplied (value.mapSlots table.fillSlot place),
      found.1.Keeps found.2) : kind.Normal (value.mapSlots table.fillSlot place) := by
  induction h generalizing place with
  | @simple kind value hsimple hpresent hkeeps =>
      refine .simple hsimple (mt Value.mapSlots_eq_null_iff.mp hpresent) fun path name => ?_
      cases hcustom : kind.isCustom with
      | false => exact keeps_named hsimple hcustom (hkeeps path name)
      | true =>
          cases kind with
          | custom tag check =>
              exact keeps_custom_iff.mpr (hkept _ (List.mem_singleton.mpr rfl))
          | _ => simp [isCustom] at hcustom
  | @sequenceOf item items _ ih =>
      refine .sequenceOf fun part hpart => ?_
      obtain ⟨old, hold, _, rfl⟩ := Value.mem_mapItemSlots hpart
      exact ih old hold hsound.item fun found hfound =>
        hkept found (List.mem_flatMap.mpr ⟨_, hpart, hfound⟩)
  | @nested schema own entries hkeys hpresent habsent hconstraints ih =>
      have hschema : schema.Sound := hsound
      have hsame := Value.keys_mapEntrySlots (f := table.fillSlot) own entries
      have hnodup : (Table.keys (Value.mapEntrySlots table.fillSlot own entries)).Nodup :=
        hsame.symm ▸ hschema.names.sublist hkeys
      refine .nested (hsame.symm ▸ hkeys) ?_ ?_ ?_
      · intro name field part hfield hpart
        have hget := Table.get?_eq_of_mem hnodup hpart
        rw [Value.mapEntrySlots_eq_map] at hpart
        obtain ⟨⟨key, old⟩, hold, hpair⟩ := List.mem_map.mp hpart
        obtain ⟨rfl, rfl⟩ := Prod.mk.inj hpair
        have hnull := (hpresent key field old hfield hold).ne_null
        refine ih key field old hfield hold (hschema.kinds _ hfield) fun found hfound => ?_
        have hgiven : ((Node.mk own entries).mapSlots table.fillSlot).given? key =
            some (old.mapSlots table.fillSlot (own.field key)) :=
          Node.given?_eq_some_iff.mpr ⟨hget, mt Value.mapSlots_eq_null_iff.mp hnull⟩
        exact hkept found (Schema.mem_supplied_iff.mpr ⟨_, hfield, _, hgiven, hfound⟩)
      · intro name field hfield hlacks
        exact habsent name field hfield (hsame ▸ hlacks)
      · intro constraint hmem
        have hcontains : ((Node.mk own entries).mapSlots table.fillSlot).contains =
            (Node.mk own entries).contains := Node.contains_mapSlots
        exact (Constraint.violation?_congr hcontains).trans (hconstraints constraint hmem)

end Kind

namespace Schema

theorem Sound.normal (hsound : schema.Sound) (hchecks : ∀ check ∈ schema.checks, check.Settles)
    (h : schema.validate path raw = .ok node) : (Kind.nested schema).Normal node.toValue :=
  hsound.normal_of_validate (fun entry hmem _ _ _ _ hconvert =>
    (hsound.kinds entry hmem).normal_of_convert
      (fun check hcheck => hchecks check (mem_checks_of_mem hmem hcheck)) hconvert) h

/-- A named node is kept exactly if the checks that have converted its parts keep them. -/
theorem Sound.keeps_named_iff (hsound : schema.Sound)
    (hnormal : (Kind.nested schema).Normal node.toValue) :
    schema.Keeps path (node.mapSlots table.fillSlot) ↔
      ∀ found ∈ schema.supplied (node.mapSlots table.fillSlot), found.1.Keeps found.2 := by
  have hnamed : (node.mapSlots table.fillSlot).toValue =
      node.toValue.mapSlots table.fillSlot node.path := rfl
  rw [← Kind.keeps_nested_iff "", hnamed]
  exact ⟨hsound.supplied_kept, fun hkept => (hnormal.named hsound hkept).keeps hsound⟩

/-- Validation is idempotent: what has been validated is validated to itself, key by key
in the same order, wherever it is.  A node whose declarations have got their names is
validated to itself exactly if the supplied checks keep what they find in it; in
particular if no check has returned a declaration that waits for its name. -/
theorem validate_idempotent (hcomposed : schema.Composed)
    (hchecks : ∀ check ∈ schema.checks, check.Settles)
    (h : schema.validate path raw = .ok node) :
    schema.Keeps path node ∧
      ∀ (table : NameTable) (nodes : List Node) (index : Nat), nodes[index]? = some node →
        ∃ named, (table.resolveDeclarations nodes).nodes[index]? = some named ∧
          (schema.Keeps path named ↔ ∀ found ∈ schema.supplied named, found.1.Keeps found.2) ∧
          ((∀ found ∈ schema.supplied node, found.2.IsNamed) → schema.Keeps path named) := by
  have hsound := hcomposed.sound
  have hnormal := hsound.normal hchecks h
  have hkeeps : (Kind.nested schema).Keeps path "" node.toValue := hnormal.keeps hsound
  refine ⟨(Kind.keeps_nested_iff "").mp hkeeps, fun table nodes index hnode => ?_⟩
  refine ⟨node.mapSlots (table.resolveDeclarations nodes).table.fillSlot, ?_,
    hsound.keeps_named_iff hnormal, fun hready => (hsound.keeps_named_iff hnormal).mpr ?_⟩
  · exact (List.getElem?_map ..).trans (congrArg _ hnode)
  · intro found hmem
    have hvalue : found ∈ (Kind.nested schema).supplied (node.toValue.mapSlots
        (table.resolveDeclarations nodes).table.fillSlot node.path) := hmem
    obtain ⟨old, place, hold, hsame⟩ := hsound.mem_supplied_mapSlots hvalue
    rw [hsame, NameTable.mapSlots_of_isNamed (hready _ hold)]
    exact hsound.supplied_kept hkeeps _ hold

end Schema

/-- A check of pins, which have numbers. -/
def pin : Check where
  tag := "pin"
  run
    | .integer number => .ok (.integer number)
    | .text text =>
        match Text.readInt64? text with
        | some number => .ok (.integer number)
        | none => .error "not the number of a pin"
    | _ => .error "not a pin"

theorem settles_pin : pin.Settles := by
  intro given value h
  have hinteger : ∃ number, value = .integer number := by
    cases given with
    | integer number => exact ⟨number, (Except.ok.inj h).symm⟩
    | text text =>
        simp only [pin] at h
        split at h
        · next number _ => exact ⟨number, (Except.ok.inj h).symm⟩
        · simp at h
    | _ => simp [pin] at h
  obtain ⟨number, rfl⟩ := hinteger
  exact ⟨by simp, rfl⟩

/-- The fields of pumps: an identifier, some pins and a limit that has a default. -/
def pumpFields (limit : Value) : Table String Field :=
  [("id", .optional (.declareId "Pump" none)),
    ("pins", .mandatory (.sequenceOf (.custom "pin" pin))),
    ("limit", .withDefault (.nested ⟨"limit", [("max", .mandatory .anyInteger)], []⟩) limit)]

/-- The schema of pumps, with its default in normalized form. -/
def pumpSchema : Schema :=
  ⟨"pump", pumpFields (.mapping (Path.root.field "limit") [("max", .integer 10)]), []⟩

theorem composed_pump : pumpSchema.Composed := by
  have hlimit : Kind.Composed (.nested ⟨"limit", [("max", .mandatory .anyInteger)], []⟩) :=
    Schema.composed_of_extend [("max", .mandatory .anyInteger)] rfl rfl
  have hmade : (Schema.empty "pump").extend (pumpFields (.mapping [] [("max", .text "10")])) =
      .ok pumpSchema := by
    with_unfolding_all rfl
  refine .extend (.empty "pump") ?_ hmade
  simp only [pumpFields, List.mem_cons, List.not_mem_nil, or_false]
  rintro _ (rfl | rfl | rfl)
  · exact .simple rfl
  · exact .sequenceOf (.simple rfl)
  · exact hlimit

/-- A pump with one pin is validated to itself before and after it is named. -/
theorem pump_validates_again :
    ∃ node, pumpSchema.validate [.key "pump"] ⟨[], [("pins", .text "4")]⟩ = .ok node ∧
      pumpSchema.Keeps [.key "pump"] node ∧
      ∃ named, (NameTable.empty.resolveDeclarations [node]).nodes[0]? = some named ∧
        pumpSchema.Keeps [.key "pump"] named := by
  have hvalid : ∃ node, pumpSchema.validate [.key "pump"] ⟨[], [("pins", .text "4")]⟩ = .ok node ∧
      pumpSchema.supplied node = [(pin, .integer 4)] := ⟨_, rfl, rfl⟩
  obtain ⟨node, hvalid, hsupplied⟩ := hvalid
  have hchecks : ∀ check ∈ pumpSchema.checks, check.Settles := by
    intro check hmem
    obtain rfl := List.mem_singleton.mp hmem
    exact settles_pin
  obtain ⟨hkeeps, hresolved⟩ := Schema.validate_idempotent composed_pump hchecks hvalid
  obtain ⟨named, hnamed, _, hready⟩ := hresolved .empty [node] 0 rfl
  refine ⟨node, hvalid, hkeeps, named, hnamed, hready fun found hmem => ?_⟩
  rw [hsupplied] at hmem
  obtain rfl := List.mem_singleton.mp hmem
  exact fun path found hslot => absurd hslot List.not_mem_nil

/-- A check that returns a declaration that waits, whatever it is given. -/
def renew : Check := ⟨"renew", fun _ => .ok (.identifier (.automatic "Tag" none))⟩

def tagSchema : Schema := ⟨"tag", [("tag", .mandatory (.custom "renew" renew))], []⟩

theorem composed_tag : tagSchema.Composed := Schema.composed_of_extend tagSchema.fields rfl rfl

/-- A check that returns what it has returned before may still take the name from a
declaration that has got one.  The node it is in is validated to itself before it is named,
and afterwards to the node without the name. -/
theorem renew_settles_and_forgets :
    tagSchema.Composed ∧
      (∀ check ∈ tagSchema.checks, ∀ given value, check.run given = .ok value →
        value ≠ .null ∧ check.run value = .ok value) ∧
      ∃ node named, tagSchema.validate .root ⟨.root, [("tag", .bool true)]⟩ = .ok node ∧
        tagSchema.validate .root node = .ok node ∧
        (NameTable.empty.resolveDeclarations [node]).problems = [] ∧
        (NameTable.empty.resolveDeclarations [node]).nodes = [named] ∧
        tagSchema.validate .root named = .ok node ∧ named.content ≠ node.content ∧
        ¬ tagSchema.Keeps .root named := by
  refine ⟨composed_tag, ?_, _, _, rfl, rfl, rfl, rfl, rfl, nofun, nofun⟩
  intro check hmem given value h
  obtain rfl := List.mem_singleton.mp hmem
  exact Except.ok.inj h ▸ ⟨nofun, rfl⟩

end Firmware
