import Firmware.Proofs.Validation.Places
import Firmware.Proofs.Value.Reaching
/-!
Locations of validated mappings.  What is converted from a given value is located where it
stands.  A default was converted when its schema was made, and stays located where it was then:
below its own field, and nowhere else, wherever it is taken for an absent value.
-/

namespace Firmware

open Validation

/-- Whether a kind takes a default for an absent value: it leads to a mapping at a place of the
given value, and the mapping has no value under a key for which its schema has that default. -/
inductive Kind.Supplies (kind : Kind) (given : Value) : Path → String → Value → Prop
  | intro {front : Path} {schema : Schema} {raw : Node} {key : String} {field : Field}
      {default : Value} (leads : kind.Leads given front (.nested schema) raw.toValue)
      (declared : (key, field) ∈ schema.fields) (absent : raw.given? key = none)
      (supplied : field.default = some default) : Supplies kind given front key default

/-- Where a mapping is located that stands at a place of a converted value: there, or in a
default that was taken on the way to it. -/
inductive Kind.Locates (kind : Kind) (given : Value) (path steps : Path) (mapping : Node) : Prop
  | converted (located : mapping.path = path ++ steps)
  | supplied {front rest : Path} {key : String} {default : Value}
      (steps_eq : steps = front ++ .key key :: rest)
      (supplies : kind.Supplies given front key default)
      (reached : default.reach? rest = some mapping.toValue)
      (below : mapping.path <:+ .key key :: rest)

namespace Kind

variable {kind item : Kind} {schema : Schema} {given value part : Value} {path steps : Path}
  {mapping raw : Node} {name key : String} {field : Field} {position : Nat}

theorem Supplies.of_item {front : Path} {default : Value}
    (hpart : given.items[position]? = some part) (h : item.Supplies part front key default) :
    (sequenceOf item).Supplies given (.index position :: front) key default := by
  obtain ⟨hleads, hdeclared, habsent, hdefault⟩ := h
  exact ⟨.item hpart hleads, hdeclared, habsent, hdefault⟩

theorem Supplies.of_field {front : Path} {default : Value}
    (hdeclared : (name, field) ∈ schema.fields) (hpart : raw.given? name = some part)
    (h : field.kind.Supplies part front key default) :
    (nested schema).Supplies raw.toValue (.key name :: front) key default := by
  obtain ⟨hleads, hbelow, habsent, hdefault⟩ := h
  exact ⟨.field hdeclared hpart hleads, hbelow, habsent, hdefault⟩

/-- A test that holds in every field of a kind holds wherever the kind leads. -/
theorem Leads.every {inner : Kind} {found : Value} {ofKind : Kind → Bool}
    {ofDefault : Value → Bool} (h : kind.Leads value steps inner found)
    (hevery : kind.every ofKind ofDefault = true) : inner.every ofKind ofDefault = true := by
  induction h with
  | here => exact hevery
  | item _ _ ih => exact ih (by rwa [Kind.every] at hevery)
  | field hdeclared _ _ ih =>
      rw [Kind.every] at hevery
      exact ih (Schema.every_of_mem hevery hdeclared).2

/-- Where no default at any depth holds a mapping, none that is taken does. -/
theorem Supplies.isFlat {front : Path} {default : Value} (h : kind.Supplies given front key default)
    (hflat : kind.every (fun _ => true) Value.isFlat = true) : default.isFlat = true := by
  obtain ⟨hleads, hdeclared, _, hdefault⟩ := h
  have hschema := hleads.every hflat
  rw [Kind.every] at hschema
  exact (Schema.every_of_mem hschema hdeclared).1 _ hdefault

theorem Locates.of_item (hpart : given.items[position]? = some part)
    (h : item.Locates part (path.index position) steps mapping) :
    (sequenceOf item).Locates given path (.index position :: steps) mapping := by
  cases h with
  | converted hlocated => exact .converted (hlocated.trans (List.append_cons ..).symm)
  | supplied hsteps hsupplies hreached hbelow =>
      exact .supplied (congrArg _ hsteps) (hsupplies.of_item hpart) hreached hbelow

theorem Locates.of_field (hdeclared : (name, field) ∈ schema.fields)
    (hpart : raw.given? name = some part)
    (h : field.kind.Locates part (path.field name) steps mapping) :
    (nested schema).Locates raw.toValue path (.key name :: steps) mapping := by
  cases h with
  | converted hlocated => exact .converted (hlocated.trans (List.append_cons ..).symm)
  | supplied hsteps hsupplies hreached hbelow =>
      exact .supplied (congrArg _ hsteps) (hsupplies.of_field hdeclared hpart) hreached hbelow

/-- A mapping in a converted value is located at the end of the way to it. -/
theorem Locates.suffix (h : kind.Locates given path steps mapping) :
    mapping.path = path ++ steps ∨ mapping.path <:+ steps := by
  cases h with
  | converted hlocated => exact .inl hlocated
  | supplied hsteps _ _ hbelow => exact .inr (hbelow.trans (hsteps ▸ List.suffix_append ..))

/-- In a default that a field has, mappings are located below the name of the field. -/
theorem Locates.below_field (h : kind.Locates given (Path.root.field key) steps mapping) :
    mapping.path <:+ .key key :: steps := by
  rcases h.suffix with hlocated | hbelow
  · exact hlocated ▸ List.suffix_refl _
  · exact hbelow.trans (List.suffix_cons ..)

/-- Every mapping in a converted value is located, and has no key twice. -/
theorem Sound.locates (hsound : kind.Sound)
    (hcustom : kind.every (fun kind => !kind.isCustom) (fun _ => true) = true)
    (h : kind.convert path name given = .ok value)
    (hreach : value.reach? steps = some mapping.toValue) :
    kind.Locates given path steps mapping ∧ mapping.keys.Nodup := by
  induction hsound generalizing path name given value steps with
  | simple hsimple =>
      rw [every_of_isSimple hsimple, Bool.not_eq_true'] at hcustom
      have hscalar := isScalar_of_convert hsimple hcustom h
      obtain ⟨_, rfl⟩ := (Value.reach?_of_isScalar hscalar).mp hreach
      simp [Node.toValue, Value.isScalar] at hscalar
  | sequenceOf _ ih =>
      rw [every] at hcustom
      obtain ⟨items, rfl, _, hitems⟩ := convert_sequenceOf_eq_ok h
      rcases Value.reach?_sequence_eq_some_iff.mp hreach with ⟨_, hself⟩ |
        ⟨position, rest, part, rfl, hpart, hrest⟩
      · simp [Node.toValue] at hself
      · obtain ⟨old, hold, hconvert⟩ := hitems position part hpart
        obtain ⟨hlocates, hkeys⟩ := ih hcustom hconvert hrest
        exact ⟨hlocates.of_item hold, hkeys⟩
  | @nested schema hnames hkinds hdefaults ih =>
      rw [every] at hcustom
      obtain ⟨raw, node, rfl, hvalid, rfl⟩ := convert_nested_eq_ok h
      rcases Value.reach?_mapping_eq_some_iff.mp hreach with ⟨rfl, hself⟩ |
        ⟨key, rest, part, rfl, hpart, hrest⟩
      · obtain ⟨hpath, hentries⟩ := Value.mapping.inj hself
        refine ⟨.converted ?_, ?_⟩
        · rw [← hpath, Schema.path_of_validate hvalid, List.append_nil]
        · rw [Node.keys, ← hentries]
          exact hnames.sublist (Schema.keys_sublist_of_validate hvalid)
      · obtain ⟨field, hfield, hresult⟩ :=
          (Schema.mem_entries_of_validate hvalid).mp (Table.mem_of_get?_eq hpart)
        have hfree := (Schema.every_of_mem hcustom hfield).2
        rcases Field.result_cases_given hresult with ⟨old, hgiven, hconvert⟩ |
          ⟨hgiven, hdefault | ⟨_, _, _, rfl⟩⟩
        · obtain ⟨hlocates, hkeys⟩ := ih (key, field) hfield hfree hconvert hrest
          exact ⟨hlocates.of_field hfield hgiven, hkeys⟩
        · -- The default was converted below the root, by the kind of its field.
          obtain ⟨old, hconvert⟩ := hdefaults (key, field) hfield part hdefault
          obtain ⟨hlocates, hkeys⟩ := ih (key, field) hfield hfree hconvert hrest
          exact ⟨.supplied rfl ⟨.here _ _, hfield, hgiven, hdefault⟩ hrest
            hlocates.below_field, hkeys⟩
        · have hmapping := (Value.reach?_of_isScalar rfl).mp hrest
          simp [Node.toValue] at hmapping

end Kind

namespace Schema

variable {schema : Schema} {path : Path} {raw node : Node}

/-- What a validated node and the mappings and slots in it are located at.  A mapping is located
where it stands, or in a default that was taken for an absent value.  If no such default holds a
mapping, then every mapping is located where it stands, and the slots are visited at the places
at which they stand, and therefore at different ones. -/
theorem locations_of_validate (hcomposed : schema.Composed) (hcustom : schema.isCustomFree = true)
    (h : schema.validate path raw = .ok node) :
    node.path = path ∧
      (∀ steps (mapping : Node), node.toValue.reach? steps = some mapping.toValue →
        (Kind.nested schema).Locates raw.toValue path steps mapping) ∧
      ((∀ front key default, (Kind.nested schema).Supplies raw.toValue front key default →
          default.isFlat = true) →
        (∀ steps (mapping : Node), node.toValue.reach? steps = some mapping.toValue →
          mapping.path = path ++ steps) ∧
        (∀ location slot, (location, slot) ∈ node.slots ↔
          ∃ steps, node.toValue.reach? steps = some (.identifier slot) ∧
            location = path ++ steps) ∧
        (node.slots.map Prod.fst).Nodup) := by
  have hlocates : ∀ steps (mapping : Node), node.toValue.reach? steps = some mapping.toValue →
      (Kind.nested schema).Locates raw.toValue path steps mapping ∧ mapping.keys.Nodup :=
    fun steps mapping hreach => Kind.Sound.locates hcomposed.sound hcustom
      (Kind.convert_nested_of_validate h schema.name) hreach
  refine ⟨path_of_validate h, fun steps mapping hreach => (hlocates steps mapping hreach).1, ?_⟩
  intro hflat
  have hlocated : ∀ steps (mapping : Node), node.toValue.reach? steps = some mapping.toValue →
      mapping.path = path ++ steps := by
    intro steps mapping hreach
    cases (hlocates steps mapping hreach).1 with
    | converted hlocated => exact hlocated
    | supplied _ hsupplies hreached _ =>
        have := Value.isFlat_of_reach? (hflat _ _ _ hsupplies) hreached
        simp [Node.toValue, Value.isFlat] at this
  have hplace : node.toValue.InPlace path :=
    Value.ReachesInPlace.inPlace fun steps own entries hreach =>
      ⟨hlocated steps ⟨own, entries⟩ hreach, (hlocates steps ⟨own, entries⟩ hreach).2⟩
  have hslots : node.slots = node.toValue.slots path := by
    rfl
  refine ⟨hlocated, ?_, ?_⟩
  · intro location slot
    rw [hslots, hplace.mem_slots_iff]
  · rw [hslots]
    exact hplace.spread.distinct

def shelf : Schema := ⟨"shelf", [("id", .optional (.declareId "Shelf" none))], []⟩

/-- A rack, which may have a shelf by default. -/
def rack (default : Option Value) : Schema :=
  ⟨"rack", [("shelf", ⟨.nested shelf, false, default⟩)], []⟩

theorem composed_rack (given converted : Option Value)
    (hmade : (Schema.empty "rack").extend [("shelf", ⟨.nested shelf, false, given⟩)] =
      .ok (rack converted)) : (rack converted).Composed := by
  have hshelf : shelf.Composed :=
    composed_of_extend [("id", .optional (.declareId "Shelf" none))] rfl rfl
  refine .extend (.empty "rack") (fun entry hmem => ?_) hmade
  rw [List.mem_singleton.mp hmem]
  exact hshelf

/-- The shelf of a rack for which an empty mapping is the default. -/
def defaultShelf : Node :=
  ⟨Path.root.field "shelf", [("id", .identifier (.automatic "Shelf" none))]⟩

def rackPath (position : Nat) : Path := (Path.root.field "rack").index position

/-- A shelf that is given is located in its rack. -/
theorem locations_of_shelf :
    ∃ node, (rack none).validate (rackPath 0) ⟨rackPath 0, [("shelf", .mapping [] [])]⟩ = .ok node ∧
      ∀ steps (mapping : Node), node.toValue.reach? steps = some mapping.toValue →
        mapping.path = rackPath 0 ++ steps := by
  have hvalid : ∃ node,
      (rack none).validate (rackPath 0) ⟨rackPath 0, [("shelf", .mapping [] [])]⟩ = .ok node :=
    ⟨_, rfl⟩
  obtain ⟨node, hvalid⟩ := hvalid
  refine ⟨node, hvalid, ?_⟩
  refine ((locations_of_validate (composed_rack none none rfl) rfl hvalid).2.2 ?_).1
  exact fun _ _ _ hsupplies => hsupplies.isFlat rfl

/-- A shelf that is taken by default is not, and those of two racks are visited at one
location. -/
theorem locations_of_defaultShelf :
    (rack (some defaultShelf.toValue)).Composed ∧
      (rack (some defaultShelf.toValue)).isCustomFree = true ∧
      ∃ first second location slot,
        (rack (some defaultShelf.toValue)).validate (rackPath 0) (.empty (rackPath 0)) = .ok first ∧
        (rack (some defaultShelf.toValue)).validate (rackPath 1) (.empty (rackPath 1)) =
          .ok second ∧
        first.toValue.reach? [.key "shelf"] = some defaultShelf.toValue ∧
        defaultShelf.path ≠ rackPath 0 ++ [.key "shelf"] ∧
        (location, slot) ∈ first.slots ∧ (location, slot) ∈ second.slots := by
  refine ⟨composed_rack (some (.mapping [] [])) _ rfl, rfl, _, _,
    (Path.root.field "shelf").field "id", .automatic "Shelf" none, rfl, rfl, rfl, by decide, ?_, ?_⟩
  all_goals exact List.mem_singleton.mpr rfl

end Schema

end Firmware
