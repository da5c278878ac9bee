import Firmware.Proofs.Validation.Places
import Firmware.Proofs.Validation.Reports
import Firmware.Proofs.Value.Json
import Firmware.Proofs.Value.Spread
/-!
Places of problems.  Every problem of a validation is reported at a place to which the
schema leads, and the value there is its cause.  What is reported at a place and below it is
just what the value there gives cause for, whatever else is wrong.
-/

namespace Firmware

open Validation

namespace Problem

def isBelow (place : Path) (problem : Problem) : Bool :=
  problem.path.any fun path => place.isPrefixOf path

def isAt (kind : ProblemKind) (place : Path) (problem : Problem) : Bool :=
  problem.kind = kind && problem.path = some place

end Problem

namespace Schema

/-- The fields that a raw node lacks although they have to be there. -/
def lacking (schema : Schema) (raw : Node) : List String :=
  Table.keys (schema.fields.filter fun entry =>
    entry.2.required && (raw.given? entry.1).isNone)

/-- The keys of a raw node that are no fields. -/
def undeclared (schema : Schema) (raw : Node) : List String :=
  raw.keys.filter fun key => !Table.contains schema.fields key

end Schema

/-- The problems that a value of a kind gives cause for at its own place: in a mapping, what
it lacks, keys that are no fields, or constraints that are violated although all of its
fields and keys are as they should be; and in any value, that it is refused. -/
inductive Kind.Causes (place : Path) : Kind → Value → Problem → Prop
  | missingField {schema : Schema} {own : Path} {entries : List (String × Value)}
      {name : String} {field : Field} (declared : (name, field) ∈ schema.fields)
      (required : field.required = true) (absent : (Node.mk own entries).given? name = none) :
      Causes place (.nested schema) (.mapping own entries) (.missingField place name)
  | unknownField {schema : Schema} {own : Path} {entries : List (String × Value)}
      {key : String} (present : key ∈ Table.keys entries)
      (undeclared : key ∉ Table.keys schema.fields) :
      Causes place (.nested schema) (.mapping own entries) (.unknownField place key)
  | invalidValue {kind : Kind} {given : Value} {name : String} {refusal : Refusal}
      (refused : kind.convert place name given = .error [.invalidValue place name refusal]) :
      Causes place kind given (.invalidValue place name refusal)
  | constraintViolation {schema : Schema} {own : Path} {entries : List (String × Value)}
      {problem : Problem} (faultless : schema.faults place ⟨own, entries⟩ = [])
      (violated : problem ∈ schema.breaches place ⟨own, entries⟩) :
      Causes place (.nested schema) (.mapping own entries) problem

/-- What it takes for problems to be those of a raw node at a location.  Each is reported at
a place to which the schema leads, by a cause that is there; where a constraint is violated,
nothing else is wrong at that place or below it; and of every mapping it is told just once
of each field that it lacks, and of each key that is no field. -/
structure Schema.Places (schema : Schema) (path : Path) (raw : Node) (problems : List Problem) :
    Prop where
  caused : ∀ problem ∈ problems, ∃ steps inner found,
    (Kind.nested schema).Leads raw.toValue steps inner found ∧
      raw.toValue.follow? steps = some found ∧ problem.path = some (path ++ steps) ∧
      inner.Causes (path ++ steps) found problem
  alone : ∀ problem ∈ problems, ∀ place, problem.path = some place →
    problem.kind = .constraintViolation → ∀ other ∈ problems, other.isBelow place = true →
      other.isAt .constraintViolation place = true
  missing : ∀ steps inner own entries,
    (Kind.nested schema).Leads raw.toValue steps (.nested inner) (.mapping own entries) →
      problems.filter (·.isAt .missingField (path ++ steps)) =
          (inner.lacking ⟨own, entries⟩).map (.missingField (path ++ steps)) ∧
        (inner.lacking ⟨own, entries⟩).Nodup
  unknown : ∀ steps inner own entries,
    (Kind.nested schema).Leads raw.toValue steps (.nested inner) (.mapping own entries) →
      problems.filter (·.isAt .unknownField (path ++ steps)) =
          (inner.undeclared ⟨own, entries⟩).map (.unknownField (path ++ steps)) ∧
        (inner.undeclared ⟨own, entries⟩).Nodup

/-- A test that only passes one of the parts of a list passes what that part holds. -/
theorem filter_flatMap_of_nodup {α β κ : Type} {list : List α} {key : α → κ}
    (parts : α → List β) (test : β → Bool) {item : α} (hnodup : (list.map key).Nodup)
    (hmem : item ∈ list)
    (hothers : ∀ other ∈ list, key other ≠ key item → (parts other).filter test = []) :
    (list.flatMap parts).filter test = (parts item).filter test := by
  induction list with
  | nil => exact absurd hmem List.not_mem_nil
  | cons first rest ih =>
      obtain ⟨hnew, hrest⟩ := List.nodup_cons.mp hnodup
      rw [List.flatMap_cons, List.filter_append]
      rcases List.mem_cons.mp hmem with rfl | hlater
      · have hnone : (rest.flatMap parts).filter test = [] := by
          rw [List.filter_flatMap, List.flatMap_eq_nil_iff]
          intro other hother
          refine hothers other (.tail _ hother) fun hsame => ?_
          exact hnew (List.mem_map.mpr ⟨other, hother, hsame⟩)
        rw [hnone, List.append_nil]
      · have hne : key first ≠ key item := fun hsame =>
          hnew (List.mem_map.mpr ⟨item, hlater, hsame.symm⟩)
        rw [hothers first List.mem_cons_self hne, List.nil_append]
        exact ih hrest hlater fun other hother => hothers other (.tail _ hother)

variable {path place : Path} {name : String} {raw : Node} {kind inner : Kind} {schema : Schema}
  {given found : Value} {steps : Path} {problem : Problem}

namespace Problem

theorem isBelow_eq_true_iff :
    problem.isBelow place = true ↔ ∃ path, problem.path = some path ∧ place <+: path := by
  rw [isBelow, Option.any_eq_true]
  simp only [List.isPrefixOf_iff_prefix]

theorem isAt_eq_true_iff {kind : ProblemKind} :
    problem.isAt kind place = true ↔ problem.kind = kind ∧ problem.path = some place := by
  rw [isAt, Bool.and_eq_true, decide_eq_true_iff, decide_eq_true_iff]

theorem isBelow_of_isAt {kind : ProblemKind} (h : problem.isAt kind place = true) :
    problem.isBelow place = true :=
  isBelow_eq_true_iff.mpr ⟨place, (isAt_eq_true_iff.mp h).2, List.prefix_rfl⟩

theorem isBelow_of_append (h : problem.isBelow (place ++ steps) = true) :
    problem.isBelow place = true := by
  obtain ⟨path, hpath, hprefix⟩ := isBelow_eq_true_iff.mp h
  exact isBelow_eq_true_iff.mpr ⟨path, hpath, (List.prefix_append place steps).trans hprefix⟩

/-- What is reported at a place is not reported after a step from it. -/
theorem isBelow_step_eq_false {step : Segment} (h : problem.path = some place) :
    problem.isBelow (place ++ [step]) = false := by
  rw [Bool.eq_false_iff]
  intro hbelow
  obtain ⟨path, hpath, hprefix⟩ := isBelow_eq_true_iff.mp hbelow
  obtain rfl := Option.some.inj (h.symm.trans hpath)
  have hlength := hprefix.length_le
  rw [List.length_append, List.length_singleton] at hlength
  omega

/-- Of what is reported below one place, a test for places that part from it passes
nothing. -/
theorem filter_eq_nil_of_parts {problems : List Problem} {test : Problem → Bool}
    {left right : Path} (hparts : left.Parts right)
    (hbelow : ∀ problem ∈ problems, problem.isBelow left = true)
    (htest : ∀ problem, test problem = true → problem.isBelow right = true) :
    problems.filter test = [] := by
  rw [List.filter_eq_nil_iff]
  intro problem hmem hpass
  obtain ⟨path, hpath, hleft⟩ := isBelow_eq_true_iff.mp (hbelow problem hmem)
  obtain ⟨path', hpath', hright⟩ := isBelow_eq_true_iff.mp (htest problem hpass)
  obtain rfl := Option.some.inj (hpath.symm.trans hpath')
  exact hparts.not_below hleft hright

end Problem

namespace Kind

/-- Whether a problem that is reported of a value comes from a cause at a place to which the
kind leads, and is reported of the value there too. -/
def Accounts (kind : Kind) (path : Path) (given : Value) (problem : Problem) : Prop :=
  ∃ steps inner found label, kind.Leads given steps inner found ∧
    problem.path = some (path ++ steps) ∧ inner.Causes (path ++ steps) found problem ∧
    problem ∈ reported (inner.convert (path ++ steps) label found)

theorem Accounts.here (hpath : problem.path = some path) (hcause : kind.Causes path given problem)
    (hmem : problem ∈ reported (kind.convert path name given)) :
    kind.Accounts path given problem := by
  refine ⟨[], kind, given, name, .here kind given, ?_⟩
  rw [List.append_nil]
  exact ⟨hpath, hcause, hmem⟩

theorem Accounts.item {item : Kind} {part : Value} {position : Nat}
    (hlisted : given.items[position]? = some part)
    (h : item.Accounts (path.index position) part problem) :
    (Kind.sequenceOf item).Accounts path given problem := by
  obtain ⟨steps, inner, found, label, hleads, hreported⟩ := h
  rw [Path.index, List.append_assoc] at hreported
  exact ⟨.index position :: steps, inner, found, label, .item hlisted hleads, hreported⟩

theorem Accounts.field {field : Field} (hdeclared : (name, field) ∈ schema.fields)
    (hgiven : raw.given? name = some given)
    (h : field.kind.Accounts (path.field name) given problem) :
    (Kind.nested schema).Accounts path raw.toValue problem := by
  obtain ⟨steps, inner, found, label, hleads, hreported⟩ := h
  rw [Path.field, List.append_assoc] at hreported
  exact ⟨.key name :: steps, inner, found, label, .field hdeclared hgiven hleads, hreported⟩

/-- Everything that is reported is accounted for. -/
theorem Sound.accounts (hsound : kind.Sound)
    (hmem : problem ∈ reported (kind.convert path name given)) :
    kind.Accounts path given problem := by
  induction hsound generalizing path name given with
  | @simple kind hsimple =>
      obtain ⟨result, hresult⟩ := exists_located_of_isSimple hsimple name given
      have hlocated := hmem
      rw [hresult] at hlocated
      obtain ⟨refusal, hrefused, rfl⟩ := mem_reported_located hlocated
      exact .here rfl (.invalidValue ((hresult path).trans hrefused)) hmem
  | sequenceOf _ ih =>
      have hparts := hmem
      rw [reported_sequenceOf] at hparts
      obtain ⟨⟨part, position⟩, hpart, hreported⟩ := List.mem_flatMap.mp hparts
      exact .item (List.mem_zipIdx_iff_getElem?.mp hpart) (ih hreported)
  | @nested schema _ _ _ ih =>
      cases hnode : given.node? with
      | none =>
          have hrefused := convert_nested_of_no_mapping schema path name hnode
          have hrefusal := hmem
          rw [hrefused] at hrefusal
          obtain rfl := List.mem_singleton.mp hrefusal
          exact .here rfl (.invalidValue hrefused) hmem
      | some raw =>
          obtain rfl := Value.eq_toValue_of_node? hnode
          have hreported := hmem
          rw [reported_nested, Schema.reported_validate] at hreported
          split at hreported
          · next hfaultless =>
              exact .here (Schema.mem_breaches hreported).2
                (.constraintViolation hfaultless hreported) hmem
          · rcases Schema.mem_faults hreported with ⟨name, field, given, hfield, hgiven, hvalue⟩ |
              ⟨name, field, hfield, hrequired, habsent, rfl⟩ | ⟨key, hkey, hundeclared, rfl⟩
            · exact .field hfield hgiven (ih _ hfield hvalue)
            · exact .here rfl (.missingField hfield hrequired habsent) hmem
            · exact .here rfl (.unknownField hkey hundeclared) hmem

theorem Sound.isBelow_of_reported (hsound : kind.Sound)
    (hmem : problem ∈ reported (kind.convert path name given)) : problem.isBelow path = true := by
  obtain ⟨steps, _, _, _, _, hpath, _⟩ := hsound.accounts hmem
  exact Problem.isBelow_eq_true_iff.mpr ⟨_, hpath, List.prefix_append path steps⟩

theorem Leads.sound (h : kind.Leads given steps inner found) (hsound : kind.Sound) :
    inner.Sound := by
  induction h with
  | here => exact hsound
  | item _ _ ih => exact ih hsound.item
  | @field schema _ _ _ _ _ _ _ _ hdeclared _ _ ih =>
      have hschema : schema.Sound := hsound
      exact ih (hschema.kinds _ hdeclared)

theorem Leads.isRead (h : kind.Leads given steps inner found) (hread : given.IsRead) :
    found.IsRead := by
  induction h with
  | here => exact hread
  | item hlisted _ ih => exact ih (hread.of_mem_items (List.mem_of_getElem? hlisted))
  | field _ hgiven _ ih => exact ih (hread.of_get? rfl (Node.given?_eq_some_iff.mp hgiven).1)

end Kind

/-- A test that no problem of a constraint passes only sees fields and keys. -/
theorem Schema.filter_reported_validate {test : Problem → Bool}
    (htest : ∀ problem ∈ schema.breaches path raw, test problem = false) :
    (reported (schema.validate path raw)).filter test = (schema.faults path raw).filter test := by
  rw [reported_validate]
  split
  · next hfaultless =>
      have hnone : (schema.breaches path raw).filter test = [] :=
        List.filter_eq_nil_iff.mpr fun problem hmem => by simp [htest problem hmem]
      rw [hfaultless, hnone, List.filter_nil]
  · rfl

/-- A test for places below a field that is given only sees what is reported of its value. -/
theorem Schema.Sound.filter_faults {test : Problem → Bool} {field : Field}
    (hsound : schema.Sound) (hdeclared : (name, field) ∈ schema.fields)
    (hgiven : raw.given? name = some given)
    (htest : ∀ problem, test problem = true → problem.isBelow (path.field name) = true) :
    (schema.faults path raw).filter test =
      (reported (field.kind.convert (path.field name) name given)).filter test := by
  have hhere : ∀ problem : Problem, problem.path = some path → test problem = false := by
    intro problem hpath
    have hbelow : problem.isBelow (path.field name) = false := Problem.isBelow_step_eq_false hpath
    exact Bool.eq_false_iff.mpr fun hpass => Bool.eq_false_iff.mp hbelow (htest problem hpass)
  have hkeys : (unknownKeys raw schema.fields path).filter test = [] := by
    rw [List.filter_eq_nil_iff]
    intro problem hmem
    obtain ⟨key, _, _, rfl⟩ := mem_unknownKeys hmem
    exact Bool.not_eq_true _ ▸ hhere _ rfl
  have hfields := filter_flatMap_of_nodup
    (fun entry => reported (entry.2.result path raw entry.1)) test hsound.names hdeclared
  rw [faults, List.filter_append, hkeys, List.append_nil, hfields,
    Field.reported_result_of_given hgiven]
  intro other hother hne
  cases hvalue : raw.given? other.1 with
  | some value =>
      rw [Field.reported_result_of_given hvalue]
      have hparts : (path.field other.1).Parts (path.field name) :=
        Path.parts_of_step_ne path fun hstep => hne (Segment.key.inj hstep)
      exact Problem.filter_eq_nil_of_parts hparts
        (fun problem hmem => (hsound.kinds _ hother).isBelow_of_reported hmem) htest
  | none =>
      rw [Field.reported_result_of_lacking hvalue]
      split
      · rw [List.filter_singleton, hhere _ rfl]
        rfl
      · rfl

/-- A test for places below one to which a kind leads only sees what is reported of the value
there. -/
theorem Kind.Leads.filter_reported {test : Problem → Bool}
    (h : kind.Leads given steps inner found) (hsound : kind.Sound) (path : Path) (name : String)
    (htest : ∀ problem, test problem = true → problem.isBelow (path ++ steps) = true) :
    ∃ label, (reported (kind.convert path name given)).filter test =
      (reported (inner.convert (path ++ steps) label found)).filter test := by
  induction h generalizing path name with
  | here => exact ⟨name, by rw [List.append_nil]⟩
  | @item item _ value part _ position steps hlisted _ ih =>
      have hitem : item.Sound := hsound.item
      have hsteps : path ++ .index position :: steps = path.index position ++ steps := by
        rw [Path.index, List.append_assoc, List.singleton_append]
      rw [hsteps] at htest ⊢
      obtain ⟨label, hinner⟩ := ih hitem (path.index position) name htest
      refine ⟨label, ?_⟩
      have hpositions : (value.items.zipIdx.map Prod.snd).Nodup := by
        rw [List.zipIdx_map_snd]
        exact List.nodup_range'
      rw [← hinner, reported_sequenceOf]
      have hpart : (part, position) ∈ value.items.zipIdx :=
        List.mem_zipIdx_iff_getElem?.mpr hlisted
      refine filter_flatMap_of_nodup _ test hpositions hpart fun other _ hne => ?_
      have hparts : (path.index other.2).Parts (path.index position) :=
        Path.parts_of_step_ne path fun hstep => hne (Segment.index.inj hstep)
      exact Problem.filter_eq_nil_of_parts hparts
        (fun problem hmem => hitem.isBelow_of_reported hmem)
        fun problem hpass => Problem.isBelow_of_append (htest problem hpass)
  | @field schema _ own entries key field given _ steps hdeclared hgiven _ ih =>
      have hschema : schema.Sound := hsound
      have hsteps : path ++ .key key :: steps = path.field key ++ steps := by
        rw [Path.field, List.append_assoc, List.singleton_append]
      rw [hsteps] at htest ⊢
      obtain ⟨label, hinner⟩ := ih (hschema.kinds _ hdeclared) (path.field key) key htest
      refine ⟨label, ?_⟩
      have hbelow : ∀ problem, test problem = true → problem.isBelow (path.field key) = true :=
        fun problem hpass => Problem.isBelow_of_append (htest problem hpass)
      have hbreaches : ∀ problem ∈ schema.breaches path ⟨own, entries⟩, test problem = false := by
        intro problem hmem
        have hnot : problem.isBelow (path.field key) = false :=
          Problem.isBelow_step_eq_false (Schema.mem_breaches hmem).2
        exact Bool.eq_false_iff.mpr fun hpass => Bool.eq_false_iff.mp hnot (hbelow problem hpass)
      rw [← hinner, ← hschema.filter_faults hdeclared hgiven hbelow,
        ← Schema.filter_reported_validate hbreaches]
      exact congrArg _ (reported_nested schema path name ⟨own, entries⟩)

namespace Schema

/-- What is reported of the value of a field is not reported where the mapping is. -/
theorem Sound.filter_given_eq_nil {field : Field} (hsound : schema.Sound)
    (hdeclared : (name, field) ∈ schema.fields) (sort : ProblemKind) :
    (reported (field.kind.convert (path.field name) name given)).filter (·.isAt sort path) =
      [] := by
  rw [List.filter_eq_nil_iff]
  intro problem hmem hat
  have hbelow : problem.isBelow (path.field name) = true :=
    (hsound.kinds _ hdeclared).isBelow_of_reported hmem
  have hnot : problem.isBelow (path.field name) = false :=
    Problem.isBelow_step_eq_false (Problem.isAt_eq_true_iff.mp hat).2
  rw [hnot] at hbelow
  contradiction

/-- What is missing where the mapping is, are the fields that it lacks. -/
theorem Sound.filter_missing (hsound : schema.Sound) :
    (schema.faults path raw).filter (·.isAt .missingField path) =
      (schema.lacking raw).map (.missingField path) := by
  have hkeys : (unknownKeys raw schema.fields path).filter (·.isAt .missingField path) = [] := by
    rw [List.filter_eq_nil_iff]
    intro problem hmem
    obtain ⟨key, _, _, rfl⟩ := mem_unknownKeys hmem
    simp [Problem.isAt, Problem.unknownField]
  have hfield : ∀ entry ∈ schema.fields,
      (reported (entry.2.result path raw entry.1)).filter (·.isAt .missingField path) =
        if entry.2.required && (raw.given? entry.1).isNone then [.missingField path entry.1]
        else [] := by
    intro entry hmem
    cases hgiven : raw.given? entry.1 with
    | some given =>
        rw [Field.reported_result_of_given hgiven, hsound.filter_given_eq_nil hmem]
        simp
    | none =>
        rw [Field.reported_result_of_lacking hgiven]
        cases entry.2.required <;> simp [Problem.isAt, Problem.missingField]
  rw [faults, List.filter_append, hkeys, List.append_nil, List.filter_flatMap, lacking, Table.keys,
    List.map_map]
  generalize schema.fields = fields at hfield
  induction fields with
  | nil => rfl
  | cons entry rest ih =>
      rw [List.flatMap_cons, ih fun other hmem => hfield other (.tail _ hmem),
        hfield entry List.mem_cons_self, List.filter_cons]
      split <;> rfl

/-- What is unknown where the mapping is, are its keys that are no fields. -/
theorem Sound.filter_unknown (hsound : schema.Sound) :
    (schema.faults path raw).filter (·.isAt .unknownField path) =
      (schema.undeclared raw).map (.unknownField path) := by
  have hfields : (schema.fields.flatMap fun entry =>
      reported (entry.2.result path raw entry.1)).filter (·.isAt .unknownField path) = [] := by
    rw [List.filter_flatMap, List.flatMap_eq_nil_iff]
    intro entry hmem
    cases hgiven : raw.given? entry.1 with
    | some given => rw [Field.reported_result_of_given hgiven, hsound.filter_given_eq_nil hmem]
    | none =>
        rw [Field.reported_result_of_lacking hgiven]
        cases entry.2.required <;> simp [Problem.isAt, Problem.missingField]
  have hkeys : (unknownKeys raw schema.fields path).filter (·.isAt .unknownField path) =
      unknownKeys raw schema.fields path := by
    rw [List.filter_eq_self]
    intro problem hmem
    obtain ⟨key, _, _, rfl⟩ := mem_unknownKeys hmem
    simp [Problem.isAt, Problem.unknownField]
  rw [faults, List.filter_append, hfields, List.nil_append, hkeys, unknownKeys, undeclared]

/-- Of a mapping to which a schema leads, problems of fields and keys are reported as if it
stood alone. -/
theorem Sound.filter_of_leads {inner : Schema} {own : Path} {entries : List (String × Value)}
    (hsound : schema.Sound) (sort : ProblemKind) (hsort : sort ≠ .constraintViolation)
    (h : (Kind.nested schema).Leads raw.toValue steps (.nested inner) (.mapping own entries)) :
    (reported (schema.validate path raw)).filter (·.isAt sort (path ++ steps)) =
      (inner.faults (path ++ steps) ⟨own, entries⟩).filter (·.isAt sort (path ++ steps)) := by
  obtain ⟨label, hfilter⟩ := h.filter_reported hsound path schema.name
    fun _ hat => Problem.isBelow_of_isAt hat
  have hwhole := Kind.reported_nested schema path schema.name raw
  have hinner := Kind.reported_nested inner (path ++ steps) label ⟨own, entries⟩
  rw [← hwhole, hfilter, ← filter_reported_validate]
  · exact congrArg _ hinner
  · intro problem hmem
    rw [Problem.isAt, (mem_breaches hmem).1]
    simp [hsort.symm]

/-- Every problem of a validation is reported where its cause is, and none is left out. -/
theorem places_reported {origin : Path} {json : Json} (hcomposed : schema.Composed)
    (hread : Node.ofJson? origin json = some raw) :
    schema.Places path raw (reported (schema.validate path raw)) := by
  have hsound := hcomposed.sound
  have hraw := Node.isRead_of_ofJson? hread
  have haccounts : ∀ problem ∈ reported (schema.validate path raw),
      (Kind.nested schema).Accounts path raw.toValue problem := by
    intro problem hmem
    rw [← Kind.reported_nested schema path schema.name] at hmem
    exact Kind.Sound.accounts hsound hmem
  refine ⟨?_, ?_, ?_, ?_⟩
  · intro problem hmem
    obtain ⟨steps, inner, found, _, hleads, hpath, hcause, _⟩ := haccounts problem hmem
    exact ⟨steps, inner, found, hleads, hleads.follow?_eq, hpath, hcause⟩
  · intro problem hmem place hplace hkind other hother hbelow
    obtain ⟨steps, inner, found, _, hleads, hpath, hcause, _⟩ := haccounts problem hmem
    obtain rfl := Option.some.inj (hplace.symm.trans hpath)
    cases hcause with
    | missingField | unknownField | invalidValue => cases hkind
    | @constraintViolation inner own entries _ hfaultless _ =>
        obtain ⟨label, hfilter⟩ := hleads.filter_reported hsound path schema.name fun _ h => h
        have hseen : other ∈ (reported ((Kind.nested schema).convert path schema.name
            raw.toValue)).filter (·.isBelow (path ++ steps)) := by
          rw [Kind.reported_nested]
          exact List.mem_filter.mpr ⟨hother, hbelow⟩
        rw [hfilter] at hseen
        have hinner := (List.mem_filter.mp hseen).1
        change other ∈ reported ((Kind.nested inner).convert (path ++ steps) label
          (Node.mk own entries).toValue) at hinner
        rw [Kind.reported_nested, reported_validate, if_pos hfaultless] at hinner
        exact Problem.isAt_eq_true_iff.mpr (mem_breaches hinner)
  · intro steps inner own entries hleads
    have hinner : inner.Sound := hleads.sound hsound
    refine ⟨?_, hinner.names.sublist ?_⟩
    · rw [hsound.filter_of_leads .missingField (by decide) hleads, hinner.filter_missing]
    · exact List.filter_sublist.map _
  · intro steps inner own entries hleads
    have hinner : inner.Sound := hleads.sound hsound
    have hkeys : (Node.mk own entries).keys.Nodup := (hleads.isRead hraw).nodup_keys rfl
    refine ⟨?_, hkeys.filter _⟩
    rw [hsound.filter_of_leads .unknownField (by decide) hleads, hinner.filter_unknown]

end Schema

def roomSchema : Schema :=
  ⟨"room", [("area", .mandatory (.integer 1 100)), ("doors", .optional .text)], []⟩

def houseSchema : Schema :=
  ⟨"house", [("owner", .optional .text), ("rooms", .mandatory (.sequenceOf (.nested roomSchema)))],
    []⟩

theorem composed_house : houseSchema.Composed := by
  have hroom : roomSchema.Composed := Schema.composed_of_extend
    [("area", .mandatory (.integer 1 100)), ("doors", .optional .text)] rfl
    (show (Schema.empty "room").extend _ = .ok roomSchema from rfl)
  have hmade : (Schema.empty "house").extend [("owner", .optional .text),
      ("rooms", .mandatory (.sequenceOf (.nested roomSchema)))] = .ok houseSchema := rfl
  refine .extend (.empty "house") ?_ hmade
  simp only [List.mem_cons, List.not_mem_nil, or_false]
  rintro _ (rfl | rfl)
  · exact .simple rfl
  · exact .sequenceOf hroom

/-- A house with two rooms and a garage. -/
def houseJson : Json :=
  .object [("garage", .bool true), ("rooms", .array
    [.object [("area", .integer 500)], .object [("windows", .integer 3), ("doors", .null)]])]

/-- The rooms have faults that are told apart by their places, and the garage is unknown. -/
theorem house_places : ∃ raw problems,
    Node.ofJson? .root houseJson = some raw ∧
      houseSchema.validate .root raw = .error problems ∧
      problems =
        [.invalidValue [.key "rooms", .index 0, .key "area"] "area" (.integerOutside 1 100 500),
          .missingField [.key "rooms", .index 1] "area",
          .unknownField [.key "rooms", .index 1] "windows", .unknownField .root "garage"] ∧
      houseSchema.Places .root raw problems := by
  have hread : Node.ofJson? .root houseJson = some ⟨.root, [("garage", .bool true),
      ("rooms", .sequence [.mapping [.key "rooms", .index 0] [("area", .integer 500)],
        .mapping [.key "rooms", .index 1] [("windows", .integer 3), ("doors", .null)]])]⟩ := by
    with_unfolding_all rfl
  refine ⟨_, _, hread, ?_, rfl, Schema.places_reported composed_house hread⟩
  with_unfolding_all rfl

end Firmware
