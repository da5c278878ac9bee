import Firmware.Proofs.NameTable.Resolution
/-!
Tables through their requests.  Naming the declarations of nodes is a sequence of calls,
each of which gives out one identifier at most: the one that its location has, or a new one
under a name that is free at that moment.  What every call keeps therefore holds of every
table: an identifier stays as it is, and belongs to one location at most.
-/

namespace Firmware

namespace NameTable

variable {table next final : NameTable} {path : Path} {name type : String} {id : Identifier}
  {isPointer : Bool} {added later : List Identifier}

/-- What is asked of a table at one time. -/
inductive Call
  | reserve (name : String)
  | allocate (base type : String) (isPointer : Bool)
  | allocateFor (path : Path) (base type : String) (isPointer : Bool)
  | declare (path : Path) (name type : String) (isPointer : Bool)

/-- The identifier that a call gets, if it asks for one, and the table afterwards. -/
def answer (table : NameTable) : Call → Except Problem (Option Identifier × NameTable)
  | .reserve name => .ok (none, table.reserve name)
  | .allocate base type isPointer =>
      let (given, next) := table.allocate base type isPointer
      .ok (some given, next)
  | .allocateFor path base type isPointer =>
      let (given, next) := table.allocateFor path base type isPointer
      .ok (some given, next)
  | .declare path name type isPointer =>
      (table.declare path name type isPointer).map fun (given, next) => (some given, next)

/-- The table after a call.  A call that fails changes nothing. -/
def perform (table : NameTable) (call : Call) : NameTable :=
  match table.answer call with
  | .ok (_, next) => next
  | .error _ => table

/-- A single call, or the naming of all declarations of some nodes. -/
inductive Request
  | single (call : Call)
  | resolve (nodes : List Node)

def serve (table : NameTable) : Request → NameTable
  | .single call => table.perform call
  | .resolve nodes => (table.resolveDeclarations nodes).table

/-- The call that registers the chosen name of a slot. -/
def registration? (found : Path × Slot) : Option Call :=
  found.2.chosen?.map fun name => .declare found.1 name found.2.type true

/-- The call that names a slot that waits. -/
def naming? (found : Path × Slot) : Option Call :=
  if found.2.waits then some (.allocateFor found.1 found.2.suggestion found.2.type true) else none

def Request.calls : Request → List Call
  | .single call => [call]
  | .resolve nodes =>
      let slots := nodes.flatMap Node.slots
      slots.filterMap registration? ++ slots.filterMap naming?

theorem registerSlots_cons (table : NameTable) (found : Path × Slot) (rest : List (Path × Slot)) :
    (table.registerSlots (found :: rest)).1 =
      (((registration? found).map table.perform).getD table |>.registerSlots rest).1 := by
  obtain ⟨path, slot⟩ := found
  cases hchosen : slot.chosen? with
  | none =>
      rw [registerSlots, registerSlot_of_unchosen hchosen, registration?, hchosen]
      rfl
  | some name =>
      rw [registerSlots, registerSlot_of_chosen hchosen, registration?, hchosen]
      simp only [Option.map_some, Option.getD_some, perform, answer]
      cases table.declare path name slot.type true with
      | error problem => rfl
      | ok given => rfl

theorem registerSlots_eq_foldl (table : NameTable) (slots : List (Path × Slot)) :
    (table.registerSlots slots).1 = (slots.filterMap registration?).foldl perform table := by
  induction slots generalizing table with
  | nil => rfl
  | cons found rest ih =>
      rw [registerSlots_cons, ih]
      cases hcall : registration? found with
      | none => rw [List.filterMap_cons_none hcall]; rfl
      | some call => rw [List.filterMap_cons_some hcall]; rfl

theorem nameSlots_eq_foldl (table : NameTable) (slots : List (Path × Slot)) :
    table.nameSlots slots = (slots.filterMap naming?).foldl perform table := by
  induction slots generalizing table with
  | nil => rfl
  | cons found rest ih =>
      obtain ⟨path, slot⟩ := found
      rw [nameSlots_cons, ih]
      by_cases hwaits : slot.waits = true
      · have hcall : naming? (path, slot) =
            some (.allocateFor path slot.suggestion slot.type true) := if_pos hwaits
        rw [List.filterMap_cons_some hcall, if_pos hwaits]
        rfl
      · have hcall : naming? (path, slot) = none := if_neg hwaits
        rw [List.filterMap_cons_none hcall, if_neg hwaits]

theorem serve_eq_foldl (table : NameTable) (request : Request) :
    table.serve request = request.calls.foldl perform table := by
  cases request with
  | single call => rfl
  | resolve nodes =>
      rw [Request.calls, List.foldl_append, ← registerSlots_eq_foldl, ← nameSlots_eq_foldl]
      rfl

theorem foldl_serve_eq (table : NameTable) (requests : List Request) :
    requests.foldl serve table = (requests.flatMap Request.calls).foldl perform table := by
  induction requests generalizing table with
  | nil => rfl
  | cons request rest ih =>
      rw [List.foldl_cons, ih, serve_eq_foldl, List.flatMap_cons, List.foldl_append]

def entry (id : Identifier) : String × Identifier := (id.name, id)

/-- What a table has in addition to an earlier one: some identifiers after all that were
there, with different names that were free. -/
structure Adds (table : NameTable) (added : List Identifier) (next : NameTable) : Prop where
  byName : next.byName = table.byName ++ added.map entry
  distinct : (added.map (·.name)).Nodup
  free : ∀ id ∈ added, table.isTaken id.name = false
  kept : ∀ name ∈ table.kept, name ∈ next.kept

theorem keys_map_entry (ids : List Identifier) :
    Table.keys (ids.map entry) = ids.map (·.name) := by
  rw [Table.keys, List.map_map]
  rfl

namespace Adds

theorem refl (table : NameTable) : table.Adds [] table where
  byName := (List.append_nil _).symm
  distinct := .nil
  free := by simp
  kept _ hmem := hmem

theorem isTaken (h : table.Adds added next)
    (htaken : table.isTaken name = true ∨ name ∈ added.map (·.name)) :
    next.isTaken name = true := by
  rw [isTaken_eq_true_iff, takenNames, h.byName, Table.keys, List.map_append, List.mem_append,
    List.mem_append, List.mem_append]
  rcases htaken with hold | hnew
  · rw [isTaken_eq_true_iff, takenNames, List.mem_append, List.mem_append] at hold
    rcases hold with (hnamed | hreserved) | hkept
    · exact .inl (.inl (.inl hnamed))
    · exact .inl (.inr hreserved)
    · exact .inr (h.kept name hkept)
  · apply Or.inl
    apply Or.inl
    apply Or.inr
    rw [← keys_map_entry] at hnew
    exact hnew

theorem trans (hfirst : table.Adds added next) (hsecond : next.Adds later final) :
    table.Adds (added ++ later) final where
  byName := by rw [hsecond.byName, hfirst.byName, List.append_assoc, List.map_append]
  distinct := by
    rw [List.map_append, List.nodup_append]
    refine ⟨hfirst.distinct, hsecond.distinct, ?_⟩
    rintro name hadded _ hlater rfl
    obtain ⟨id, hid, rfl⟩ := List.mem_map.mp hlater
    have htaken := hfirst.isTaken (.inr hadded)
    rw [hsecond.free id hid] at htaken
    simp at htaken
  free := by
    intro id hmem
    rcases List.mem_append.mp hmem with hadded | hlater
    · exact hfirst.free id hadded
    · rw [← Bool.not_eq_true]
      intro htaken
      have := hfirst.isTaken (.inl htaken)
      rw [hsecond.free id hlater] at this
      simp at this
  kept name hmem := hsecond.kept name (hfirst.kept name hmem)

theorem of_insert (hfree : table.isTaken id.name = false)
    (hbyName : next.byName = Table.insert table.byName id.name id)
    (hkept : next.kept = table.kept) : table.Adds [id] next where
  byName := by
    rw [← Bool.not_eq_true, isTaken_eq_true_iff, takenNames, List.append_assoc,
      List.mem_append, not_or] at hfree
    rw [hbyName, Table.insert_eq_append hfree.1]
    rfl
  distinct := List.nodup_singleton _
  free := by
    intro other hmem
    rw [List.mem_singleton.mp hmem, hfree]
  kept name hmem := hkept ▸ hmem

theorem lookup? (h : table.Adds added next) (hlookup : table.lookup? name = some id) :
    next.lookup? name = some id := by
  rw [NameTable.lookup?, Table.get?, h.byName, List.find?_append]
  obtain ⟨found, hfound, rfl⟩ := Option.map_eq_some_iff.mp hlookup
  rw [hfound]
  rfl

end Adds

/-- An identifier that belongs to no location keeps what holds of a table. -/
theorem Sound.allocate (h : table.Sound) (base type : String) (isPointer : Bool) :
    (table.allocate base type isPointer).2.Sound := by
  have hadds : table.Adds [(table.allocate base type isPointer).1]
      (table.allocate base type isPointer).2 := .of_insert (table.isTaken_freeName base) rfl rfl
  constructor
  · intro name found hfound
    rw [lookup?, NameTable.allocate, Table.get?_insert] at hfound
    split at hfound
    · next heq => exact Option.some.inj hfound ▸ heq
    · exact h.named hfound
  · intro path found hat
    exact hadds.lookup? (h.listed hat)
  · intro path other found found' hat hat'
    exact h.apart hat hat'

/-- The location that a call is about. -/
def Call.place? : Call → Option Path
  | .reserve _ => none
  | .allocate .. => none
  | .allocateFor path .. => some path
  | .declare path .. => some path

/-- Whether an identifier is one that may be made for a call. -/
def Call.AsksFor : Call → Identifier → Prop
  | .reserve _, _ => False
  | .allocate base type isPointer, id | .allocateFor _ base type isPointer, id =>
      ∃ attempt, id = ⟨candidate base attempt, type, isPointer⟩
  | .declare _ name type isPointer, id => id = ⟨name, type, isPointer⟩

/-- Whether the location of a call has an identifier that the call gets once more.  A
declaration gets one of its own name only. -/
def Remembers (table : NameTable) : Call → Identifier → Prop
  | .allocateFor path .., id => table.at? path = some id
  | .declare path name .., id => table.at? path = some id ∧ id.name = name
  | _, _ => False

/-- What a call that succeeds gets, and the table afterwards.  Keeping a name back gives out
nothing and adds nothing.  Any other call gets the identifier that the table remembers for
it, and changes nothing, or else a new one, which is added under a free name and is that of
the location of the call from then on. -/
inductive Answers (table : NameTable) : Call → Option Identifier → NameTable → Prop
  | keeps {name : String} {next : NameTable} (adds : table.Adds [] next)
      (taken : next.isTaken name = true) (places : next.byPath = table.byPath) :
      Answers table (.reserve name) none next
  | again {call : Call} {id : Identifier} (remembered : table.Remembers call id) :
      Answers table call (some id) table
  | creates {call : Call} {id : Identifier} {next : NameTable}
      (new : ∀ old, ¬ table.Remembers call old) (asked : call.AsksFor id)
      (adds : table.Adds [id] next)
      (places : ∀ path, next.at? path = if call.place? = some path then some id else table.at? path) :
      Answers table call (some id) next

/-- A call adds at most the identifier that it gets. -/
theorem Answers.adds {call : Call} {given : Option Identifier}
    (h : table.Answers call given next) : ∃ added, table.Adds added next := by
  cases h with
  | keeps hadds => exact ⟨[], hadds⟩
  | again => exact ⟨[], .refl table⟩
  | creates _ _ hadds => exact ⟨_, hadds⟩

theorem answers_reserve (table : NameTable) (name : String) :
    table.Answers (.reserve name) none (table.reserve name) := by
  have hmem : name ∈ (table.reserve name).kept := OrderedSet.mem_add.mpr (.inr rfl)
  refine .keeps ⟨(List.append_nil _).symm, .nil, by simp, ?_⟩ ?_ rfl
  · exact fun _ hmem => OrderedSet.mem_add.mpr (.inl hmem)
  · exact isTaken_eq_true_iff.mpr (List.mem_append_right _ hmem)

/-- An identifier that is entered under a free name is new. -/
theorem answers_entered {call : Call} (hplace : call.place? = some path)
    (hnew : ∀ old, ¬ table.Remembers call old) (hasked : call.AsksFor id)
    (hfree : table.isTaken id.name = false) :
    table.Answers call (some id) (table.entered path id) := by
  refine .creates hnew hasked (.of_insert hfree rfl rfl) fun other => ?_
  rw [at?_entered, hplace]
  simp only [Option.some.injEq]

theorem exists_asked (table : NameTable) (base type : String) (isPointer : Bool) :
    ∃ attempt, (⟨table.freeName base, type, isPointer⟩ : Identifier) =
      ⟨candidate base attempt, type, isPointer⟩ := by
  obtain ⟨attempt, hname, _⟩ := table.exists_freeName_eq base
  exact ⟨attempt, congrArg (Identifier.mk · type isPointer) hname⟩

theorem answers_allocate (table : NameTable) (base type : String) (isPointer : Bool) :
    table.Answers (.allocate base type isPointer) (some (table.allocate base type isPointer).1)
      (table.allocate base type isPointer).2 :=
  .creates nofun (table.exists_asked base type isPointer)
    (.of_insert (table.isTaken_freeName base) rfl rfl) fun _ => rfl

theorem answers_allocateFor (table : NameTable) (path : Path) (base type : String)
    (isPointer : Bool) :
    table.Answers (.allocateFor path base type isPointer)
      (some (table.allocateFor path base type isPointer).1)
      (table.allocateFor path base type isPointer).2 := by
  cases hat : table.at? path with
  | some id =>
      rw [allocateFor_of_at? hat]
      exact .again hat
  | none =>
      rw [allocateFor_of_new hat]
      have hnew : ∀ old, ¬ table.Remembers (.allocateFor path base type isPointer) old :=
        fun old hold => absurd (hat.symm.trans hold) nofun
      exact answers_entered rfl hnew (table.exists_asked base type isPointer)
        (table.isTaken_freeName base)

/-- A declaration that is not of the identifier at its location is of another name. -/
theorem name_ne_of_filter_eq_none (h : (table.at? path).filter (·.name == name) = none)
    (hat : table.at? path = some id) : id.name ≠ name := by
  simpa using Option.filter_eq_none_iff.mp h id hat

theorem answers_declare (h : table.declare path name type isPointer = .ok (id, next)) :
    table.Answers (.declare path name type isPointer) (some id) next := by
  rw [declare_eq] at h
  split at h
  · next found hown =>
      obtain ⟨rfl, rfl⟩ := Prod.mk.inj (Except.ok.inj h)
      obtain ⟨hat, hname⟩ := Option.filter_eq_some_iff.mp hown
      exact .again ⟨hat, by simpa using hname⟩
  · next hother =>
      split at h
      · simp at h
      · next hfree =>
          obtain ⟨rfl, rfl⟩ := Prod.mk.inj (Except.ok.inj h)
          refine answers_entered rfl ?_ rfl (by simpa using hfree)
          exact fun old hold => name_ne_of_filter_eq_none hother hold.1 hold.2

/-- A call that succeeds gets the identifier of its location, or a new one that is added. -/
theorem answers_of_answer {call : Call} {given : Option Identifier}
    (h : table.answer call = .ok (given, next)) : table.Answers call given next := by
  cases call with
  | reserve name =>
      obtain ⟨rfl, rfl⟩ := Prod.mk.inj (Except.ok.inj h)
      exact answers_reserve table name
  | allocate base type isPointer =>
      obtain ⟨rfl, rfl⟩ := Prod.mk.inj (Except.ok.inj h)
      exact answers_allocate table base type isPointer
  | allocateFor path base type isPointer =>
      obtain ⟨rfl, rfl⟩ := Prod.mk.inj (Except.ok.inj h)
      exact answers_allocateFor table path base type isPointer
  | declare path name type isPointer =>
      obtain ⟨⟨id, after⟩, hdeclared, heq⟩ := Except.map_eq_ok h
      obtain ⟨rfl, rfl⟩ := Prod.mk.inj heq
      exact answers_declare hdeclared

theorem Sound.answer {call : Call} {given : Option Identifier} (hsound : table.Sound)
    (h : table.answer call = .ok (given, next)) : next.Sound := by
  cases call with
  | reserve name =>
      obtain ⟨rfl, rfl⟩ := Prod.mk.inj (Except.ok.inj h)
      exact ⟨hsound.named, hsound.listed, hsound.apart⟩
  | allocate base type isPointer =>
      obtain ⟨rfl, rfl⟩ := Prod.mk.inj (Except.ok.inj h)
      exact hsound.allocate base type isPointer
  | allocateFor path base type isPointer =>
      obtain ⟨rfl, rfl⟩ := Prod.mk.inj (Except.ok.inj h)
      exact (table.allocateFor_gives path base type isPointer).1.sound hsound
  | declare path name type isPointer =>
      obtain ⟨⟨id, after⟩, hdeclared, heq⟩ := Except.map_eq_ok h
      obtain ⟨rfl, rfl⟩ := Prod.mk.inj heq
      exact (declare_eq_ok hdeclared).1.sound hsound

/-- What is kept by calls that succeed holds after any calls. -/
theorem foldl_perform_invariant (invariant : NameTable → Prop)
    (hstep : ∀ table call given next, invariant table → table.answer call = .ok (given, next) →
      invariant next) {table : NameTable} (h : invariant table) (calls : List Call) :
    invariant (calls.foldl perform table) := by
  induction calls generalizing table with
  | nil => exact h
  | cons call rest ih =>
      rw [List.foldl_cons]
      apply ih
      unfold perform
      split
      · next given next hanswer => exact hstep table call given next h hanswer
      · exact h

theorem Sound.foldl_serve (hsound : table.Sound) (requests : List Request) :
    (requests.foldl serve table).Sound := by
  rw [foldl_serve_eq]
  apply foldl_perform_invariant Sound _ hsound
  exact fun table call given next hbefore hanswer => hbefore.answer hanswer

theorem sound_empty : empty.Sound := by
  constructor <;> intros <;> contradiction

theorem sound_foldl_serve (requests : List Request) : (requests.foldl serve empty).Sound :=
  sound_empty.foldl_serve requests

theorem exists_adds_foldl_serve (table : NameTable) (requests : List Request) :
    ∃ added, table.Adds added (requests.foldl serve table) := by
  rw [foldl_serve_eq]
  apply foldl_perform_invariant (fun final => ∃ added, table.Adds added final) _ ⟨[], .refl table⟩
  rintro before call given next ⟨added, hadds⟩ hanswer
  obtain ⟨later, hlater⟩ := (answers_of_answer hanswer).adds
  exact ⟨_, hadds.trans hlater⟩

/-- A declaration fails exactly if its name is taken and is not that of its location. -/
theorem declare_eq_error_iff {problem : Problem} :
    table.declare path name type isPointer = .error problem ↔
      (∀ id, table.at? path = some id → id.name ≠ name) ∧ table.isTaken name = true ∧
        problem = duplicate path name := by
  rw [declare_eq]
  cases hown : (table.at? path).filter (·.name == name) with
  | some id =>
      obtain ⟨hat, hname⟩ := Option.filter_eq_some_iff.mp hown
      simp only [reduceCtorEq, false_iff, not_and]
      exact fun hother => absurd (by simpa using hname) (hother id hat)
  | none =>
      rw [and_iff_right fun id hat => name_ne_of_filter_eq_none hown hat]
      by_cases htaken : table.isTaken name = true
      · simp [htaken, eq_comm]
      · simp [htaken]

/-- Only declarations fail, for names that are taken and are not those of their locations. -/
theorem answer_eq_error_iff {call : Call} {problem : Problem} :
    table.answer call = .error problem ↔ ∃ path name type isPointer,
      call = .declare path name type isPointer ∧
        (∀ id, table.at? path = some id → id.name ≠ name) ∧ table.isTaken name = true ∧
          problem = duplicate path name := by
  constructor
  · intro h
    cases call with
    | reserve | allocate | allocateFor => cases h
    | declare path name type isPointer =>
        exact ⟨path, name, type, isPointer, rfl,
          declare_eq_error_iff.mp (Except.map_eq_error_iff.mp h)⟩
  · rintro ⟨path, name, type, isPointer, rfl, hfails⟩
    exact Except.map_eq_error_iff.mpr (declare_eq_error_iff.mpr hfails)

/-- What holds of every table that requests lead to.  A request is a sequence of calls;
names lead to identifiers of these names, and locations to identifiers among them, no
two to the same.  A call gets the identifier that its location has, and changes nothing,
or it adds the identifier that it gets, under a name that was free before it; whatever is
asked later, all identifiers stay.  A call fails exactly if it declares a name that is
taken and not that of its location, and changes nothing then. -/
theorem foldl_serve_empty (requests : List Request) :
    let table := requests.foldl serve empty
    table = (requests.flatMap Request.calls).foldl perform empty ∧
    (∀ entry ∈ table.byName, entry.2.name = entry.1) ∧
    (Table.keys table.byName).Nodup ∧
    (∀ path id, table.at? path = some id → table.lookup? id.name = some id) ∧
    (∀ path other id id', table.at? path = some id → table.at? other = some id' →
      id.name = id'.name → path = other) ∧
    (∀ call given next, table.answer call = .ok (given, next) →
      table.Answers call given next) ∧
    (∀ later : List Request, ∃ added, table.Adds added (later.foldl serve table)) ∧
    (∀ call problem, table.answer call = .error problem ↔ ∃ path name type isPointer,
      call = .declare path name type isPointer ∧
        (∀ id, table.at? path = some id → id.name ≠ name) ∧ table.isTaken name = true ∧
          problem = duplicate path name) ∧
    ∀ call problem, table.answer call = .error problem → table.serve (.single call) = table := by
  intro table
  have hsound : table.Sound := sound_foldl_serve requests
  obtain ⟨ids, hids⟩ := exists_adds_foldl_serve empty requests
  have hbyName : table.byName = ids.map entry := hids.byName
  refine ⟨foldl_serve_eq _ _, ?_, ?_, fun _ _ => hsound.listed, fun _ _ _ _ => hsound.apart,
    fun _ _ _ => answers_of_answer, exists_adds_foldl_serve table,
    fun _ _ => answer_eq_error_iff, ?_⟩
  · intro found hmem
    rw [hbyName] at hmem
    obtain ⟨id, _, rfl⟩ := List.mem_map.mp hmem
    rfl
  · rw [hbyName, keys_map_entry]
    exact hids.distinct
  · intro call problem hfails
    rw [serve, perform, hfails]

end NameTable

end Firmware
