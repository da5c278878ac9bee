import Firmware.Graph.Links
import Firmware.Proofs.Graph.Edges
import Firmware.Proofs.Value.Slots
/-!
Providers of names.  A name belongs to the last instance that is identified by it, and if
there is none to the first one whose configuration declares it.  Looking for that instance
in the document and filling a table with names, some of which replace others, come to the
same.
-/

namespace Firmware

/-- What `find?` comes to in a list whose keys are in order is the least key of all elements
that pass the test. -/
theorem map_find?_eq_some_iff {α β : Type} {le : β → β → Prop} [Std.Refl le] [Std.Antisymm le]
    {key : α → β} {list : List α} (h : list.Pairwise fun a b => le (key a) (key b))
    {test : α → Bool} {least : β} :
    (list.find? test).map key = some least ↔
      (∃ found ∈ list, test found = true ∧ key found = least) ∧
        ∀ other ∈ list, test other = true → le least (key other) := by
  induction list with
  | nil => simp
  | cons first rest ih =>
      obtain ⟨hfirst, hrest⟩ := List.pairwise_cons.mp h
      rw [List.find?_cons]
      cases htest : test first with
      | false => simp [ih hrest, htest]
      | true =>
          simp only [Option.map_some, Option.some.injEq]
          constructor
          · rintro rfl
            refine ⟨⟨first, List.mem_cons_self, htest, rfl⟩, fun other hother _ => ?_⟩
            rcases List.mem_cons.mp hother with rfl | hlater
            · exact Std.Refl.refl _
            · exact hfirst other hlater
          · rintro ⟨⟨found, hfound, _, rfl⟩, hleast⟩
            rcases List.mem_cons.mp hfound with rfl | hlater
            · rfl
            · exact Std.Antisymm.antisymm _ _ (hfirst found hlater)
                (hleast first List.mem_cons_self htest)

namespace Graph

variable {instances : List Instance} {inst : Instance} {name : String} {position : Nat}

structure IsFirst (instances : List Instance) (property : Instance → Prop) (position : Nat)
    (inst : Instance) : Prop where
  present : instances[position]? = some inst
  holds : property inst
  first : ∀ earlier other, earlier < position → instances[earlier]? = some other →
    ¬ property other

structure IsLast (instances : List Instance) (property : Instance → Prop) (position : Nat)
    (inst : Instance) : Prop where
  present : instances[position]? = some inst
  holds : property inst
  last : ∀ later other, position < later → instances[later]? = some other → ¬ property other

/-- Whether the instance at a position provides a name: it is the last one identified by the
name or, if none is, the first one whose configuration declares it. -/
def Provides (instances : List Instance) (name : String) (position : Nat) : Prop :=
  (∃ inst, IsLast instances (·.id.name = name) position inst) ∨
    (∀ other ∈ instances, other.id.name ≠ name) ∧
      ∃ inst, IsFirst instances (·.config.Declares name) position inst

section Search

variable {test : Instance → Bool} {property : Instance → Prop}

/-- The position of the first instance is the least one of all that have the property. -/
theorem exists_isFirst_iff : (∃ inst, IsFirst instances property position inst) ↔
    (∃ inst, instances[position]? = some inst ∧ property inst) ∧
      ∀ other inst, instances[other]? = some inst → property inst → position ≤ other := by
  constructor
  · rintro ⟨inst, hfirst⟩
    refine ⟨⟨inst, hfirst.present, hfirst.holds⟩, fun other found hother hproperty => ?_⟩
    by_contra hlt
    exact hfirst.first other found (Nat.lt_of_not_le hlt) hother hproperty
  · rintro ⟨⟨inst, hpresent, hholds⟩, hleast⟩
    refine ⟨inst, hpresent, hholds, fun earlier other hlt hother hproperty => ?_⟩
    exact absurd (hleast earlier other hother hproperty) (Nat.not_le_of_lt hlt)

theorem exists_isLast_iff : (∃ inst, IsLast instances property position inst) ↔
    (∃ inst, instances[position]? = some inst ∧ property inst) ∧
      ∀ other inst, instances[other]? = some inst → property inst → other ≤ position := by
  constructor
  · rintro ⟨inst, hlast⟩
    refine ⟨⟨inst, hlast.present, hlast.holds⟩, fun other found hother hproperty => ?_⟩
    by_contra hlt
    exact hlast.last other found (Nat.lt_of_not_le hlt) hother hproperty
  · rintro ⟨⟨inst, hpresent, hholds⟩, hgreatest⟩
    refine ⟨inst, hpresent, hholds, fun later other hlt hother hproperty => ?_⟩
    exact absurd (hgreatest later other hother hproperty) (Nat.not_le_of_lt hlt)

theorem find?_range_eq_some_iff (htest : ∀ inst, test inst = true ↔ property inst) :
    (List.range instances.length).find? (fun position => instances[position]?.any test) =
      some position ↔ ∃ inst, IsFirst instances property position inst := by
  have hordered : (List.range instances.length).Pairwise fun a b => id a ≤ id b :=
    List.pairwise_le_range
  rw [← Option.map_id_apply (x := List.find? _ _), map_find?_eq_some_iff hordered,
    exists_isFirst_iff]
  simp only [List.mem_range, Option.any_eq_true, id, htest]
  grind

theorem find?_reverse_range_eq_some_iff (htest : ∀ inst, test inst = true ↔ property inst) :
    (List.range instances.length).reverse.find? (fun position => instances[position]?.any test) =
      some position ↔ ∃ inst, IsLast instances property position inst := by
  have hordered : (List.range instances.length).reverse.Pairwise fun a b => id a ≥ id b :=
    List.pairwise_reverse.mpr List.pairwise_le_range
  rw [← Option.map_id_apply (x := List.find? _ _), map_find?_eq_some_iff hordered,
    exists_isLast_iff]
  simp only [List.mem_reverse, List.mem_range, Option.any_eq_true, id, htest]
  grind

end Search

theorem provider?_eq_some_iff :
    provider? instances name = some position ↔ Provides instances name position := by
  have hlast : ∀ position, (List.range instances.length).reverse.find? (fun position =>
      instances[position]?.any (·.id.name == name)) = some position ↔
        ∃ inst, IsLast instances (·.id.name = name) position inst :=
    fun _ => find?_reverse_range_eq_some_iff fun _ => beq_iff_eq
  have hfirst : (List.range instances.length).find? (fun position =>
      instances[position]?.any (·.config.declarations.contains name)) = some position ↔
        ∃ inst, IsFirst instances (·.config.Declares name) position inst :=
    find?_range_eq_some_iff fun _ =>
      List.contains_iff_mem.trans Node.mem_declarations_iff_declares
  unfold provider?
  simp only
  split
  · next found hfound =>
      obtain ⟨inst, hidentified⟩ := (hlast found).mp hfound
      rw [← hfound, hlast]
      refine ⟨.inl, fun h => h.resolve_right fun hnone => ?_⟩
      exact hnone.1 inst (List.mem_of_getElem? hidentified.present) hidentified.holds
  · next hnone =>
      have hunnamed : ∀ other ∈ instances, other.id.name ≠ name := by
        intro other hmem hname
        obtain ⟨at', hother⟩ := List.mem_iff_getElem?.mp hmem
        have hbound := (List.getElem?_eq_some_iff.mp hother).1
        exact List.find?_eq_none.mp hnone at' (by simpa using hbound) (by simp [hother, hname])
      rw [hfirst]
      refine ⟨fun h => .inr ⟨hunnamed, h⟩, fun h => (h.resolve_left ?_).2⟩
      rintro ⟨inst, hidentified⟩
      exact hunnamed inst (List.mem_of_getElem? hidentified.present) hidentified.holds

theorem pairwise_flatMap_zipIdx {α β : Type} {list : List α} {found : α × Nat → List β}
    {position : β → Nat} (h : ∀ entry, ∀ element ∈ found entry, position element = entry.2) :
    (list.zipIdx.flatMap found).Pairwise fun a b => position a ≤ position b := by
  refine List.pairwise_flatMap.mpr ⟨fun entry _ => ?_, ?_⟩
  · exact List.pairwise_of_forall_mem_list fun a ha b hb =>
      Nat.le_of_eq ((h entry a ha).trans (h entry b hb).symm)
  · refine (pairwise_lt_zipIdx list).imp fun hlt a ha b hb => ?_
    rw [h _ a ha, h _ b hb]
    exact Nat.le_of_lt hlt

/-- Entering the names of instances one after another leaves each with the last of them. -/
theorem find?_identified_eq_some_iff :
    ((instances.zipIdx.map fun (inst, position) => (inst.id.name, position)).reverse.find?
      (·.1 = name)).map (·.2) = some position ↔
        ∃ inst, IsLast instances (·.id.name = name) position inst := by
  have hordered : (instances.zipIdx.map fun (inst, position) =>
      (inst.id.name, position)).reverse.Pairwise fun a b => a.2 ≥ b.2 :=
    List.pairwise_reverse.mpr
      (List.pairwise_map.mpr ((pairwise_lt_zipIdx instances).imp Nat.le_of_lt))
  rw [map_find?_eq_some_iff hordered, exists_isLast_iff]
  simp only [List.mem_reverse, List.mem_map, Prod.exists, Prod.forall,
    List.mem_zipIdx_iff_getElem?, decide_eq_true_eq, Prod.mk.injEq]
  grind

/-- Entering the names that instances declare inside leaves each with the first of them. -/
theorem find?_declared_eq_some_iff :
    ((instances.zipIdx.flatMap fun (inst, position) =>
      inst.config.declarations.map (·, position)).find? (·.1 = name)).map (·.2) = some position ↔
        ∃ inst, IsFirst instances (·.config.Declares name) position inst := by
  have hordered : (instances.zipIdx.flatMap fun (inst, position) =>
      inst.config.declarations.map (·, position)).Pairwise fun a b => a.2 ≤ b.2 := by
    refine pairwise_flatMap_zipIdx fun entry element hmem => ?_
    obtain ⟨_, _, rfl⟩ := List.mem_map.mp hmem
    rfl
  rw [map_find?_eq_some_iff hordered, exists_isFirst_iff]
  simp only [List.mem_flatMap, List.mem_map, Prod.exists, Prod.forall,
    List.mem_zipIdx_iff_getElem?, decide_eq_true_eq, Prod.mk.injEq, ← Node.mem_declarations_iff_declares]
  grind

theorem get?_names_eq_some_iff :
    Table.get? (Links.names instances) name = some position ↔ Provides instances name position := by
  have hunnamed : Table.get? (Table.ofList (instances.zipIdx.map fun (inst, position) =>
      (inst.id.name, position))) name = none ↔ ∀ other ∈ instances, other.id.name ≠ name := by
    rw [Table.ofList, Table.get?_foldl_insert, Table.get?_nil, Option.or_none,
      Option.map_eq_none_iff, List.find?_eq_none]
    simp only [List.mem_reverse, List.mem_map, Prod.exists, List.mem_zipIdx_iff_getElem?,
      decide_eq_true_eq]
    constructor
    · intro hnone other hmem
      obtain ⟨at', hother⟩ := List.mem_iff_getElem?.mp hmem
      exact hnone _ ⟨other, at', hother, rfl⟩
    · rintro hnone _ ⟨other, _, hother, rfl⟩
      exact hnone other (List.mem_of_getElem? hother)
  rw [Links.names, Table.get?_foldl_insert_new, Option.or_eq_some_iff, hunnamed,
    find?_declared_eq_some_iff, Table.ofList, Table.get?_foldl_insert,
    Table.get?_nil, Option.or_none, find?_identified_eq_some_iff]
  rfl

end Graph

end Firmware
