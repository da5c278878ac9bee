import Firmware.Proofs.Graph.Edges
/-!
Instances in two layers.  Where those of the first layer come before all others and there
are no further edges, the first layer is emitted first, and both layers keep the order of
the document.  Instances without problems have the kinds they depend on, and a kind that
allows one instance has no more.
-/

namespace Firmware

namespace Graph

variable {before : Nat → List Nat} {remaining : List Nat} {instances : List Instance}
  {graph : Graph} {inst : Instance} {kind : String} {seen : List String}

/-- The positions of a first layer come before all others, and there are no further
edges. -/
def Layered (before : Nat → List Nat) (first : Nat → Bool) (remaining : List Nat) : Prop :=
  ∀ position ∈ remaining, ∀ other ∈ remaining,
    other ∈ before position ↔ first other = true ∧ first position = false

section Layered

variable {first : Nat → Bool} {passed rest : List Nat} {position : Nat}

theorem Layered.subset {kept : List Nat} (h : Layered before first remaining)
    (hkept : kept ⊆ remaining) : Layered before first kept :=
  fun position hposition other hother => h position (hkept hposition) other (hkept hother)

theorem Layered.first_eq_false_of_waits (h : Layered before first remaining)
    (hmem : position ∈ remaining) (hwaits : ∃ other ∈ before position, other ∈ remaining) :
    first position = false := by
  obtain ⟨other, hbefore, hother⟩ := hwaits
  exact ((h position hmem other hother).mp hbefore).2

theorem Layered.eq_nil_of_waits (h : Layered before first remaining)
    (hwaits : ∀ position ∈ remaining, ∃ other ∈ before position, other ∈ remaining) :
    remaining = [] := by
  refine List.eq_nil_iff_forall_not_mem.mpr fun position hposition => ?_
  obtain ⟨other, hbefore, hother⟩ := hwaits position hposition
  obtain ⟨hfirst, _⟩ := (h position hposition other hother).mp hbefore
  simp [h.first_eq_false_of_waits hother (hwaits other hother)] at hfirst

/-- A position that is ready while those before it wait is the next one, layer by layer. -/
theorem Layered.filter_ready (h : Layered before first (passed ++ position :: rest))
    (hready : ∀ other ∈ before position, other ∉ passed ++ position :: rest)
    (hwaits : ∀ earlier ∈ passed, ∃ other ∈ before earlier, other ∈ passed ++ position :: rest) :
    (passed ++ position :: rest).filter first ++
        (passed ++ position :: rest).filter (fun other => !first other) =
      position :: ((passed ++ rest).filter first ++
        (passed ++ rest).filter (fun other => !first other)) := by
  have hpassed : ∀ earlier ∈ passed, first earlier = false := fun earlier hmem =>
    h.first_eq_false_of_waits (by simp [hmem]) (hwaits earlier hmem)
  cases hlayer : first position with
  | true =>
      have hnone : passed.filter first = [] := by simpa using hpassed
      simp [hnone, hlayer]
  | false =>
      -- The first layer is arranged already, so nothing waits.
      have hnone : ∀ other ∈ passed ++ position :: rest, first other = false := by
        intro other hother
        by_contra hne
        rw [Bool.not_eq_false] at hne
        exact hready other ((h position (by simp) other hother).mpr ⟨hne, hlayer⟩) hother
      have hempty : passed = [] := by
        refine List.eq_nil_iff_forall_not_mem.mpr fun earlier hearlier => ?_
        obtain ⟨other, hbefore, hother⟩ := hwaits earlier hearlier
        have hedge := (h earlier (by simp [hearlier]) other hother).mp hbefore
        simp [hnone other hother] at hedge
      subst hempty
      have hrest : rest.filter first = [] := by
        simpa using fun other hother => hnone other (by simp [hother])
      simp [hlayer, hrest]

/-- Where the positions of the first layer come before all others, they are arranged
first. -/
theorem Layered.arrange_eq (h : Layered before first remaining) :
    arrange before remaining =
      (remaining.filter first ++ remaining.filter (fun position => !first position), []) := by
  fun_induction arrange before remaining with
  | case1 remaining position found _ order stuck arranged ih =>
      obtain ⟨_, hready⟩ := ready?_eq_some found
      obtain ⟨passed, rest, rfl, hwaits⟩ := exists_passed_of_ready? found
      have hfresh : position ∉ passed := by
        intro hmem
        obtain ⟨other, hbefore, hother⟩ := hwaits position hmem
        exact hready other hbefore hother
      rw [List.erase_append_right _ hfresh, List.erase_cons_head] at arranged ih
      simp only [arranged] at ih
      have hkept : passed ++ rest ⊆ passed ++ position :: rest :=
        ((List.sublist_cons_self position rest).append_left passed).subset
      obtain ⟨rfl, rfl⟩ := Prod.mk.inj (ih (h.subset hkept))
      rw [h.filter_ready hready hwaits]
  | case2 remaining hnone =>
      have hwaits : ∀ position ∈ remaining, ∃ other ∈ before position, other ∈ remaining := by
        simpa [ready?] using hnone
      rw [h.eq_nil_of_waits hwaits]
      rfl

end Layered

/-- Picking the positions of the instances that pass a test picks those instances. -/
theorem filterMap_filter_range (instances : List Instance) (test : Instance → Bool) :
    ((List.range instances.length).filter fun position =>
      instances[position]?.any test).filterMap (instances[·]?) = instances.filter test := by
  have hall : (List.range instances.length).filterMap (instances[·]?) = instances := by
    apply List.ext_getElem?
    intro position
    rw [getElem?_filterMap_of_isSome (by simp)]
    by_cases hbound : position < instances.length <;> simp [hbound]
  conv_rhs => rw [← hall]
  rw [List.filterMap_filter, List.filter_filterMap]
  congr 1
  funext position
  cases instances[position]? with
  | none => simp
  | some inst => simp [Option.filter]

/-- Where the instances that pass a test come before all others and there are no further
edges, the instances that pass the test are emitted first. -/
theorem order_eq_layers {ordered : Ordered} (test : Instance → Bool)
    (hedges : ∀ {position other : Nat} {a b : Instance}, graph.instances[position]? = some a →
      graph.instances[other]? = some b →
      (other ∈ graph.before position ↔ test b = true ∧ test a = false))
    (h : graph.order = .ok ordered) :
    ordered.instances =
      graph.instances.filter test ++ graph.instances.filter (fun inst => !test inst) := by
  have hlayered : Layered graph.before (fun position => graph.instances[position]?.any test)
      (List.range graph.instances.length) := by
    intro position hposition other hother
    have ha := List.getElem?_eq_getElem (List.mem_range.mp hposition)
    have hb := List.getElem?_eq_getElem (List.mem_range.mp hother)
    simp only [ha, hb, Option.any_some]
    exact hedges ha hb
  rw [Graph.order, hlayered.arrange_eq] at h
  obtain rfl := Except.ok.inj h
  have hothers : (List.range graph.instances.length).filter
      (fun position => !graph.instances[position]?.any test) =
        (List.range graph.instances.length).filter fun position =>
          graph.instances[position]?.any fun inst => !test inst := by
    refine List.filter_congr fun position hposition => ?_
    simp [List.getElem?_eq_getElem (List.mem_range.mp hposition)]
  rw [List.filterMap_append, hothers, filterMap_filter_range, filterMap_filter_range]

/-- Instances in document order stay where they are. -/
theorem sortByIndex_eq_self (h : instances.Pairwise fun a b => a.index ≤ b.index) :
    sortByIndex instances = instances := by
  induction instances with
  | nil => rfl
  | cons inst rest ih =>
      obtain ⟨hfirst, hrest⟩ := List.pairwise_cons.mp h
      have hcons : sortByIndex (inst :: rest) = insertByIndex inst (sortByIndex rest) := rfl
      rw [hcons, ih hrest]
      cases rest with
      | nil => rfl
      | cons other more => exact if_pos (hfirst other List.mem_cons_self)

theorem firstByKey_eq_nil {α κ : Type} [DecidableEq κ] {key : α → κ} {list : List α}
    (h : firstByKey key [] list = []) : list = [] := by
  cases list with
  | nil => rfl
  | cons element rest => simp [firstByKey] at h

/-- Instances without problems have the other kinds that they depend on. -/
theorem isConfigured_of_unsatisfied (h : unsatisfied instances = []) (hmem : inst ∈ instances)
    (hdependency : kind ∈ inst.declaration.dependencies) (hne : kind ≠ inst.kind) :
    isConfigured instances kind = true := by
  have hgaps := firstByKey_eq_nil (List.map_eq_nil_iff.mp h)
  have hnone := List.map_eq_nil_iff.mp (List.flatMap_eq_nil_iff.mp hgaps inst hmem)
  simpa [hne] using List.filter_eq_nil_iff.mp hnone kind hdependency

/-- Where no kind is repeated that allows one instance, such a kind has at most one
instance, and none if it was seen before. -/
theorem length_of_repetitions (h : repetitions seen instances = [])
    (hsingle : ∀ inst ∈ instances, inst.kind = kind → inst.declaration.isMulti = false) :
    (instances.filter (·.kind == kind)).length ≤ 1 ∧
      (kind ∈ seen → instances.filter (·.kind == kind) = []) := by
  induction instances generalizing seen with
  | nil => simp
  | cons inst rest ih =>
      obtain ⟨hfirst, hothers⟩ := List.forall_mem_cons.mp hsingle
      unfold repetitions at h
      simp only at h
      split at h
      · simp at h
      · next hnew =>
          obtain ⟨hlength, hnone⟩ := ih h hothers
          by_cases hkind : inst.kind = kind
          · have hlone := hnone (by simp [hkind])
            have hunseen : kind ∉ seen := by simpa [hkind, hfirst hkind] using hnew
            simp [hkind, hlone, hunseen]
          · refine ⟨by simpa [hkind] using hlength, fun hseen => ?_⟩
            simpa [hkind] using hnone (.tail _ hseen)

end Graph

end Firmware
