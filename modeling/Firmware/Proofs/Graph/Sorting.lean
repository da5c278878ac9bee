import Firmware.Proofs.Graph.Edges
/-!
Document order.  Instances are sorted by their indices, and those with the same index keep
the order in which they are given.  Instances whose indices are all different are sorted
alike in whatever order they are given, so that order decides nothing about them.
-/

namespace Firmware

namespace Graph

variable {instances others sorted : List Instance} {inst : Instance}

structure SortsStably (instances sorted : List Instance) : Prop where
  perm : sorted.Perm instances
  ordered : sorted.Pairwise fun a b => a.index ≤ b.index
  stable : ∀ index, sorted.filter (·.index == index) = instances.filter (·.index == index)

theorem pairwise_insertByIndex (inst : Instance)
    (h : sorted.Pairwise fun a b => a.index ≤ b.index) :
    (insertByIndex inst sorted).Pairwise fun a b => a.index ≤ b.index := by
  induction sorted with
  | nil => exact List.pairwise_singleton _ _
  | cons other rest ih =>
      obtain ⟨hfirst, hrest⟩ := List.pairwise_cons.mp h
      rw [insertByIndex]
      split
      · next hle =>
          refine List.pairwise_cons.mpr ⟨fun later hlater => ?_, h⟩
          rcases List.mem_cons.mp hlater with rfl | hafter
          · exact hle
          · exact Nat.le_trans hle (hfirst later hafter)
      · next hgt =>
          refine List.pairwise_cons.mpr ⟨fun later hlater => ?_, ih hrest⟩
          rcases List.mem_cons.mp ((insertByIndex_perm inst rest).mem_iff.mp hlater) with
            rfl | hafter
          · exact Nat.le_of_not_le hgt
          · exact hfirst later hafter

/-- An instance is put before all others of its index, and the others keep their order. -/
theorem filter_insertByIndex (index : Nat) (inst : Instance) (sorted : List Instance) :
    (insertByIndex inst sorted).filter (·.index == index) =
      (inst :: sorted).filter (·.index == index) := by
  induction sorted with
  | nil => rfl
  | cons other rest ih =>
      rw [insertByIndex]
      split
      · rfl
      · next hgt =>
          rw [List.filter_cons, ih]
          -- What is passed over has a smaller index, so only one of the two is kept.
          by_cases hinst : inst.index = index <;> by_cases hother : other.index = index
          · omega
          all_goals simp [hinst, hother]

theorem sortByIndex_sortsStably (instances : List Instance) :
    SortsStably instances (sortByIndex instances) where
  perm := sortByIndex_perm instances
  ordered := by
    induction instances with
    | nil => exact .nil
    | cons inst rest ih => exact pairwise_insertByIndex inst ih
  stable index := by
    induction instances with
    | nil => rfl
    | cons inst rest ih =>
        rw [sortByIndex, List.foldr_cons, filter_insertByIndex, List.filter_cons, List.filter_cons]
        rw [sortByIndex] at ih
        rw [ih]

/-- Instances whose indices are all different are sorted alike in whatever order they are
given. -/
theorem sortByIndex_eq_of_perm (hdistinct : (instances.map (·.index)).Nodup)
    (hperm : others.Perm instances) : sortByIndex others = sortByIndex instances := by
  have hsorts := sortByIndex_sortsStably instances
  have hsorts' := sortByIndex_sortsStably others
  refine List.Perm.eq_of_pairwise ?_ hsorts'.ordered hsorts.ordered
    (hsorts'.perm.trans (hperm.trans hsorts.perm.symm))
  intro a b ha hb hab hba
  have hmem := (hsorts'.perm.trans hperm).mem_iff.mp ha
  have hmem' := hsorts.perm.mem_iff.mp hb
  exact List.inj_on_of_nodup_map hdistinct hmem hmem' (Nat.le_antisymm hab hba)

/-- Instances whose indices are all different are ordered alike, or fail to be for the same
problems, in whatever order they are given. -/
theorem ordered_eq_of_perm (hdistinct : (instances.map (·.index)).Nodup)
    (hperm : others.Perm instances) : Ordered.ofInstances others = Ordered.ofInstances instances := by
  simp only [Ordered.ofInstances, ofInstances, sortByIndex_eq_of_perm hdistinct hperm]

end Graph

end Firmware
