import Firmware.Graph.Order
import Mathlib.Data.List.Perm.Basic
/-!
The arrangement of positions.  Every position is arranged or stuck, once, and one
that is arranged comes after all those before it in the graph.
-/

namespace Firmware

namespace Graph

variable {before : Nat → List Nat} {remaining : List Nat} {position other : Nat}

theorem ready?_eq_some (h : ready? before remaining = some position) :
    position ∈ remaining ∧ ∀ other ∈ before position, other ∉ remaining := by
  refine ⟨List.mem_of_find?_eq_some h, ?_⟩
  simpa using List.find?_some h

theorem exists_passed_of_ready? (h : ready? before remaining = some position) :
    ∃ passed rest, remaining = passed ++ position :: rest ∧
      ∀ earlier ∈ passed, ∃ other ∈ before earlier, other ∈ remaining := by
  obtain ⟨_, passed, rest, hsplit, hwaits⟩ := List.find?_eq_some_iff_append.mp h
  refine ⟨passed, rest, hsplit, fun earlier hearlier => ?_⟩
  have hnot : ((before earlier).all fun other => decide (other ∉ remaining)) = false := by
    simpa only [Bool.not_eq_true'] using hwaits earlier hearlier
  simpa only [List.all_eq_false, decide_eq_true_eq, not_not] using hnot

theorem arrange_of_none (h : ready? before remaining = none) :
    arrange before remaining = ([], remaining) := by
  rw [arrange]
  split
  · next hfound => simp [h] at hfound
  · rfl

theorem arrange_of_some (h : ready? before remaining = some position) :
    arrange before remaining = (position :: (arrange before (remaining.erase position)).1,
      (arrange before (remaining.erase position)).2) := by
  rw [arrange]
  split
  · next hfound =>
      obtain rfl := Option.some.inj (h.symm.trans hfound)
      rfl
  · next hnone => simp [h] at hnone

theorem arrange_perm (before : Nat → List Nat) (remaining : List Nat) :
    ((arrange before remaining).1 ++ (arrange before remaining).2).Perm remaining := by
  fun_induction arrange before remaining with
  | case1 remaining position found _ order stuck arranged ih =>
      simp only [arranged] at ih
      obtain ⟨hmem, _⟩ := ready?_eq_some found
      exact (ih.cons position).trans (List.perm_cons_erase hmem).symm
  | case2 remaining _ => exact .refl _

/-- What is arranged comes after all that is before it in the graph. -/
theorem idxOf_lt_of_arrange (hnodup : remaining.Nodup)
    (hmem : position ∈ (arrange before remaining).1) (hbefore : other ∈ before position)
    (hother : other ∈ remaining) :
    (arrange before remaining).1.idxOf other < (arrange before remaining).1.idxOf position := by
  fun_induction arrange before remaining with
  | case1 remaining first found _ order stuck arranged ih =>
      simp only [arranged] at ih
      obtain ⟨_, hready⟩ := ready?_eq_some found
      rcases List.mem_cons.mp hmem with rfl | hrest
      · exact absurd hother (hready other hbefore)
      · have hperm : (order ++ stuck).Perm (remaining.erase first) := by
          simpa only [arranged] using arrange_perm before (remaining.erase first)
        have hlater : position ∈ remaining.erase first :=
          hperm.mem_iff.mp (List.mem_append_left _ hrest)
        have hne : first ≠ position := fun heq => hnodup.not_mem_erase (heq ▸ hlater)
        rw [List.idxOf_cons_ne _ hne]
        by_cases heq : first = other
        · subst heq
          rw [List.idxOf_cons_self]
          exact Nat.succ_pos _
        · rw [List.idxOf_cons_ne _ heq]
          have hkept : other ∈ remaining.erase first :=
            (List.mem_erase_of_ne (Ne.symm heq)).mpr hother
          exact Nat.succ_lt_succ (ih (hnodup.erase first) hrest hkept)
  | case2 => simp at hmem

end Graph

end Firmware
