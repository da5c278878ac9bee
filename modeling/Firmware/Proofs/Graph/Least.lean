import Firmware.Proofs.Graph.Cycle
import Mathlib.Data.List.Lex
/-!
The least order.  The earliest ready position is the least one with which an order of
the remaining positions can begin, so what is arranged is the first of all orders in
which every position comes after those before it.  Only a cycle keeps positions from
being arranged.
-/

namespace Firmware

namespace Graph

variable {before : Nat → List Nat} {remaining order : List Nat} {position other rank : Nat}
  {graph : Graph}

theorem le_of_ready?_eq_some (hsorted : remaining.Pairwise (· < ·))
    (h : ready? before remaining = some position) (hmem : other ∈ remaining)
    (hready : ∀ waited ∈ before other, waited ∉ remaining) : position ≤ other := by
  obtain ⟨passed, rest, rfl, hwaits⟩ := exists_passed_of_ready? h
  obtain ⟨_, hrest, _⟩ := List.pairwise_append.mp hsorted
  rcases List.mem_append.mp hmem with hpassed | hlater
  · obtain ⟨waited, hbefore, hwaited⟩ := hwaits other hpassed
    exact absurd hwaited (hready waited hbefore)
  · rcases List.mem_cons.mp hlater with rfl | hafter
    · exact Nat.le_refl _
    · exact ((List.pairwise_cons.mp hrest).1 other hafter).le

/-- An order of all remaining positions in which each comes after those before it is not
less than the arrangement, if nothing is stuck. -/
theorem arrange_le (hsorted : remaining.Pairwise (· < ·))
    (hstuck : (arrange before remaining).2 = []) (hperm : order.Perm remaining)
    (hearlier : ∀ position ∈ order, ∀ other ∈ before position, other ∈ order →
      order.idxOf other < order.idxOf position) : (arrange before remaining).1 ≤ order := by
  fun_induction arrange before remaining generalizing order with
  | case1 remaining first found _ arranged stuck harranged ih =>
      simp only [harranged] at ih hstuck
      obtain ⟨hfirst, _⟩ := ready?_eq_some found
      cases order with
      | nil => exact absurd (hperm.mem_iff.mpr hfirst) List.not_mem_nil
      | cons head rest =>
          have hhead : head ∈ remaining := hperm.mem_iff.mp List.mem_cons_self
          have hready : ∀ waited ∈ before head, waited ∉ remaining := by
            intro waited hbefore hwaited
            have hlt := hearlier head List.mem_cons_self waited hbefore (hperm.mem_iff.mpr hwaited)
            simp at hlt
          rcases (le_of_ready?_eq_some hsorted found hhead hready).lt_or_eq with hlt | rfl
          · exact (List.cons_lt_cons_iff.mpr (.inl hlt)).le
          · have hdistinct : (first :: rest).Nodup := hperm.nodup_iff.mpr hsorted.nodup
            have hne : ∀ {position}, position ∈ rest → first ≠ position :=
              fun hmem heq => (List.nodup_cons.mp hdistinct).1 (heq ▸ hmem)
            refine List.cons_le_cons first (ih (hsorted.sublist List.erase_sublist) hstuck ?_ ?_)
            · simpa using hperm.erase first
            · intro position hposition other hbefore hother
              have hlt := hearlier position (.tail _ hposition) other hbefore (.tail _ hother)
              rw [List.idxOf_cons_ne _ (hne hother), List.idxOf_cons_ne _ (hne hposition)] at hlt
              exact Nat.lt_of_succ_lt_succ hlt
  | case2 remaining hnone =>
      simp only at hstuck
      subst hstuck
      rw [hperm.eq_nil]

theorem pairwise_ranksOf (order before : List Nat) :
    (Ordered.ranksOf order before).Pairwise (· < ·) := by
  rw [Ordered.ranksOf, List.pairwise_filterMap]
  refine (pairwise_lt_zipIdx order).imp fun {a b} hlt rank hrank later hlater => ?_
  obtain ⟨_, ⟨⟩⟩ := Option.ite_none_right_eq_some.mp hrank
  obtain ⟨_, ⟨⟩⟩ := Option.ite_none_right_eq_some.mp hlater
  exact hlt

/-- Without a cycle, ordering succeeds with the least order. -/
theorem exists_order_of_acyclic (h : graph.Acyclic) :
    ∃ order, graph.order = .ok (graph.along order) ∧ graph.Orders order ∧
      ∀ other, graph.Orders other → order ≤ other := by
  have hstuck : (arrange graph.before (List.range graph.instances.length)).2 = [] :=
    stuck_eq_nil_of_acyclic h
  have harranged : arrange graph.before (List.range graph.instances.length) =
      ((arrange graph.before (List.range graph.instances.length)).1, []) := Prod.ext rfl hstuck
  refine ⟨_, ?_, orders_of_arrange harranged, fun other horders => ?_⟩
  · rw [Graph.order, harranged, along]
  · exact arrange_le List.pairwise_lt_range hstuck horders.perm
      fun _ hposition _ hbefore hother => horders.earlier hposition hbefore hother

/-- A graph without a cycle is ordered.  The order holds every position once, each after
those before it, and is the least one of that kind; the instance at a rank is that of its
position, and depends on the ranks of the positions before it, told in increasing order,
all of which are smaller. -/
theorem order_least_of_acyclic (graph : Graph) (h : graph.Acyclic) :
    ∃ (ordered : Ordered) (order : List Nat), graph.order = .ok ordered ∧
      order.Perm (List.range graph.instances.length) ∧
      (∀ source ∈ order, ∀ target ∈ order, graph.Edge source target →
        order.idxOf source < order.idxOf target) ∧
      (∀ other, graph.Orders other → order ≤ other) ∧
      ordered.instances.Perm graph.instances ∧
      (∀ rank : Nat, ordered.instances[rank]? = order[rank]?.bind (graph.instances[·]?)) ∧
      ∀ rank position : Nat, order[rank]? = some position →
        (ordered.dependenciesOf rank).Pairwise (· < ·) ∧
        (∀ earlier, earlier ∈ ordered.dependenciesOf rank ↔
          ∃ source, order[earlier]? = some source ∧ graph.Edge source position) ∧
        ∀ earlier ∈ ordered.dependenciesOf rank, earlier < rank := by
  obtain ⟨order, hordered, horders, hleast⟩ := exists_order_of_acyclic h
  refine ⟨_, order, hordered, horders.perm, ?_, hleast, horders.instances_perm,
    horders.getElem?_instances, fun rank position hrank => ⟨?_, fun earlier => ?_, ?_⟩⟩
  · intro source hsource target htarget hedge
    exact horders.earlier htarget (edge_iff.mp hedge) hsource
  · have hranks : (graph.along order).dependenciesOf rank =
        Ordered.ranksOf order (graph.before position) := by
      simp [Ordered.dependenciesOf, along, hrank]
    rw [hranks]
    exact pairwise_ranksOf order (graph.before position)
  · simp only [mem_dependenciesOf_along, hrank, Option.some.injEq, edge_iff]
    constructor
    · rintro ⟨_, source, rfl, hsource, hbefore⟩
      exact ⟨source, hsource, hbefore⟩
    · rintro ⟨source, hsource, hbefore⟩
      exact ⟨position, source, rfl, hsource, hbefore⟩
  · exact fun earlier hmem => horders.lt_of_mem_dependenciesOf hmem

/-- Stations two of which refer to another. -/
def branches : List Instance :=
  [station 0 "a" [], station 1 "b" ["c"], station 2 "c" [], station 3 "d" ["a"]]

theorem ofInstances_branches : ofInstances branches = .ok ⟨branches, [[], [2], [], [0]]⟩ := by
  with_unfolding_all rfl

/-- The branches are arranged as the document lists them, apart from what has to come
earlier. -/
theorem orders_branches : Orders ⟨branches, [[], [2], [], [0]]⟩ [0, 2, 1, 3] :=
  orders_of_arrange (by with_unfolding_all rfl)

/-- No order of the branches is less than the one that is emitted. -/
theorem branches_ordered_least :
    Graph.Acyclic ⟨branches, [[], [2], [], [0]]⟩ ∧
      ∃ (ordered : Ordered) (least : List Nat),
        Graph.order ⟨branches, [[], [2], [], [0]]⟩ = .ok ordered ∧
          ∀ other, Orders ⟨branches, [[], [2], [], [0]]⟩ other → least ≤ other := by
  have hacyclic := acyclic_of_orders ofInstances_branches orders_branches
  obtain ⟨ordered, least, hordered, _, _, hleast, _⟩ := order_least_of_acyclic _ hacyclic
  exact ⟨hacyclic, ordered, least, hordered, hleast⟩

end Graph

end Firmware
