import Firmware.Proofs.Graph.Arrange
import Firmware.Proofs.Value.Spread
import Mathlib.Data.List.Nodup
/-!
Ordered instances.  An order lists the positions of a graph; what is emitted are the
instances in that order, and what they depend on is told by the ranks of positions
in it.  Every instance depends on earlier ones only.
-/

namespace Firmware

variable {graph : Graph} {order : List Nat} {ordered : Ordered} {rank later : Nat}

namespace Graph

/-- An order of all positions of a graph in which each comes after those before it. -/
structure Orders (graph : Graph) (order : List Nat) : Prop where
  perm : order.Perm (List.range graph.instances.length)
  earlier : ∀ {position other : Nat}, position ∈ order → other ∈ graph.before position →
    other ∈ order → order.idxOf other < order.idxOf position

/-- The instances of a graph in some order, with the ranks of those before each. -/
def along (graph : Graph) (order : List Nat) : Ordered :=
  ⟨order.filterMap (graph.instances[·]?),
    order.map fun position => Ordered.ranksOf order (graph.before position)⟩

theorem orders_of_arrange
    (h : arrange graph.before (List.range graph.instances.length) = (order, [])) :
    graph.Orders order := by
  have hperm := arrange_perm graph.before (List.range graph.instances.length)
  rw [h, List.append_nil] at hperm
  refine ⟨hperm, ?_⟩
  intro position other hmem hbefore hother
  have hlt := idxOf_lt_of_arrange List.nodup_range (by rwa [h]) hbefore (hperm.mem_iff.mp hother)
  rwa [h] at hlt

theorem order_eq_ok (h : graph.order = .ok ordered) :
    ∃ order, graph.Orders order ∧ ordered = graph.along order := by
  unfold Graph.order at h
  split at h
  · next order harranged => exact ⟨order, orders_of_arrange harranged, (Except.ok.inj h).symm⟩
  · simp at h

namespace Orders

theorem nodup (h : graph.Orders order) : order.Nodup :=
  h.perm.nodup_iff.mpr List.nodup_range

theorem lt_of_mem (h : graph.Orders order) {position : Nat} (hmem : position ∈ order) :
    position < graph.instances.length :=
  List.mem_range.mp (h.perm.mem_iff.mp hmem)

theorem idxOf_eq (h : graph.Orders order) {position : Nat} (hrank : order[rank]? = some position) :
    order.idxOf position = rank := by
  obtain ⟨hbound, rfl⟩ := List.getElem?_eq_some_iff.mp hrank
  exact h.nodup.idxOf_getElem rank hbound

end Orders

end Graph

/-- Looking up positions all of which are there keeps their number and their order. -/
theorem getElem?_filterMap_of_isSome {α β : Type} {lookup : α → Option β} {list : List α}
    (h : ∀ item ∈ list, (lookup item).isSome = true) (index : Nat) :
    (list.filterMap lookup)[index]? = list[index]?.bind lookup := by
  induction list generalizing index with
  | nil => rfl
  | cons item rest ih =>
      obtain ⟨found, hfound⟩ := Option.isSome_iff_exists.mp (h item List.mem_cons_self)
      rw [List.filterMap_cons_some hfound]
      cases index with
      | zero => simp [hfound]
      | succ index => simpa using ih (fun other hmem => h other (.tail _ hmem)) index

namespace Graph

theorem Orders.getElem?_instances (h : graph.Orders order) (rank : Nat) :
    (graph.along order).instances[rank]? = order[rank]?.bind (graph.instances[·]?) := by
  apply getElem?_filterMap_of_isSome
  intro position hmem
  simpa using h.lt_of_mem hmem

theorem Orders.exists_position (h : graph.Orders order) {inst : Instance}
    (hpresent : (graph.along order).instances[rank]? = some inst) :
    ∃ position, order[rank]? = some position ∧ graph.instances[position]? = some inst := by
  rw [h.getElem?_instances] at hpresent
  exact Option.bind_eq_some_iff.mp hpresent

/-- Ordering changes no instance and leaves none out. -/
theorem Orders.instances_perm (h : graph.Orders order) :
    (graph.along order).instances.Perm graph.instances := by
  have hall : (List.range graph.instances.length).filterMap (graph.instances[·]?) =
      graph.instances := by
    apply List.ext_getElem?
    intro index
    rw [getElem?_filterMap_of_isSome (by simp)]
    by_cases hbound : index < graph.instances.length
    · simp [hbound]
    · simp [hbound]
  have hperm := h.perm.filterMap (graph.instances[·]?)
  rwa [hall] at hperm

theorem mem_ranksOf {before : List Nat} :
    rank ∈ Ordered.ranksOf order before ↔ ∃ other, order[rank]? = some other ∧ other ∈ before := by
  simp only [Ordered.ranksOf, List.mem_filterMap, Prod.exists, List.mem_zipIdx_iff_getElem?,
    Option.ite_none_right_eq_some, Option.some.injEq]
  constructor
  · rintro ⟨other, _, hrank, hmem, rfl⟩
    exact ⟨other, hrank, hmem⟩
  · rintro ⟨other, hrank, hmem⟩
    exact ⟨other, rank, hrank, hmem, rfl⟩

/-- The dependencies at a rank are the ranks of the positions before its position. -/
theorem mem_dependenciesOf_along :
    rank ∈ (graph.along order).dependenciesOf later ↔
      ∃ position other, order[later]? = some position ∧ order[rank]? = some other ∧
        other ∈ graph.before position := by
  simp only [Ordered.dependenciesOf, along, List.getElem?_map]
  cases order[later]? with
  | none => simp
  | some position => simp [mem_ranksOf]

theorem Orders.lt_of_mem_dependenciesOf (h : graph.Orders order)
    (hmem : rank ∈ (graph.along order).dependenciesOf later) : rank < later := by
  obtain ⟨position, other, hlater, hrank, hbefore⟩ := mem_dependenciesOf_along.mp hmem
  have hlt := h.earlier (List.mem_of_getElem? hlater) hbefore (List.mem_of_getElem? hrank)
  rwa [h.idxOf_eq hlater, h.idxOf_eq hrank] at hlt

end Graph

end Firmware
