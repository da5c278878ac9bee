import Firmware.Graph.Countdown
import Firmware.Proofs.Graph.Least
import Firmware.Proofs.Graph.Links
import Firmware.Proofs.Graph.Sorting
/-!
Counting down through both ends of edges.  What waits for a position is told by the edges that
come before it, and is lowered through those that come after it.  As both hold the same edges,
no count goes astray, and positions are taken in the order in which they are arranged.
-/

namespace Firmware

namespace Links

variable {links : Links} {count source target : Nat} {entered : List (Nat × Nat)}

/-- Both ends of the edges agree. -/
theorem Keeps.mem_after_iff (h : links.Keeps count entered) :
    target ∈ links.after source ↔ source ∈ links.before target :=
  h.mem_after.trans h.mem_before.symm

theorem lt_length_of_mem_getD {lists : List (List Nat)}
    (h : target ∈ (lists[source]?).getD []) : source < lists.length := by
  by_contra hle
  simp [List.getElem?_eq_none (Nat.le_of_not_lt hle)] at h

theorem Keeps.bounds (h : links.Keeps count entered)
    (hmem : source ∈ links.before target) : source < count ∧ target < count :=
  ⟨h.successors ▸ lt_length_of_mem_getD (h.mem_after_iff.mpr hmem),
    h.predecessors ▸ lt_length_of_mem_getD hmem⟩

end Links

namespace Countdown

variable {links : Links} {count position other : Nat} {entered : List (Nat × Nat)}
  {state : Countdown} {remaining rest followers : List Nat}

/-- What lowering the counts of some positions comes to: each of them waits for one fewer, and
those that have waited for one only become ready. -/
structure Lowers (followers : List Nat) (state lowered : Countdown) : Prop where
  waits : ∀ position, lowered.waits[position]? =
    if position ∈ followers then state.waits[position]?.map (· - 1) else state.waits[position]?
  mem_ready : ∀ position, position ∈ lowered.ready ↔
    position ∈ state.ready ∨ position ∈ followers ∧ state.waits[position]? = some 1
  ascending : state.ready.Pairwise (· < ·) → lowered.ready.Pairwise (· < ·)

theorem lowers_lower (state : Countdown) (position : Nat) :
    Lowers [position] state (state.lower position) := by
  unfold lower
  split
  · next count hcount =>
      obtain ⟨hbound, hvalue⟩ := List.getElem?_eq_some_iff.mp hcount
      refine ⟨fun other => ?_, fun other => ?_, fun hascending => ?_⟩
      · rw [List.getElem?_set]
        by_cases heq : position = other
        · subst heq
          simp [hbound, hvalue]
        · simp [heq, Ne.symm heq]
      · cases count with
        | zero =>
            simp only [if_true, mem_insertPosition, List.mem_singleton]
            grind
        | succ count => grind
      · simp only
        split
        · exact pairwise_insertPosition position hascending
        · exact hascending
  · next hzero =>
      refine ⟨fun other => ?_, fun other => ?_, id⟩
      · by_cases heq : other = position
        · subst heq
          rw [if_pos (List.mem_singleton_self other)]
          cases hwaits : state.waits[other]? with
          | none => rfl
          | some count =>
              cases count with
              | zero => rfl
              | succ count => exact absurd hwaits (hzero count)
        · simp [heq]
      · grind

theorem lowers_foldl (state : Countdown) (hnodup : followers.Nodup) :
    Lowers followers state (followers.foldl lower state) := by
  induction followers generalizing state with
  | nil => exact ⟨fun _ => rfl, by simp, id⟩
  | cons first later ih =>
      obtain ⟨hfirst, hnodup⟩ := List.nodup_cons.mp hnodup
      have hstep := lowers_lower state first
      have hrest := ih (state.lower first) hnodup
      refine ⟨fun other => ?_, fun other => ?_, hrest.ascending ∘ hstep.ascending⟩
      · rw [List.foldl_cons, hrest.waits, hstep.waits]
        by_cases heq : other = first
        · subst heq
          simp [hfirst]
        · simp [heq]
      · rw [List.foldl_cons, hrest.mem_ready, hstep.mem_ready, hstep.waits]
        by_cases heq : other = first
        · subst heq
          simp [hfirst]
        · simp [heq]

/-- What a countdown has come to when some positions remain, told in increasing order: each
waits for those before it that remain, those of them that wait for none are ready, and none
waits that does not remain. -/
structure Tells (links : Links) (count : Nat) (remaining : List Nat) (state : Countdown) :
    Prop where
  sorted : remaining.Pairwise (· < ·)
  bounded : ∀ position ∈ remaining, position < count
  waits : state.waits =
    (List.range count).map fun position => ((links.before position).filter (· ∈ remaining)).length
  ascending : state.ready.Pairwise (· < ·)
  mem_ready : ∀ position, position ∈ state.ready ↔
    position ∈ remaining ∧ state.waits[position]? = some 0
  idle : ∀ position < count, position ∉ remaining → state.waits[position]? = some 0

theorem Tells.getElem?_waits (h : Tells links count remaining state) (hbound : position < count) :
    state.waits[position]? = some ((links.before position).filter (· ∈ remaining)).length := by
  simp [h.waits, hbound]

/-- A position waits for none exactly if none of those before it remains. -/
theorem Tells.waits_eq_zero_iff (h : Tells links count remaining state)
    (hbound : position < count) :
    state.waits[position]? = some 0 ↔ ∀ other ∈ links.before position, other ∉ remaining := by
  simp [h.getElem?_waits hbound]

theorem tells_start (h : links.Keeps count entered) :
    Tells links count (List.range count) (start links) where
  sorted := List.pairwise_lt_range
  bounded _ := List.mem_range.mp
  waits := by
    refine List.ext_getElem (by simp [start, h.predecessors]) fun position hbound _ => ?_
    have hpresent : position < links.predecessors.length := by simpa [start] using hbound
    have hbefore : links.before position = links.predecessors[position] := by
      simp [Links.before, hpresent]
    have hall : links.predecessors[position].filter (· ∈ List.range count) =
        links.predecessors[position] := by
      refine List.filter_eq_self.mpr fun source hmem => decide_eq_true (List.mem_range.mpr ?_)
      exact (h.bounds (hbefore ▸ hmem)).1
    simp only [start, List.getElem_map, List.getElem_range, hbefore, hall]
  ascending := List.pairwise_lt_range.sublist List.filter_sublist
  mem_ready position := by simp [start, h.predecessors]
  idle position hbound hgone := absurd (List.mem_range.mpr hbound) hgone

/-- Where one of the remaining positions is taken away, one fewer of some positions remains if
it is among them. -/
theorem length_filter_mem_erase {sources : List Nat} (hsources : sources.Nodup)
    (hremaining : remaining.Nodup) (hmem : position ∈ remaining) :
    (sources.filter (· ∈ remaining.erase position)).length =
      if position ∈ sources then (sources.filter (· ∈ remaining)).length - 1
      else (sources.filter (· ∈ remaining)).length := by
  have hfilter : sources.filter (· ∈ remaining.erase position) =
      (sources.filter (· ∈ remaining)).erase position := by
    rw [(hsources.filter _).erase_eq_filter, List.filter_filter]
    refine List.filter_congr fun other _ => ?_
    rw [← Bool.decide_eq_true (b := other != position), ← Bool.decide_and]
    simp [hremaining.mem_erase_iff]
  rw [hfilter, List.length_erase]
  simp [hmem]

/-- What comes after a remaining position remains as well, and waits. -/
theorem Tells.waits_ne_zero (h : Tells links count remaining state)
    (hlinks : links.Keeps count entered) (hmem : position ∈ remaining)
    (hafter : other ∈ links.after position) :
    other < count ∧ other ∈ remaining ∧ state.waits[other]? ≠ some 0 := by
  have hbefore := hlinks.mem_after_iff.mp hafter
  have hbound := (hlinks.bounds hbefore).2
  have hwaits : state.waits[other]? ≠ some 0 :=
    fun hnone => (h.waits_eq_zero_iff hbound).mp hnone position hbefore hmem
  refine ⟨hbound, ?_, hwaits⟩
  by_contra hgone
  exact hwaits (h.idle other hbound hgone)

/-- Taking a ready position lowers the counts of those that wait for it. -/
theorem Tells.take (h : Tells links count remaining state) (hlinks : links.Keeps count entered)
    (hready : state.ready = position :: rest) :
    Tells links count (remaining.erase position) (state.take rest (links.after position)) := by
  obtain ⟨hmem, hzero⟩ := (h.mem_ready position).mp (hready ▸ List.mem_cons_self)
  obtain ⟨hfirst, hrest⟩ := List.pairwise_cons.mp (hready ▸ h.ascending)
  have hlowers : Lowers (links.after position) ⟨state.waits, rest⟩
      (state.take rest (links.after position)) :=
    lowers_foldl _ (hlinks.ascending position).1.nodup
  refine ⟨h.sorted.sublist List.erase_sublist, fun other hother => h.bounded other
    (List.mem_of_mem_erase hother), ?_, hlowers.ascending hrest, fun other => ?_,
    fun other hbound hgone => ?_⟩
  · refine List.ext_getElem? fun other => ?_
    rw [hlowers.waits, h.waits]
    by_cases hbound : other < count
    · simp only [List.getElem?_map, List.getElem?_range hbound, Option.map_some,
        length_filter_mem_erase (hlinks.ascending other).2.nodup h.sorted.nodup hmem,
        hlinks.mem_after_iff]
      split <;> rfl
    · simp [hbound]
  · have hcases := h.mem_ready other
    rw [hready, List.mem_cons] at hcases
    have hlater : other ∈ rest → other ≠ position := fun hmem => Nat.ne_of_gt (hfirst other hmem)
    rw [hlowers.mem_ready, hlowers.waits, h.sorted.nodup.mem_erase_iff]
    by_cases hafter : other ∈ links.after position
    · obtain ⟨hbound, hremains, hwaits⟩ := h.waits_ne_zero hlinks hmem hafter
      obtain ⟨waits, hvalue⟩ : ∃ waits, state.waits[other]? = some waits :=
        ⟨_, h.getElem?_waits hbound⟩
      simp only [hvalue, hafter, if_true, Option.map_some, Option.some.injEq, ne_eq]
        at hcases hwaits ⊢
      have hone : waits = 1 ↔ waits - 1 = 0 := by omega
      grind
    · grind
  · have hnone : state.waits[other]? = some 0 := by
      by_cases hremains : other ∈ remaining
      · have heq : other = position := by
          by_contra hne
          exact hgone ((List.mem_erase_of_ne hne).mpr hremains)
        exact heq ▸ hzero
      · exact h.idle other hbound hremains
    rw [hlowers.waits]
    split <;> simp [hnone]

/-- The position that is taken is the earliest one that is ready. -/
theorem Tells.ready?_eq (h : Tells links count remaining state) :
    Graph.ready? links.before remaining = state.ready.head? := by
  have hready : state.ready =
      remaining.filter fun position => (links.before position).all fun other =>
        other ∉ remaining := by
    refine eq_of_pairwise_of_mem_iff h.ascending (h.sorted.sublist List.filter_sublist) ?_
    intro position
    rw [h.mem_ready, List.mem_filter]
    refine and_congr_right fun hmem => ?_
    simp [h.waits_eq_zero_iff (h.bounded position hmem)]
  rw [hready, List.head?_filter]
  rfl

/-- Positions are taken in the order in which they are arranged. -/
theorem Tells.run_eq (h : Tells links count remaining state) (hlinks : links.Keeps count entered) :
    run links state = Graph.arrange links.before remaining := by
  fun_induction run links state generalizing remaining with
  | case1 state hnone =>
      have hready : Graph.ready? links.before remaining = none := by rw [h.ready?_eq, hnone]; rfl
      have hstuck : (List.range state.waits.length).filter
          (fun position => state.waits[position]? ≠ some 0) = remaining := by
        refine eq_of_pairwise_of_mem_iff (List.pairwise_lt_range.sublist List.filter_sublist)
          h.sorted fun position => ?_
        have hempty := h.mem_ready position
        rw [hnone] at hempty
        have hlength : state.waits.length = count := by simp [h.waits]
        have hbounded := h.bounded position
        have hidle := h.idle position
        rw [List.mem_filter, List.mem_range, hlength, decide_eq_true_eq]
        grind
      rw [hstuck, Graph.arrange_of_none hready]
  | case2 state position rest hfirst hlt order stuck hrun ih =>
      have hready : Graph.ready? links.before remaining = some position := by
        rw [h.ready?_eq, hfirst]
        rfl
      rw [Graph.arrange_of_some hready, ← ih (h.take hlinks hfirst), hrun]

end Countdown

namespace Graph

variable {graph : Graph} {instances : List Instance}

/-- Counting down arranges the positions of a graph. -/
theorem run_ofInstances (h : ofInstances instances = .ok graph) :
    Countdown.run (Links.ofInstances graph.instances)
        (.start (Links.ofInstances graph.instances)) =
      arrange graph.before (List.range graph.instances.length) := by
  have hbefore : (Links.ofInstances graph.instances).before = graph.before := by
    funext position
    rw [Links.before, before, predecessors_eq h]
  have hkeeps := keeps_ofInstances graph.instances
  rw [(Countdown.tells_start hkeeps).run_eq hkeeps, hbefore]

/-- In a graph the instances stand in document order, and an edge leads from one to another
exactly if that one depends on its kind or refers to a name that it provides.  The edges are
the same from both of their ends, and counting down what comes before through what comes
after arranges positions as the graph does.  Instances whose indices are all different are
ordered alike, or fail to be for the same problems, however they are listed. -/
theorem edges_precede_and_mirror (instances : List Instance) :
    (∀ graph, ofInstances instances = .ok graph →
      SortsStably instances graph.instances ∧
        (∀ source target, graph.hasEdge source target = true ↔
          Precedes graph.instances source target) ∧
        graph.predecessors = (Links.ofInstances graph.instances).predecessors ∧
        (∀ source target,
          (graph.hasEdge source target = true ↔
            target ∈ (Links.ofInstances graph.instances).after source) ∧
          (target ∈ (Links.ofInstances graph.instances).after source ↔
            source ∈ graph.before target)) ∧
        Countdown.run (Links.ofInstances graph.instances)
            (.start (Links.ofInstances graph.instances)) =
          arrange graph.before (List.range graph.instances.length)) ∧
      ((instances.map (·.index)).Nodup → ∀ others, others.Perm instances →
        Ordered.ofInstances others = Ordered.ofInstances instances) := by
  refine ⟨fun graph h => ?_, fun hdistinct others hperm => ordered_eq_of_perm hdistinct hperm⟩
  have hedge : ∀ source target, graph.hasEdge source target = true ↔
      Precedes graph.instances source target := fun _ _ => hasEdge_iff_precedes h
  have hafter : ∀ source target, graph.hasEdge source target = true ↔
      target ∈ (Links.ofInstances graph.instances).after source :=
    fun source target => (hedge source target).trans mem_after_iff.symm
  refine ⟨?_, hedge, predecessors_eq h, fun source target => ⟨hafter source target, ?_⟩,
    run_ofInstances h⟩
  · rw [(ofInstances_eq_ok h).1]
    exact sortByIndex_sortsStably instances
  · rw [← hafter, hasEdge, List.contains_iff_mem]

/-- The branches may be listed backwards. -/
theorem branches_edges_mirrored :
    Precedes branches 2 1 ∧ ¬ Precedes branches 1 2 ∧
      Ordered.ofInstances branches.reverse = Ordered.ofInstances branches := by
  obtain ⟨hgraph, horder⟩ := edges_precede_and_mirror branches
  obtain ⟨_, hedge, _⟩ := hgraph _ ofInstances_branches
  exact ⟨(hedge 2 1).mp (by decide), fun h => absurd ((hedge 1 2).mpr h) (by decide),
    horder (by decide) _ (List.reverse_perm _)⟩

end Graph

end Firmware
