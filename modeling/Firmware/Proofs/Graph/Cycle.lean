import Firmware.Proofs.Graph.Edges
import Mathlib.Data.List.Cycle
import Mathlib.Data.List.MinMax
/-!
Cycles of a graph.  A position is stuck only if one before it is stuck as well, so a
walk backwards over stuck positions never has to stop, and comes back to a position that
it has passed.  The part of the walk from there on, turned round, is a cycle.
-/

namespace Firmware

namespace Graph

variable {before : Nat → List Nat} {remaining unvisited walk loop : List Nat}
  {start current position other again : Nat} {previous? : Nat → Option Nat}

theorem exists_stuck_before (h : position ∈ (arrange before remaining).2) :
    ∃ other ∈ before position, other ∈ (arrange before remaining).2 := by
  fun_induction arrange before remaining with
  | case1 remaining first found _ order stuck arranged ih =>
      simp only [arranged] at ih
      exact ih h
  | case2 remaining hnone =>
      have hwaits := List.find?_eq_none.mp hnone position h
      simpa using hwaits

/-- A walk backwards from a position that has not come back to any of its positions. -/
structure Walks (previous? : Nat → Option Nat) (start : Nat) (walk : List Nat) : Prop where
  start : walk.head? = some start
  steps : walk.IsChain fun position other => previous? position = some other
  distinct : walk.Nodup

/-- A walk backwards whose next position is one that it has passed. -/
structure Closes (previous? : Nat → Option Nat) (start : Nat) (walk : List Nat)
    (again : Nat) : Prop extends Walks previous? start walk where
  next : walk.getLast?.bind previous? = some again
  passed : again ∈ walk

/-- A walk goes on with a position that it has not passed. -/
theorem Walks.snoc (h : Walks previous? start walk) (hlast : walk.getLast? = some current)
    (hnext : previous? current = some other) (hnew : other ∉ walk) :
    Walks previous? start (walk ++ [other]) where
  start := by rw [List.head?_append, h.start, Option.some_or]
  steps := by
    refine List.isChain_append.mpr ⟨h.steps, .singleton _, ?_⟩
    intro last hmem first hfirst
    obtain rfl : current = last := Option.some.inj (hlast.symm.trans hmem)
    obtain rfl : other = first := by simpa using hfirst
    exact hnext
  distinct := h.distinct.append (List.nodup_singleton other) (by simpa using hnew)

/-- Among positions each of which has one to go back to, every walk closes. -/
theorem exists_closes {stuck : List Nat}
    (hback : ∀ position ∈ stuck, ∃ other ∈ stuck, previous? position = some other)
    (hwalk : Walks previous? start walk) (hlast : walk.getLast? = some current)
    (hinside : walk ⊆ stuck) (hcover : ∀ position ∈ stuck, position ∈ walk ∨ position ∈ unvisited) :
    ∃ whole again, Closes previous? start whole again ∧ whole ⊆ stuck ∧
      closedWalk previous? unvisited walk current = whole.dropWhile (· ≠ again) := by
  have hcurrent : ∀ {walk current}, walk.getLast? = some current → walk ⊆ stuck →
      ∃ other ∈ stuck, previous? current = some other :=
    fun hlast hinside => hback _ (hinside (List.mem_of_getLast? hlast))
  fun_induction closedWalk previous? unvisited walk current with
  | case1 unvisited walk current hnone =>
      obtain ⟨other, _, hother⟩ := hcurrent hlast hinside
      simp [hnone] at hother
  | case2 unvisited walk current previous hprevious hpassed =>
      exact ⟨walk, previous, ⟨hwalk, by simp [hlast, hprevious], hpassed⟩, hinside, rfl⟩
  | case3 unvisited walk current previous hprevious hnew _ _ ih =>
      obtain ⟨other, hstuck, hother⟩ := hcurrent hlast hinside
      obtain rfl := Option.some.inj (hprevious.symm.trans hother)
      apply ih (hwalk.snoc hlast hprevious hnew) (by simp)
      · exact List.append_subset.mpr ⟨hinside, by simpa using hstuck⟩
      · intro position hmem
        rcases hcover position hmem with hpassed | hunvisited
        · exact .inl (List.mem_append_left _ hpassed)
        · by_cases heq : position = previous
          · exact .inl (by simp [heq])
          · exact .inr ((List.mem_erase_of_ne heq).mpr hunvisited)
  | case4 unvisited walk current previous hprevious hnew hvisited =>
      obtain ⟨other, hstuck, hother⟩ := hcurrent hlast hinside
      obtain rfl := Option.some.inj (hprevious.symm.trans hother)
      exact absurd (hcover previous hstuck) (by simp [hnew, hvisited])

/-- A list is cut in two where a member of it occurs first. -/
theorem exists_eq_append_of_mem {list : List Nat} (h : position ∈ list) :
    ∃ passed rest, list = passed ++ position :: rest ∧
      list.takeWhile (· ≠ position) = passed ∧
      list.dropWhile (· ≠ position) = position :: rest := by
  induction list with
  | nil => simp at h
  | cons first rest ih =>
      by_cases heq : first = position
      · exact ⟨[], rest, by simp [heq], by simp [heq], by simp [heq]⟩
      · obtain ⟨passed, later, hrest, htake, hdrop⟩ :=
          ih ((List.mem_cons.mp h).resolve_left (Ne.symm heq))
        refine ⟨first :: passed, later, by rw [hrest, List.cons_append], ?_, ?_⟩
        · rw [List.takeWhile_cons_of_pos (by simpa using heq), htake]
        · rw [List.dropWhile_cons_of_pos (by simpa using heq), hdrop]

/-- The part of a closing walk from the repeated position on, turned round, is a
cycle. -/
theorem Closes.chain_reverse (h : Closes previous? start walk again) :
    Cycle.Chain (fun position other => previous? other = some position)
      ((walk.dropWhile (· ≠ again)).reverse : List Nat) := by
  obtain ⟨passed, rest, hwalk, _, hdrop⟩ := exists_eq_append_of_mem h.passed
  have hsteps := (List.isChain_append.mp (hwalk ▸ h.steps)).2.1
  have hlast := h.next
  rw [hwalk, List.getLast?_append_of_ne_nil _ (List.cons_ne_nil again rest)] at hlast
  rw [hdrop, List.reverse_cons, ← Cycle.coe_cons_eq_coe_append, Cycle.chain_coe_cons]
  have hturned : again :: (rest.reverse ++ [again]) = (again :: rest ++ [again]).reverse := by simp
  rw [hturned, List.isChain_reverse]
  refine List.isChain_append.mpr ⟨hsteps, .singleton _, ?_⟩
  intro last hmem first hfirst
  obtain rfl : again = first := by simpa using hfirst
  rwa [Option.mem_def.mp hmem, Option.bind_some] at hlast

theorem Closes.nodup_reverse (h : Closes previous? start walk again) :
    (walk.dropWhile (· ≠ again)).reverse.Nodup :=
  List.nodup_reverse.mpr (h.distinct.sublist (List.dropWhile_sublist _))

/-- A list is turned round until its least element comes first. -/
theorem fromLeast_isRotated (loop : List Nat) : fromLeast loop ~r loop := by
  unfold fromLeast
  split
  · exact List.isRotated_append.trans (by rw [List.takeWhile_append_dropWhile])
  · next hnone =>
      rw [List.min?_eq_none_iff.mp hnone]

theorem exists_fromLeast_eq_cons (hne : loop ≠ []) (hdistinct : loop.Nodup) :
    ∃ first rest, fromLeast loop = first :: rest ∧ ∀ position ∈ rest, first < position := by
  obtain ⟨least, hleast⟩ := Option.ne_none_iff_exists'.mp (mt List.min?_eq_none_iff.mp hne)
  obtain ⟨hmem, hle⟩ := List.min?_eq_some_iff.mp hleast
  obtain ⟨passed, rest, hloop, htake, hdrop⟩ := exists_eq_append_of_mem hmem
  have heq : fromLeast loop = least :: (rest ++ passed) := by
    simp only [fromLeast, hleast, htake, hdrop, List.cons_append]
  refine ⟨least, rest ++ passed, heq, fun position hposition => ?_⟩
  have hperm := (fromLeast_isRotated loop).perm
  have hdistinct' := hperm.nodup_iff.mpr hdistinct
  rw [heq] at hperm hdistinct'
  have hbelow := hle position (hperm.mem_iff.mp (.tail _ hposition))
  exact lt_of_le_of_ne hbelow fun hsame => (List.nodup_cons.mp hdistinct').1 (hsame ▸ hposition)

variable {graph : Graph} {instances : List Instance} {source target : Nat} {problem : Problem}

/-- The positions of a graph that never become ready. -/
def stuck (graph : Graph) : List Nat :=
  (arrange graph.before (List.range graph.instances.length)).2

theorem lt_of_mem_stuck (h : position ∈ graph.stuck) : position < graph.instances.length :=
  List.mem_range.mp ((arrange_perm _ _).mem_iff.mp (List.mem_append_right _ h))

/-- The earliest stuck position before a position. -/
def back? (graph : Graph) (position : Nat) : Option Nat :=
  (graph.before position).find? (· ∈ graph.stuck)

/-- The relation that a graph orders its positions by. -/
def Edge (graph : Graph) (source target : Nat) : Prop := graph.hasEdge source target = true

/-- Whether no position comes before itself, at any distance. -/
def Acyclic (graph : Graph) : Prop :=
  ∀ position, ¬ Relation.TransGen graph.Edge position position

theorem edge_iff : graph.Edge source target ↔ source ∈ graph.before target := by
  simp [Edge, hasEdge]

theorem exists_back?_eq (h : position ∈ graph.stuck) :
    ∃ other ∈ graph.stuck, graph.back? position = some other := by
  obtain ⟨other, hbefore, hstuck⟩ := exists_stuck_before h
  have hsome : ((graph.before position).find? (· ∈ graph.stuck)).isSome = true := by
    rw [List.find?_isSome]
    exact ⟨other, hbefore, decide_eq_true hstuck⟩
  obtain ⟨earliest, hearliest⟩ := Option.isSome_iff_exists.mp hsome
  exact ⟨earliest, by simpa using List.find?_some hearliest, hearliest⟩

theorem edge_of_back?_eq (h : graph.back? target = some source) : graph.Edge source target :=
  edge_iff.mpr (List.mem_of_find?_eq_some h)

/-- Ordering fails exactly if some position is stuck, and reports the cycle found there. -/
theorem order_eq_error_iff :
    graph.order = .error problem ↔ graph.stuck ≠ [] ∧
      problem = cycleProblem graph.instances (cycle graph.before graph.stuck) := by
  unfold order stuck
  split
  · next order harranged => simp [harranged]
  · next order stuck hne harranged =>
      simp only [harranged, Except.error.injEq, eq_comm (a := problem)]
      exact (and_iff_right hne).symm

/-- The walk backwards over stuck positions closes, and the cycle is read off from it. -/
theorem exists_closes_of_stuck (h : graph.stuck.head? = some start) :
    ∃ walk again, Closes graph.back? start walk again ∧ walk ⊆ graph.stuck ∧
      cycle graph.before graph.stuck = fromLeast (walk.dropWhile (· ≠ again)).reverse := by
  obtain ⟨others, hstuck⟩ := List.head?_eq_some_iff.mp h
  have hwalk : Walks graph.back? start [start] := ⟨rfl, .singleton _, List.nodup_singleton _⟩
  have hlast : [start].getLast? = some start := rfl
  have hcover : ∀ position ∈ graph.stuck, position ∈ [start] ∨ position ∈ others := by
    simp [hstuck]
  obtain ⟨walk, again, hcloses, hinside, hclosed⟩ :=
    exists_closes (fun _ => exists_back?_eq) hwalk hlast (by simp [hstuck]) hcover
  refine ⟨walk, again, hcloses, hinside, ?_⟩
  have hback : graph.back? = fun position =>
      (graph.before position).find? (· ∈ start :: others) := by
    funext position
    rw [back?, hstuck]
  rw [← hclosed, hback]
  simp only [cycle, hstuck]

/-- A cycle of a graph from its least position on: different positions, each of which
comes before the next, and the last of which comes before the first. -/
structure IsCycle (graph : Graph) (first : Nat) (rest : List Nat) : Prop where
  distinct : (first :: rest).Nodup
  least : ∀ position ∈ rest, first < position
  edges : (first :: rest ++ [first]).IsChain graph.Edge

theorem IsCycle.transGen {first : Nat} {rest : List Nat} (h : graph.IsCycle first rest) :
    Relation.TransGen graph.Edge first first := by
  have hchain : Cycle.Chain graph.Edge ((first :: rest : List Nat) : Cycle Nat) :=
    (Cycle.chain_coe_cons _ _ _).mpr h.edges
  have hall := Cycle.chain_iff_pairwise.mp (hchain.imp fun _ _ => Relation.TransGen.single)
  exact hall first (by simp) first (by simp)

/-- Where a position is stuck, what is reported is a cycle. -/
theorem exists_isCycle_of_stuck (h : graph.stuck ≠ []) :
    ∃ first rest, cycle graph.before graph.stuck = first :: rest ∧
      first :: rest ⊆ graph.stuck ∧ graph.IsCycle first rest := by
  obtain ⟨start, others, hstuck⟩ := List.exists_cons_of_ne_nil h
  obtain ⟨walk, again, hcloses, hinside, hcycle⟩ :=
    exists_closes_of_stuck (List.head?_eq_some_iff.mpr ⟨others, hstuck⟩)
  obtain ⟨_, _, _, _, hdrop⟩ := exists_eq_append_of_mem hcloses.passed
  have hne : (walk.dropWhile (· ≠ again)).reverse ≠ [] := by
    rw [hdrop]
    simp
  obtain ⟨first, rest, hfirst, hleast⟩ := exists_fromLeast_eq_cons hne hcloses.nodup_reverse
  have hrotated := fromLeast_isRotated (walk.dropWhile (· ≠ again)).reverse
  rw [hfirst] at hrotated
  refine ⟨first, rest, hcycle.trans hfirst, fun position hmem => ?_,
    hrotated.nodup_iff.mpr hcloses.nodup_reverse, hleast, ?_⟩
  · have hdropped := List.mem_reverse.mp (hrotated.mem_iff.mp hmem)
    exact hinside ((List.dropWhile_sublist _).subset hdropped)
  · have hchain := hcloses.chain_reverse
    rw [← Cycle.coe_eq_coe.mpr hrotated, Cycle.chain_coe_cons] at hchain
    exact hchain.imp fun _ _ => edge_of_back?_eq

theorem stuck_eq_nil_of_acyclic (h : graph.Acyclic) : graph.stuck = [] := by
  by_contra hne
  obtain ⟨first, rest, _, _, hcycle⟩ := exists_isCycle_of_stuck hne
  exact h first hcycle.transGen

/-- The ends of an edge are positions of instances, and different. -/
theorem lt_and_ne_of_edge (h : ofInstances instances = .ok graph)
    (hedge : graph.Edge source target) :
    source < graph.instances.length ∧ target < graph.instances.length ∧ source ≠ target := by
  rw [edge_iff] at hedge
  cases hpresent : graph.instances[target]? with
  | none =>
      rw [before, (ofInstances_eq_ok h).2, List.getElem?_mapIdx, hpresent] at hedge
      simp at hedge
  | some inst =>
      rw [before_eq h hpresent, mem_predecessorsAt] at hedge
      obtain ⟨hne, found, hfound, _⟩ := hedge
      exact ⟨(List.getElem?_eq_some_iff.mp hfound).1,
        (List.getElem?_eq_some_iff.mp hpresent).1, hne⟩

/-- A graph whose instances can be ordered has no cycle. -/
theorem acyclic_of_orders {order : List Nat} (h : ofInstances instances = .ok graph)
    (horders : graph.Orders order) : graph.Acyclic := by
  intro position hcycle
  have hmem : ∀ {position}, position < graph.instances.length → position ∈ order :=
    fun hbound => horders.perm.mem_iff.mpr (List.mem_range.mpr hbound)
  have hrises : ∀ {source target}, Relation.TransGen graph.Edge source target →
      order.idxOf source < order.idxOf target := by
    intro source target hpath
    induction hpath with
    | single hedge =>
        obtain ⟨hsource, htarget, _⟩ := lt_and_ne_of_edge h hedge
        exact horders.earlier (hmem htarget) (edge_iff.mp hedge) (hmem hsource)
    | tail _ hedge ih =>
        obtain ⟨hsource, htarget, _⟩ := lt_and_ne_of_edge h hedge
        exact ih.trans (horders.earlier (hmem htarget) (edge_iff.mp hedge) (hmem hsource))
  exact lt_irrefl _ (hrises hcycle)

/-- A failure to order names the instances at some positions, closed on the first. -/
theorem exists_cycleProblem_eq {first : Nat} {rest : List Nat}
    (hbound : ∀ position ∈ first :: rest, position < instances.length) :
    ∃ head others, instances[first]? = some head ∧ rest.map (instances[·]?) = others.map some ∧
      cycleProblem instances (first :: rest) =
        ⟨.dependencyCycle, some head.path,
          " -> ".intercalate ((head :: others ++ [head]).map (·.id.name))⟩ := by
  have hpresent : ∀ position ∈ first :: rest, instances[position]?.isSome = true := by
    simpa using hbound
  obtain ⟨head, hhead⟩ := Option.isSome_iff_exists.mp (hpresent first List.mem_cons_self)
  refine ⟨head, rest.filterMap (instances[·]?), hhead, ?_, ?_⟩
  · rw [List.map_filterMap_some_eq_filter_map_isSome, List.filter_eq_self.mpr]
    rintro _ hmem
    obtain ⟨position, hposition, rfl⟩ := List.mem_map.mp hmem
    exact hpresent position (.tail _ hposition)
  · simp only [cycleProblem, List.filterMap_cons_some hhead]

/-- Ordering fails exactly if the instances have a cycle.  The failure then reports one: at
least two different positions, from the least on, in the order of their edges.  It is found
by a walk backwards, which starts at the first stuck position, can go on from each, and
ends where it comes back to a position that it has passed. -/
theorem order_fails_iff_cycle (h : ofInstances instances = .ok graph) :
    ((∃ problem, graph.order = .error problem) ↔
        ∃ position, Relation.TransGen graph.Edge position position) ∧
      ∀ problem, graph.order = .error problem →
        (∃ first rest head others, graph.IsCycle first rest ∧ rest ≠ [] ∧
          graph.instances[first]? = some head ∧
          rest.map (graph.instances[·]?) = others.map some ∧
          problem = ⟨.dependencyCycle, some head.path,
            " -> ".intercalate ((head :: others ++ [head]).map (·.id.name))⟩) ∧
        (∃ start walk again, graph.stuck.head? = some start ∧
          Closes graph.back? start walk again ∧
          problem = cycleProblem graph.instances
            (fromLeast (walk.dropWhile (· ≠ again)).reverse)) ∧
        ∀ position ∈ graph.stuck, ∃ other ∈ graph.stuck, graph.back? position = some other := by
  refine ⟨⟨?_, ?_⟩, ?_⟩
  · rintro ⟨problem, hfails⟩
    obtain ⟨first, rest, _, _, hcycle⟩ := exists_isCycle_of_stuck (order_eq_error_iff.mp hfails).1
    exact ⟨first, hcycle.transGen⟩
  · rintro ⟨position, hpath⟩
    cases hordered : graph.order with
    | error problem => exact ⟨problem, rfl⟩
    | ok ordered =>
        obtain ⟨order, horders, _⟩ := order_eq_ok hordered
        exact absurd hpath (acyclic_of_orders h horders position)
  · intro problem hfails
    obtain ⟨hstuck, rfl⟩ := order_eq_error_iff.mp hfails
    refine ⟨?_, ?_, fun position => exists_back?_eq⟩
    · obtain ⟨first, rest, hfound, hinside, hcycle⟩ := exists_isCycle_of_stuck hstuck
      obtain ⟨head, others, hhead, hothers, hproblem⟩ :=
        exists_cycleProblem_eq fun position hmem => lt_of_mem_stuck (hinside hmem)
      refine ⟨first, rest, head, others, hcycle, ?_, hhead, hothers, hfound ▸ hproblem⟩
      rintro rfl
      -- A position that comes before itself would have an edge to itself.
      have hedge : graph.Edge first first := by simpa using hcycle.edges
      exact (lt_and_ne_of_edge h hedge).2.2 rfl
    · obtain ⟨start, others, hstart⟩ := List.exists_cons_of_ne_nil hstuck
      have hhead := List.head?_eq_some_iff.mpr ⟨others, hstart⟩
      obtain ⟨walk, again, hcloses, _, hcycle⟩ := exists_closes_of_stuck hhead
      exact ⟨start, walk, again, hhead, hcloses, hcycle ▸ rfl⟩

def station (index : Nat) (name : String) (others : List String) : Instance where
  index := index
  declaration := .ofSchema "station" (.empty "station")
  config := ⟨(Path.root.field "station").index index,
    ("id", .identifier (.explicit name "Station")) ::
      others.map fun other => (other, .identifier (.reference other "Station"))⟩
  id := ⟨name, "Station", true⟩

/-- Stations that refer to each other all round, and one that is free. -/
def ring : List Instance :=
  [station 0 "free" [], station 1 "a" ["c"], station 2 "b" ["a"], station 3 "c" ["b"]]

theorem ofInstances_ring : ofInstances ring = .ok ⟨ring, [[], [3], [1], [2]]⟩ := by
  with_unfolding_all rfl

theorem order_ring :
    order ⟨ring, [[], [3], [1], [2]]⟩ =
      .error ⟨.dependencyCycle, some [.key "station", .index 1], "a -> b -> c -> a"⟩ := by
  with_unfolding_all rfl

/-- The failure to order the ring is a cycle of its stations. -/
theorem ring_has_cycle :
    (∃ position, Relation.TransGen (Graph.Edge ⟨ring, [[], [3], [1], [2]]⟩) position position) ∧
      ∃ first rest, Graph.IsCycle ⟨ring, [[], [3], [1], [2]]⟩ first rest ∧ rest ≠ [] := by
  obtain ⟨hiff, hreports⟩ := order_fails_iff_cycle ofInstances_ring
  obtain ⟨⟨first, rest, _, _, hcycle, hne, _⟩, _⟩ := hreports _ order_ring
  exact ⟨hiff.mp ⟨_, order_ring⟩, first, rest, hcycle, hne⟩

end Graph

end Firmware
