import Firmware.Proofs.Generator.Naming
import Firmware.Proofs.Validation.Reordered
/-!
Documents that differ in the order of keys.  What a run makes of a document does not depend
on the order of the keys in its instances: schemas put the entries of every mapping in their
own order before anything else looks at them.  Only the order in which problems are found
follows the document.
-/

namespace Firmware

open Validation

/-- Instances in JSON that are the same, or objects that only differ in the order of keys. -/
inductive Json.SameInstance : Json → Json → Prop
  | same (json : Json) : SameInstance json json
  | object {left right : List (String × Json)}
      (reordered : Json.Reordered (.object left) (.object right)) :
      SameInstance (.object left) (.object right)

/-- The instances of a kind, one by one. -/
inductive Json.SameInstances : Json → Json → Prop
  | one {left right : Json} (same : left.SameInstance right) : SameInstances left right
  | list {left right : List Json} (same : List.Forall₂ Json.SameInstance left right) :
      SameInstances (.array left) (.array right)

/-- Documents that only differ in the order of keys inside of their instances. -/
inductive Json.SameDocument : Json → Json → Prop
  | same (json : Json) : SameDocument json json
  | kinds {left right : Table String Json} (same : Table.Related Json.SameInstances left right) :
      SameDocument (.object left) (.object right)

/-- Failures at the same stage and with the same message, with causes that are the same in
any order. -/
def Failure.Alike (left right : Failure) : Prop :=
  left.stage = right.stage ∧ left.message = right.message ∧ left.causes.Perm right.causes

/-- Outcomes with the same code, or with failures that are alike; and with the same trace. -/
inductive Outcome.Alike : Outcome → Outcome → Prop
  | code (code : Code) (trace : List Entry) : Alike ⟨.ok code, trace⟩ ⟨.ok code, trace⟩
  | failure {left right : Failure} (alike : left.Alike right) (trace : List Entry) :
      Alike ⟨.error left, trace⟩ ⟨.error right, trace⟩

theorem Outcome.Alike.refl (outcome : Outcome) : outcome.Alike outcome := by
  obtain ⟨result, trace⟩ := outcome
  cases result with
  | ok code => exact .code code trace
  | error failure => exact .failure ⟨rfl, rfl, .refl _⟩ trace

/-- The message of a failure only tells how many causes there are. -/
theorem Failure.alike_ofProblems {left right : List Problem} (stage : Stage)
    (h : left.Perm right) : (ofProblems stage left).Alike (ofProblems stage right) := by
  refine ⟨rfl, ?_, h⟩
  rw [ofProblems, ofProblems, h.length_eq]

namespace Document

/-- Results of reading instances: the same problem, or nodes that only differ in order. -/
inductive ReadAlike : Except Problem Node → Except Problem Node → Prop
  | error (problem : Problem) : ReadAlike (.error problem) (.error problem)
  | ok {left right : Node} (reordered : left.Reordered right) : ReadAlike (.ok left) (.ok right)

variable {left right : Json} {results results' : List (Except Problem Node)}

theorem readNode_alike (h : left.SameInstance right) (path : Path) :
    ReadAlike (readNode path left) (readNode path right) := by
  cases h with
  | same json =>
      cases readNode path left with
      | error problem => exact .error problem
      | ok node => exact .ok (.refl node)
  | object hreordered => exact .ok (hreordered.ofJson path)

theorem readInstances_alike (h : left.SameInstances right) (kind : String) :
    List.Forall₂ ReadAlike (readInstances kind left) (readInstances kind right) := by
  cases h with
  | one hsame =>
      cases hsame with
      | same json =>
          refine List.forall₂_same.mpr fun result _ => ?_
          cases result with
          | error problem => exact .error problem
          | ok node => exact .ok (.refl node)
      | object hreordered => exact .cons (readNode_alike (.object hreordered) _) .nil
  | list hsame =>
      refine forall₂_mapIdx hsame.length_eq fun position a b ha hb => readNode_alike ?_ _
      obtain ⟨hleft, rfl⟩ := List.getElem?_eq_some_iff.mp ha
      obtain ⟨hright, rfl⟩ := List.getElem?_eq_some_iff.mp hb
      exact (List.forall₂_iff_get.mp hsame).2 position hleft hright

theorem problemsOf_eq (h : List.Forall₂ ReadAlike results results') :
    problemsOf results = problemsOf results' := by
  induction h with
  | nil => rfl
  | cons hfirst _ ih =>
      cases hfirst with
      | error problem => exact congrArg (problem :: ·) ih
      | ok => exact ih

theorem nodesOf_reordered (h : List.Forall₂ ReadAlike results results') :
    List.Forall₂ Node.Reordered (nodesOf results) (nodesOf results') := by
  induction h with
  | nil => exact .nil
  | cons hfirst _ ih =>
      cases hfirst with
      | error => exact ih
      | ok hreordered => exact .cons hreordered ih

/-- Documents with the same kinds, each with the same number of nodes, which only differ in
the order of their keys. -/
def Alike (left right : Document) : Prop :=
  Table.Related (List.Forall₂ Node.Reordered) left.kinds right.kinds

theorem readKinds_alike {left right : Table String Json}
    (h : Table.Related Json.SameInstances left right) :
    Table.Related (List.Forall₂ ReadAlike) (readKinds left) (readKinds right) := by
  refine List.forall₂_map_left_iff.mpr (List.forall₂_map_right_iff.mpr (h.imp ?_))
  rintro ⟨kind, a⟩ ⟨_, b⟩ ⟨rfl, hsame⟩
  exact ⟨rfl, readInstances_alike hsame kind⟩

theorem flatMap_problemsOf_eq {kinds kinds' : Table String (List (Except Problem Node))}
    (h : Table.Related (List.Forall₂ ReadAlike) kinds kinds') :
    (kinds.flatMap fun kind => problemsOf kind.2) =
      kinds'.flatMap fun kind => problemsOf kind.2 := by
  induction h with
  | nil => rfl
  | cons hfirst _ ih => rw [List.flatMap_cons, List.flatMap_cons, problemsOf_eq hfirst.2, ih]

/-- Documents that only differ in the order of keys are refused for the same reasons, or read
as documents that only differ so. -/
theorem ofJson_alike (h : left.SameDocument right) :
    (∃ problems, ofJson left = .error problems ∧ ofJson right = .error problems) ∨
      ∃ document document', ofJson left = .ok document ∧ ofJson right = .ok document' ∧
        document.Alike document' := by
  cases h with
  | same json =>
      cases hread : ofJson left with
      | error problems => exact .inl ⟨problems, rfl, rfl⟩
      | ok document =>
          refine .inr ⟨document, document, rfl, rfl, List.forall₂_same.mpr fun entry _ => ?_⟩
          exact ⟨rfl, List.forall₂_same.mpr fun node _ => .refl node⟩
  | @kinds left right hsame =>
      have hkinds := readKinds_alike hsame
      have hnodes : Table.Related (List.Forall₂ Node.Reordered)
          ((readKinds left).map fun kind => (kind.1, nodesOf kind.2))
          ((readKinds right).map fun kind => (kind.1, nodesOf kind.2)) := by
        refine List.forall₂_map_left_iff.mpr (List.forall₂_map_right_iff.mpr (hkinds.imp ?_))
        rintro a b ⟨hkey, hresults⟩
        exact ⟨hkey, nodesOf_reordered hresults⟩
      rw [ofJson_object, ofJson_object, flatMap_problemsOf_eq hkinds, Problem.settle,
        Problem.settle]
      split
      · exact .inr ⟨_, _, rfl, rfl, hnodes.ofList⟩
      · exact .inl ⟨_, rfl, rfl⟩

end Document

namespace Generator

variable {generator : Generator} {components : Components}

/-- Nodes that only differ in the order of keys make the same candidates. -/
theorem candidatesOf_agree (hcustom : components.EverySchema Schema.isCustomFree) (start : Nat)
    (kind : String) {left right : List Node} (h : List.Forall₂ Node.Reordered left right) :
    List.Forall₂ Agree (candidatesOf components start kind left)
      (candidatesOf components start kind right) := by
  unfold candidatesOf
  split
  · exact .cons (.refl _) .nil
  · next component hfound =>
      refine forall₂_mapIdx h.length_eq fun position a b ha hb => ?_
      obtain ⟨hleft, rfl⟩ := List.getElem?_eq_some_iff.mp ha
      obtain ⟨hright, rfl⟩ := List.getElem?_eq_some_iff.mp hb
      have hnodes : Node.Reordered left[position] right[position] :=
        (List.forall₂_iff_get.mp h).2 position hleft hright
      rw [hnodes.path_eq]
      exact (hnodes.validate_agree (hcustom hfound)).map _

theorem candidates_agree (hcustom : components.EverySchema Schema.isCustomFree) (start : Nat)
    {left right : Table String (List Node)}
    (h : Table.Related (List.Forall₂ Node.Reordered) left right) :
    List.Forall₂ Agree (candidates components start left) (candidates components start right) := by
  induction h generalizing start with
  | nil => exact .nil
  | @cons first first' _ _ hfirst _ ih =>
      obtain ⟨kind, nodes⟩ := first
      obtain ⟨_, nodes'⟩ := first'
      obtain ⟨rfl, hnodes⟩ := hfirst
      rw [candidates, candidates, hnodes.length_eq]
      exact List.rel_append (candidatesOf_agree hcustom start kind hnodes) (ih _)

/-- The order of keys decides neither what is generated from a document nor why nothing is,
as long as no schema has a supplied check. -/
theorem generateJson_alike {left right : Json}
    (hcustom : generator.components.EverySchema Schema.isCustomFree)
    (h : left.SameDocument right) :
    (generator.generateJson left).Alike (generator.generateJson right) := by
  rcases Document.ofJson_alike h with ⟨problems, hleft, hright⟩ |
    ⟨document, document', hleft, hright, hdocuments⟩
  · simp only [generateJson, hleft, hright]
    exact .refl _
  · have hagree := Agree.gather (candidates_agree hcustom 0 hdocuments)
    simp only [generateJson, hleft, hright, generate, plan]
    generalize gather (candidates generator.components 0 document.kinds) = a,
      gather (candidates generator.components 0 document'.kinds) = b at hagree
    cases hagree with
    | ok valid => exact .refl _
    | error hproblems => exact .failure (Failure.alike_ofProblems .validation hproblems) []

def probe : Component where
  declaration := .ofSchema "probe" ⟨"probe",
    [("id", .optional (.declareId "Probe" none)),
      ("range", .mandatory (.nested ⟨"range",
        [("low", .mandatory .anyInteger), ("high", .mandatory .anyInteger)], []⟩))], []⟩
  routine := fun _ _ => []
  observed := true

def probes : Generator where
  components := ⟨[("probe", probe)]⟩
  form := .standard
  reserved := []

/-- The configuration of a probe. -/
def innerProbe : List (String × Json) :=
  [("id", .text "inner"), ("range", .object [("low", .integer 1), ("high", .integer 5)])]

/-- The same configuration with all keys in another order. -/
def shuffledProbe : List (String × Json) :=
  [("range", .object [("high", .integer 5), ("low", .integer 1)]), ("id", .text "inner")]

/-- A document of two probes, with what is configured for the first one. -/
def probeJson (first : List (String × Json)) : Json :=
  .object [("probe", .array [.object first, .object [("id", .text "outer"),
    ("range", .object [("low", .integer 0), ("high", .integer 9)])]])]

/-- Two entries of an object may change places. -/
theorem reordered_swap {key other : String} (hne : key ≠ other) {a a' b b' : Json}
    (ha : a.Reordered a') (hb : b.Reordered b') :
    Json.Reordered (.object [(key, a), (other, b)]) (.object [(other, b'), (key, a')]) := by
  refine .object (by simp [Table.keys, hne]) (.swap other key []) ?_
  simp only [List.mem_cons, Prod.mk.injEq, List.not_mem_nil, or_false]
  rintro name _ _ (⟨rfl, rfl⟩ | ⟨rfl, rfl⟩) (⟨hsame, rfl⟩ | ⟨hsame, rfl⟩)
  · exact absurd hsame hne
  · exact ha
  · exact hb
  · exact absurd hsame.symm hne

/-- Wherever the range of the first probe stands, and whichever of its ends comes first, the
code is the same. -/
theorem probes_alike : (probes.generateJson (probeJson innerProbe)).result.isOk = true ∧
    (probes.generateJson (probeJson innerProbe)).Alike
      (probes.generateJson (probeJson shuffledProbe)) := by
  have hcustom : probes.components.EverySchema Schema.isCustomFree := by
    intro kind component hfound
    have hmem := Table.mem_of_get?_eq (Components.find_eq_ok_iff.mp hfound)
    obtain ⟨_, rfl⟩ := Prod.mk.inj (List.mem_singleton.mp hmem)
    rfl
  refine ⟨by decide +kernel, generateJson_alike hcustom ?_⟩
  have hrange := reordered_swap (show "low" ≠ "high" by decide) (.same (.integer 1))
    (.same (.integer 5))
  have hfirst := reordered_swap (show "id" ≠ "range" by decide) (.same (.text "inner")) hrange
  exact .kinds (.cons ⟨rfl, .list (.cons (.object hfirst) (.cons (.same _) .nil))⟩ .nil)

end Generator

end Firmware
