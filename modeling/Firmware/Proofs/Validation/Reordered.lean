import Firmware.Proofs.Validation.Reports
import Firmware.Proofs.Validation.Spread
import Firmware.Proofs.Value.Reordered
import Mathlib.Data.List.Perm.Basic
/-!
Validation without regard to the order of keys.  A schema looks for its fields by name, so
that nodes with the same keys in another order are made the same node, or are refused with
the same problems in another order.  Only a supplied check may look at the order.
-/

namespace Firmware

open Validation

namespace Validation

variable {α β : Type} {left right : Except (List Problem) α}

/-- Results that are the same value, or failures with the same problems in any order. -/
inductive Agree : Except (List Problem) α → Except (List Problem) α → Prop
  | ok (value : α) : Agree (.ok value) (.ok value)
  | error {left right : List Problem} (problems : left.Perm right) :
      Agree (.error left) (.error right)

theorem Agree.refl (result : Except (List Problem) α) : Agree result result := by
  cases result with
  | ok value => exact .ok value
  | error problems => exact .error (.refl problems)

theorem Agree.map (h : Agree left right) (change : α → β) :
    Agree (left.map change) (right.map change) := by
  cases h with
  | ok value => exact .ok (change value)
  | error hproblems => exact .error hproblems

theorem Agree.reported (h : Agree left right) : (reported left).Perm (reported right) := by
  cases h with
  | ok value => exact .refl _
  | error hproblems => exact hproblems

theorem Agree.gather {results results' : List (Except (List Problem) α)}
    (h : List.Forall₂ Agree results results') : Agree (gather results) (gather results') := by
  induction h with
  | nil => exact .ok []
  | @cons _ _ rest rest' hfirst _ ih =>
      cases hfirst with
      | ok value =>
          rw [Validation.gather, Validation.gather]
          exact ih.map _
      | error hproblems =>
          rw [Validation.gather, Validation.gather]
          generalize Validation.gather rest = a, Validation.gather rest' = b at ih
          cases ih with
          | ok => exact .error hproblems
          | error hmore => exact .error (hproblems.append hmore)

end Validation

/-- Lists whose elements correspond, with their positions, to others of the same length. -/
theorem forall₂_mapIdx {α β γ δ : Type} {related : γ → δ → Prop} {f : Nat → α → γ}
    {g : Nat → β → δ} {left : List α} {right : List β} (hlength : left.length = right.length)
    (h : ∀ (position : Nat) (a : α) (b : β), left[position]? = some a →
      right[position]? = some b → related (f position a) (g position b)) :
    List.Forall₂ related (left.mapIdx f) (right.mapIdx g) := by
  rw [List.forall₂_iff_get]
  refine ⟨by simpa using hlength, fun position hleft hright => ?_⟩
  rw [List.length_mapIdx] at hleft hright
  simp only [List.get_eq_getElem, List.getElem_mapIdx]
  exact h position _ _ (List.getElem?_eq_getElem hleft) (List.getElem?_eq_getElem hright)

/-- Whether a kind makes the same of values that only differ in the order of their keys. -/
def Kind.IgnoresOrder (kind : Kind) : Prop :=
  ∀ (path : Path) (name : String) (left right : Value), left.Reordered right →
    Agree (kind.convert path name left) (kind.convert path name right)

variable {path : Path} {kind : Kind} {schema : Schema} {field : Field}

namespace Node.Reordered

variable {left right : Node}

/-- A field is given in both nodes or in none, and the values correspond. -/
theorem given? (h : left.Reordered right) (name : String) :
    Option.Rel Value.Reordered (left.given? name) (right.given? name) := by
  have hget := h.get? name
  rw [Node.given?, Node.given?]
  generalize left.get? name = a, right.get? name = b at hget
  cases hget with
  | none => exact .none
  | some hvalues =>
      rw [Option.filter_some, Option.filter_some, hvalues.isNull_eq]
      split
      · exact .some hvalues
      · exact .none

theorem unknownKeys_perm (h : left.Reordered right) (fields : Table String Field) (path : Path) :
    (unknownKeys left fields path).Perm (unknownKeys right fields path) :=
  (h.keys_perm.filter _).map _

theorem result_agree (h : left.Reordered right) (hkind : field.kind.IgnoresOrder) (path : Path)
    (name : String) :
    Agree (field.result path left name) (field.result path right name) := by
  have hgiven := h.given? name
  rw [Field.result, Field.result]
  generalize left.given? name = a, right.given? name = b at hgiven
  cases hgiven with
  | none => exact .refl _
  | some hvalues => exact (hkind _ _ _ _ hvalues).map _

end Node.Reordered

namespace Schema

variable {left right : Node}

theorem faults_perm (h : left.Reordered right)
    (hfields : ∀ entry ∈ schema.fields, entry.2.kind.IgnoresOrder) (path : Path) :
    (schema.faults path left).Perm (schema.faults path right) := by
  have hresults := List.Perm.flatMap_left schema.fields fun entry hmem =>
    (h.result_agree (hfields entry hmem) path entry.1).reported
  exact hresults.append (h.unknownKeys_perm schema.fields path)

/-- The values that fields have are the same, even where other fields have problems. -/
theorem entriesOf_results_eq (h : left.Reordered right)
    (hfields : ∀ entry ∈ schema.fields, entry.2.kind.IgnoresOrder) (path : Path) :
    entriesOf (results path schema.fields left) = entriesOf (results path schema.fields right) := by
  rw [results_eq_map, results_eq_map, entriesOf, entriesOf, List.filterMap_map,
    List.filterMap_map]
  refine List.filterMap_congr fun entry hmem => ?_
  have hagree := h.result_agree (hfields entry hmem) path entry.1
  simp only [Function.comp_apply]
  generalize entry.2.result path left entry.1 = a, entry.2.result path right entry.1 = b at hagree
  cases hagree <;> rfl

/-- What is wrong, is wrong in both nodes; and otherwise the fields have the same values. -/
theorem validate_agree (h : left.Reordered right)
    (hfields : ∀ entry ∈ schema.fields, entry.2.kind.IgnoresOrder) :
    Agree (schema.validate path left) (schema.validate path right) := by
  have hfaults := faults_perm h hfields path
  have hentries := entriesOf_results_eq h hfields path
  have hbreaches : schema.breaches path left = schema.breaches path right := by
    rw [breaches, breaches, hentries]
  rw [validate_eq, validate_eq, hbreaches, hentries]
  by_cases hnone : schema.faults path left = []
  · rw [if_pos hnone, if_pos (List.nil_perm.mp (hnone ▸ hfaults))]
    exact .refl _
  · have hsome : schema.faults path right ≠ [] := fun hright =>
      hnone (List.perm_nil.mp (hright ▸ hfaults))
    rw [if_neg hnone, if_neg hsome]
    exact .error hfaults

end Schema

namespace Kind

/-- A kind without parts takes mappings and sequences for what they are, whatever is in
them. -/
theorem ignoresOrder_of_isSimple (hsimple : kind.isSimple = true)
    (hcustom : kind.isCustom = false) : kind.IgnoresOrder := by
  intro path name left right h
  cases h with
  | same => exact .refl _
  | sequence | mapping =>
      cases kind with
      | nested | sequenceOf => simp [isSimple] at hsimple
      | custom => simp [isCustom] at hcustom
      | _ => exact .refl _

theorem IgnoresOrder.sequenceOf {item : Kind} (h : item.IgnoresOrder) :
    (Kind.sequenceOf item).IgnoresOrder := by
  intro path name left right hreordered
  obtain ⟨hlength, hitems⟩ := hreordered.items
  rw [convert, convert]
  refine Agree.map (Agree.gather (forall₂_mapIdx hlength fun position a b ha hb => ?_)) _
  exact h _ _ _ _ (hitems position a b ha hb)

theorem IgnoresOrder.nested (h : ∀ entry ∈ schema.fields, entry.2.kind.IgnoresOrder) :
    (Kind.nested schema).IgnoresOrder := by
  intro path name left right hreordered
  cases hreordered with
  | same => exact .refl _
  | sequence => exact .refl _
  | @mapping own left right hdistinct hkeys hvalues =>
      have hnodes : (Node.mk own left).Reordered ⟨own, right⟩ :=
        .mapping own hdistinct hkeys hvalues
      exact (Schema.validate_agree hnodes h).map Node.toValue

end Kind

/-- Without supplied checks, the order of keys does not matter. -/
theorem hereditary_ignoresOrder :
    Kind.Hereditary (fun kind => !kind.isCustom) Kind.IgnoresOrder where
  simple _ hsimple hpasses := Kind.ignoresOrder_of_isSimple hsimple (by simpa using hpasses)
  sequenceOf _ := .sequenceOf
  nested _ := .nested

/-- A schema without supplied checks makes the same node of nodes that only differ in the
order of their keys, or refuses them for the same reasons. -/
theorem Node.Reordered.validate_agree {left right : Node} (h : left.Reordered right)
    (hcustom : schema.isCustomFree = true) :
    Agree (schema.validate path left) (schema.validate path right) :=
  Schema.validate_agree h (hereditary_ignoresOrder.of_schema schema hcustom)

end Firmware
