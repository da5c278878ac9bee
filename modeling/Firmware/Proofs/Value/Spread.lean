import Firmware.Proofs.Value.Slots
import Mathlib.Data.List.Nodup
/-!
Identifier slots at different locations.  The slots below a location are spread out if
no two of them share one; slots below locations that part from each other stay spread
out together.
-/

namespace Firmware

namespace Path

variable {path left right : Path}

/-- Whether no location is below both of two. -/
def Parts (left right : Path) : Prop := ¬ left <+: right ∧ ¬ right <+: left

theorem Parts.not_below (h : left.Parts right) (hleft : left <+: path) : ¬ right <+: path :=
  fun hright => (List.prefix_or_prefix_of_prefix hleft hright).elim h.1 h.2

/-- Different steps lead to locations that part. -/
theorem parts_of_step_ne {a b : Segment} (path : Path) (h : a ≠ b) :
    Parts (path ++ [a]) (path ++ [b]) := by
  simp [Parts, List.prefix_append_right_inj, h, Ne.symm h]

theorem Parts.below {left' right' : Path} (h : left.Parts right) (hleft : left <+: left')
    (hright : right <+: right') : left'.Parts right' :=
  ⟨fun hbelow => h.not_below (hleft.trans hbelow) hright,
    fun hbelow => h.not_below hleft (hright.trans hbelow)⟩

end Path

theorem pairwise_lt_zipIdx {α : Type} (list : List α) {position : Nat} :
    (list.zipIdx position).Pairwise fun a b => a.2 < b.2 := by
  have hpositions : ((list.zipIdx position).map Prod.snd).Pairwise (· < ·) := by
    rw [List.zipIdx_map_snd]
    exact List.pairwise_lt_range'
  exact List.pairwise_map.mp hpositions

theorem pairwise_zipIdx {α : Type} (list : List α) (position : Nat) :
    (list.zipIdx position).Pairwise fun a b => a.2 ≠ b.2 :=
  (pairwise_lt_zipIdx list).imp Nat.ne_of_lt

/-- Slots that are all below a location, each at its own. -/
structure Spread (path : Path) (slots : List (Path × Slot)) : Prop where
  below : ∀ found ∈ slots, path <+: found.1
  distinct : (slots.map (·.1)).Nodup

variable {path : Path} {slots : List (Path × Slot)}

theorem Spread.nil (path : Path) : Spread path [] := ⟨by simp, .nil⟩

theorem Spread.singleton (path : Path) (slot : Slot) : Spread path [(path, slot)] :=
  ⟨by simp, by simp⟩

/-- Slots below locations that part are all at different locations. -/
theorem nodup_flatMap_of_parts {α : Type} {list : List α} {start : α → Path}
    {slotsOf : α → List (Path × Slot)} (hspread : ∀ item ∈ list, Spread (start item) (slotsOf item))
    (hparts : list.Pairwise fun a b => (start a).Parts (start b)) :
    ((list.flatMap slotsOf).map (·.1)).Nodup := by
  rw [List.map_flatMap, List.nodup_flatMap]
  refine ⟨fun item hmem => (hspread item hmem).distinct, ?_⟩
  apply hparts.imp_of_mem
  intro a b ha hb hpart location hleft hright
  obtain ⟨found, hfound, rfl⟩ := List.mem_map.mp hleft
  obtain ⟨found', hfound', heq⟩ := List.mem_map.mp hright
  apply hpart.not_below ((hspread a ha).below found hfound)
  exact heq ▸ (hspread b hb).below found' hfound'

/-- Slots below different steps from a location are spread out below it. -/
theorem Spread.flatMap {α : Type} {list : List α} {step : α → Segment}
    {slotsOf : α → List (Path × Slot)}
    (hspread : ∀ item ∈ list, Spread (path ++ [step item]) (slotsOf item))
    (hsteps : list.Pairwise fun a b => step a ≠ step b) : Spread path (list.flatMap slotsOf) := by
  refine ⟨fun found hfound => ?_, nodup_flatMap_of_parts hspread ?_⟩
  · obtain ⟨item, hmem, hin⟩ := List.mem_flatMap.mp hfound
    exact (List.prefix_append path _).trans ((hspread item hmem).below found hin)
  · exact hsteps.imp fun hne => Path.parts_of_step_ne path hne

namespace Value

theorem entrySlots_eq_flatMap (path : Path) (entries : List (String × Value)) :
    entrySlots path entries = entries.flatMap fun entry => entry.2.slots (path.field entry.1) := by
  induction entries with
  | nil => rfl
  | cons entry rest ih => rw [entrySlots, ih, List.flatMap_cons]

theorem itemSlots_eq_flatMap (path : Path) (position : Nat) (items : List Value) :
    itemSlots path position items =
      (items.zipIdx position).flatMap fun item => item.1.slots (path.index item.2) := by
  induction items generalizing position with
  | nil => rfl
  | cons item rest ih => rw [itemSlots, ih, List.zipIdx_cons, List.flatMap_cons]

/-- The slots of entries with different keys are spread out if those of each entry
are. -/
theorem spread_entrySlots {entries : List (String × Value)}
    (hkeys : (Table.keys entries).Nodup)
    (hspread : ∀ entry ∈ entries,
      Spread (path.field entry.1) (entry.2.slots (path.field entry.1))) :
    Spread path (entrySlots path entries) := by
  rw [entrySlots_eq_flatMap]
  refine Spread.flatMap hspread ((List.pairwise_map.mp hkeys).imp fun hne heq => ?_)
  exact hne (Segment.key.inj heq)

/-- The slots of a sequence are spread out if those of each item are. -/
theorem spread_itemSlots {position : Nat} {items : List Value}
    (hspread : ∀ item ∈ items.zipIdx position,
      Spread (path.index item.2) (item.1.slots (path.index item.2))) :
    Spread path (itemSlots path position items) := by
  rw [itemSlots_eq_flatMap]
  refine Spread.flatMap hspread ((pairwise_zipIdx items position).imp fun hne heq => ?_)
  exact hne (Segment.index.inj heq)

mutual

/-- Whether a value holds no mapping. -/
def isFlat : Value → Bool
  | .mapping _ _ => false
  | .sequence items => areFlat items
  | _ => true
termination_by structural value => value

def areFlat : List Value → Bool
  | [] => true
  | item :: rest => item.isFlat && areFlat rest
termination_by structural items => items

end

def isScalar : Value → Bool
  | .mapping _ _ | .sequence _ => false
  | _ => true

theorem isFlat_of_isScalar {value : Value} (h : value.isScalar = true) : value.isFlat = true := by
  cases value with
  | mapping | sequence => simp [isScalar] at h
  | _ => rfl

mutual

/-- Slots outside of mappings are wherever their value is put. -/
theorem spread_of_isFlat (path : Path) : ∀ {value : Value}, value.isFlat = true →
    Spread path (value.slots path)
  | .identifier slot, _ => .singleton path slot
  | .sequence items, h => by
      rw [isFlat] at h
      exact spread_itemSlots (spread_of_areFlat path 0 h)
  | .null, _ | .bool _, _ | .integer _, _ | .float _, _ | .text _, _ | .duration _, _ =>
      .nil path
  | .mapping _ _, h => by simp [isFlat] at h

theorem spread_of_areFlat (path : Path) (position : Nat) : ∀ {items : List Value},
    areFlat items = true → ∀ item ∈ items.zipIdx position,
      Spread (path.index item.2) (item.1.slots (path.index item.2))
  | [], _ => by simp
  | first :: rest, h => by
      rw [areFlat, Bool.and_eq_true] at h
      intro item hmem
      rw [List.zipIdx_cons] at hmem
      rcases List.mem_cons.mp hmem with rfl | hrest
      · exact spread_of_isFlat (path.index position) h.1
      · exact spread_of_areFlat path (position + 1) h.2 item hrest

end

end Value

end Firmware
