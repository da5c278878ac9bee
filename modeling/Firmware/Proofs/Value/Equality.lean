import Firmware.Proofs.Value.Content
import Firmware.Proofs.Value.Reaching
import Firmware.Value.Equality
/-!
Values with the same content.  Equality does not look at the locations of mappings; and where
every mapping is located where it stands, values with the same content are the same.
-/

namespace Firmware

namespace Value

variable {path : Path} {value other : Value}

/-- Lists with the same image under a function are the same if it tells apart what stands at one
position. -/
theorem eq_of_map_eq {α γ : Type} {f : α → γ} {left right : List α}
    (himp : ∀ (position : Nat) (a b : α), left[position]? = some a → right[position]? = some b →
      f a = f b → a = b) (h : left.map f = right.map f) : left = right := by
  refine List.ext_getElem (by simpa using congrArg List.length h) fun position hleft hright => ?_
  refine himp position _ _ (List.getElem?_eq_getElem hleft) (List.getElem?_eq_getElem hright) ?_
  have hmapped := congrArg (·[position]?) h
  simpa [hleft, hright] using hmapped

/-- Values in place with the same content are the same. -/
theorem InPlace.eq_of_content_eq (h : value.InPlace path) (hother : other.InPlace path)
    (hsame : value.content = other.content) : value = other := by
  induction h generalizing other with
  | scalar hscalar => exact (Value.eq_of_content_eq hscalar hsame).symm
  | @sequence path items _ ih =>
      cases hother with
      | scalar hscalar => exact Value.eq_of_content_eq hscalar hsame.symm
      | @sequence _ items' hitems' =>
          rw [content, content, itemsContent_eq_map, itemsContent_eq_map] at hsame
          refine congrArg Value.sequence (eq_of_map_eq (fun position item item' hitem hitem' => ?_)
            (Value.sequence.inj hsame))
          exact ih position item hitem (hitems' position item' hitem')
      | mapping => contradiction
  | @mapping path entries _ _ ih =>
      cases hother with
      | scalar hscalar => exact Value.eq_of_content_eq hscalar hsame.symm
      | sequence => contradiction
      | @mapping _ entries' _ hentries' =>
          rw [content, content, entriesContent_eq_map, entriesContent_eq_map] at hsame
          refine congrArg _ (eq_of_map_eq (fun position entry entry' hentry hentry' => ?_)
            (Value.mapping.inj hsame).2)
          obtain ⟨key, value⟩ := entry
          obtain ⟨key', value'⟩ := entry'
          intro hpair
          obtain ⟨rfl, hvalue⟩ := Prod.mk.inj hpair
          exact congrArg _ (ih key value (List.mem_of_getElem? hentry)
            (hentries' key value' (List.mem_of_getElem? hentry')) hvalue)

theorem eqv_content (value other : Value) : value.content.eqv other = value.eqv other := by
  refine Hereditary.of_value (motive := fun value => ∀ other, value.content.eqv other =
    value.eqv other) ⟨?_, ?_, ?_⟩ value other
  · intro value hscalar other
    cases value with
    | mapping | sequence => simp [isScalar] at hscalar
    | _ => rfl
  · intro items hitems other
    have hsame : ∀ others, itemsEqv (itemsContent items) others = itemsEqv items others := by
      induction items with
      | nil => exact fun _ => rfl
      | cons item rest ih =>
          obtain ⟨hitem, hrest⟩ := List.forall_mem_cons.mp hitems
          rintro (_ | ⟨first, others⟩)
          · rfl
          · rw [itemsContent, itemsEqv, itemsEqv, hitem, ih hrest]
    cases other with
    | sequence others => exact hsame others
    | _ => rfl
  · intro own entries hentries other
    have hlength : (entriesContent entries).length = entries.length := by
      rw [entriesContent_eq_map, List.length_map]
    have hsame : ∀ table, entriesWithin (entriesContent entries) table =
        entriesWithin entries table := by
      clear hlength
      induction entries with
      | nil => exact fun _ => rfl
      | cons entry rest ih =>
          intro table
          obtain ⟨key, value⟩ := entry
          rw [entriesContent, entriesWithin, entriesWithin,
            ih fun key value hmem => hentries key value (.tail _ hmem)]
          cases Table.get? table key with
          | none => rfl
          | some found =>
              exact congrArg (· && _) (hentries key value List.mem_cons_self found)
    cases other with
    | mapping own' table =>
        rw [content, eqv, eqv, hlength, hsame]
    | _ => rfl

end Value

end Firmware
