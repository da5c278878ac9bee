import Firmware.Validation.Basic
/-!
When stages succeed: a stage that reports all of its problems together succeeds
only if none of its parts has any.
-/

namespace Firmware

theorem Problem.settle_eq_ok_iff {α : Type} {problems : List Problem} {value result : α} :
    settle problems value = .ok result ↔ problems = [] ∧ value = result := by
  unfold settle
  cases problems <;> simp

theorem Problem.settle_eq_error_iff {α : Type} {problems reported : List Problem} {value : α} :
    settle problems value = .error reported ↔ reported ≠ [] ∧ reported = problems := by
  unfold settle
  cases problems <;> simp +contextual [eq_comm]

theorem Validation.gather_eq_ok_iff {α : Type} {results : List (Except (List Problem) α)}
    {values : List α} : gather results = .ok values ↔ results = values.map .ok := by
  induction results generalizing values with
  | nil => cases values <;> simp [gather]
  | cons result rest ih =>
      cases result with
      | error problems =>
          rw [gather]
          cases values <;> cases gather rest <;> simp
      | ok value =>
          rw [gather]
          cases hrest : gather rest with
          | error problems =>
              cases values with
              | nil => simp [Except.map]
              | cons first others =>
                  have hne : rest ≠ others.map .ok := fun h => by simp [ih.mpr h] at hrest
                  simp [Except.map, hne]
          | ok gathered =>
              have hgathered := ih.mp hrest
              cases values with
              | nil => simp [Except.map]
              | cons first others =>
                  simp only [Except.map, Except.ok.injEq, List.cons.injEq, List.map_cons]
                  rw [hgathered, List.map_inj_right (fun _ _ => Except.ok.inj)]

/-- A list is mapped exactly if each of its elements is. -/
theorem mapM_eq_ok_iff {ε α β : Type} {change : α → Except ε β} {list : List α}
    {results : List β} : list.mapM change = .ok results ↔ list.map change = results.map .ok := by
  induction list generalizing results with
  | nil => cases results <;> simp [pure, Except.pure]
  | cons item rest ih =>
      rw [List.mapM_cons, List.map_cons]
      cases hitem : change item with
      | error fault => cases results <;> simp [bind, Except.bind]
      | ok result =>
          cases results with
          | nil => cases rest.mapM change <;> simp [bind, Except.bind, pure, Except.pure]
          | cons first others =>
              rw [List.map_cons, List.cons.injEq, ← ih]
              cases rest.mapM change <;> simp [bind, Except.bind, pure, Except.pure]

/-- A list is mapped if each of its elements can be. -/
theorem exists_mapM_eq_ok {ε α β : Type} {change : α → Except ε β} {list : List α}
    (h : ∀ item ∈ list, ∃ result, change item = .ok result) :
    ∃ results, list.mapM change = .ok results := by
  simp only [mapM_eq_ok_iff]
  induction list with
  | nil => exact ⟨[], rfl⟩
  | cons item rest ih =>
      obtain ⟨result, hresult⟩ := h item List.mem_cons_self
      obtain ⟨results, hresults⟩ := ih fun other hmem => h other (.tail _ hmem)
      exact ⟨result :: results, by rw [List.map_cons, List.map_cons, hresult, hresults]⟩

/-- A list is mapped alike after a change of its elements, if each of them is. -/
theorem mapM_map_eq {ε ε' α α' β β' : Type} {f : α → Except ε β} {f' : α' → Except ε' β'}
    {change : α → α'} {value : β → β'} {fault : ε → ε'}
    (h : ∀ item, f' (change item) = ((f item).map value).mapError fault) (list : List α) :
    (list.map change).mapM f' = ((list.mapM f).map (List.map value)).mapError fault := by
  induction list with
  | nil => rfl
  | cons item rest ih =>
      rw [List.map_cons, List.mapM_cons, List.mapM_cons, h, ih]
      cases f item with
      | error => rfl
      | ok => cases rest.mapM f <;> rfl

/-- Lists with the same image under two functions have the same image under two others, if
these agree wherever the first two do. -/
theorem map_eq_map_of_imp {α β γ δ : Type} {f : α → γ} {g : β → γ} {f' : α → δ} {g' : β → δ}
    {left : List α} {right : List β} (himp : ∀ a b, f a = g b → f' a = g' b)
    (h : left.map f = right.map g) : left.map f' = right.map g' := by
  induction left generalizing right with
  | nil =>
      obtain rfl := List.map_eq_nil_iff.mp h.symm
      rfl
  | cons a rest ih =>
      cases right with
      | nil => simp at h
      | cons b others =>
          obtain ⟨hfirst, hrest⟩ := List.cons.inj h
          rw [List.map_cons, List.map_cons, himp a b hfirst, ih hrest]

/-- The same where the first two are followed by functions that are told positions. -/
theorem map_mapIdx_eq_of_imp {α β α' β' γ δ : Type} {f : α → γ} {g : β → γ} {f' : Nat → α → α'}
    {g' : Nat → β → β'} {erase : α' → δ} {erase' : β' → δ} {left : List α} {right : List β}
    (himp : ∀ position a b, f a = g b → erase (f' position a) = erase' (g' position b))
    (h : left.map f = right.map g) :
    (left.mapIdx f').map erase = (right.mapIdx g').map erase' := by
  induction left generalizing right f' g' with
  | nil =>
      obtain rfl := List.map_eq_nil_iff.mp h.symm
      rfl
  | cons a rest ih =>
      obtain ⟨b, others, rfl, hfirst, hrest⟩ := List.map_eq_cons_iff.mp h.symm
      rw [List.mapIdx_cons, List.mapIdx_cons, List.map_cons, List.map_cons,
        himp 0 a b hfirst.symm, ih (fun position => himp (position + 1)) hrest.symm]

/-- What holds at first and is kept by every step holds after all of them. -/
theorem foldlM_invariant {ε σ α : Type} {step : σ → α → Except ε σ} (invariant : σ → Prop)
    {list : List α} {first last : σ}
    (hstep : ∀ state item next, item ∈ list → invariant state → step state item = .ok next →
      invariant next)
    (hfirst : invariant first) (h : list.foldlM step first = .ok last) : invariant last := by
  induction list generalizing first with
  | nil =>
      obtain rfl : first = last := by simpa [pure, Except.pure] using h
      exact hfirst
  | cons item rest ih =>
      rw [List.foldlM_cons] at h
      cases hnext : step first item with
      | error fault => simp [hnext, bind, Except.bind] at h
      | ok next =>
          simp only [hnext, bind, Except.bind] at h
          exact ih (fun state item next hmem => hstep state item next (.tail _ hmem))
            (hstep _ _ _ List.mem_cons_self hfirst hnext) h

theorem Except.map_eq_ok {ε α β : Type} {result : Except ε α} {change : α → β} {value : β}
    (h : result.map change = .ok value) : ∃ old, result = .ok old ∧ change old = value := by
  cases result with
  | error fault => simp [Except.map] at h
  | ok old => exact ⟨old, rfl, Except.ok.inj h⟩

theorem Except.map_eq_error_iff {ε α β : Type} {result : Except ε α} {change : α → β}
    {fault : ε} : result.map change = .error fault ↔ result = .error fault := by
  cases result <;> simp [Except.map]

theorem Except.bind_eq_ok {ε α β : Type} {result : Except ε α} {next : α → Except ε β} {value : β}
    (h : result.bind next = .ok value) : ∃ old, result = .ok old ∧ next old = .ok value := by
  cases result with
  | error fault => simp [Except.bind] at h
  | ok old => exact ⟨old, rfl, h⟩

theorem Except.toOption_eq_some_iff {ε α : Type} {result : Except ε α} {value : α} :
    result.toOption = some value ↔ result = .ok value := by
  cases result <;> simp [Except.toOption]

theorem Except.toOption_map {ε α β : Type} (result : Except ε α) (change : α → β) :
    (result.map change).toOption = result.toOption.map change := by
  cases result <;> rfl

theorem Except.mapError_eq_ok_iff {ε ε' α : Type} {result : Except ε α} {change : ε → ε'}
    {value : α} : result.mapError change = .ok value ↔ result = .ok value := by
  cases result with
  | error fault => exact ⟨nofun, nofun⟩
  | ok old =>
      exact ⟨fun h => congrArg _ (Except.ok.inj h), fun h => congrArg _ (Except.ok.inj h)⟩

theorem Except.mapError_eq_error {ε ε' α : Type} {result : Except ε α} {change : ε → ε'}
    {fault : ε'} (h : result.mapError change = .error fault) :
    ∃ cause, result = .error cause ∧ change cause = fault := by
  cases result with
  | error cause => exact ⟨cause, rfl, Except.error.inj h⟩
  | ok value => cases h

/-- Results that become the same by changes of their values and of their faults are two faults
that do, or two values. -/
theorem Except.map_mapError_eq_cases {ε ε' α β γ : Type} {value : α → γ} {value' : β → γ}
    {fault : ε → ε'} {left : Except ε α} {right : Except ε β}
    (h : (left.map value).mapError fault = (right.map value').mapError fault) :
    (∃ cause cause', left = .error cause ∧ right = .error cause' ∧ fault cause = fault cause') ∨
      ∃ old old', left = .ok old ∧ right = .ok old' ∧ value old = value' old' := by
  cases left with
  | error cause =>
      cases right with
      | error cause' => exact .inl ⟨cause, cause', rfl, rfl, Except.error.inj h⟩
      | ok => contradiction
  | ok old =>
      cases right with
      | error => contradiction
      | ok old' => exact .inr ⟨old, old', rfl, rfl, Except.ok.inj h⟩

end Firmware
