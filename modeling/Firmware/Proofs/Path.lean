import Firmware.Path
/-!
The texts of locations.  A key goes up to the next point or opening bracket, and a position up to
its closing bracket, so a text can be cut into steps in one way only.  Different locations have
different texts, as long as their keys are not empty, hold no character that opens a step and are
not what is written for the document root.
-/

namespace Firmware

namespace Path

variable {path other : Path} {segment segment' : Segment} {rest rest' : List Char} {name : String}
  {first : Bool}

/-- A key that can be told from what stands around it in the text of a location. -/
structure IsPlainKey (name : String) : Prop where
  ne_empty : name ≠ ""
  point_not_mem : '.' ∉ name.toList
  bracket_not_mem : '[' ∉ name.toList
  ne_root : name ≠ "<root>"

instance (name : String) : Decidable (IsPlainKey name) :=
  decidable_of_iff (name ≠ "" ∧ '.' ∉ name.toList ∧ '[' ∉ name.toList ∧ name ≠ "<root>")
    ⟨fun h => ⟨h.1, h.2.1, h.2.2.1, h.2.2.2⟩, fun h => ⟨h.1, h.2, h.3, h.4⟩⟩

def keys (path : Path) : List String :=
  path.filterMap fun
    | .key name => some name
    | .index _ => none

def HasPlainKeys (path : Path) : Prop := ∀ name ∈ path.keys, IsPlainKey name

instance (path : Path) : Decidable path.HasPlainKeys :=
  inferInstanceAs (Decidable (∀ name ∈ path.keys, IsPlainKey name))

theorem HasPlainKeys.isPlainKey (h : HasPlainKeys (.key name :: path)) : IsPlainKey name :=
  h name List.mem_cons_self

theorem HasPlainKeys.of_cons (h : HasPlainKeys (segment :: path)) : HasPlainKeys path := by
  intro name hmem
  cases segment with
  | key first => exact h name (.tail _ hmem)
  | index position => exact h name hmem

/-- Whether a character opens a step that is not the first. -/
def opensStep (c : Char) : Bool := c == '.' || c == '['

section Stops

variable {stops : Char → Bool} {left right : List Char}

/-- What stands before the first stop of a text. -/
theorem takeWhile_append_of_stops (hleft : ∀ c ∈ left, stops c = false)
    (hrest : ∀ c, rest.head? = some c → stops c = true) :
    (left ++ rest).takeWhile (fun c => !stops c) = left := by
  rw [List.takeWhile_append_of_pos fun c hmem => by rw [hleft c hmem]; rfl]
  cases rest with
  | nil => exact List.append_nil left
  | cons c after => simp [hrest c rfl]

/-- A text is cut at its first stop in one way only. -/
theorem append_inj_of_stops (hleft : ∀ c ∈ left, stops c = false)
    (hright : ∀ c ∈ right, stops c = false) (hrest : ∀ c, rest.head? = some c → stops c = true)
    (hrest' : ∀ c, rest'.head? = some c → stops c = true)
    (h : left ++ rest = right ++ rest') : left = right ∧ rest = rest' := by
  have hsame : left = right := by
    rw [← takeWhile_append_of_stops hleft hrest, h, takeWhile_append_of_stops hright hrest']
  subst hsame
  exact ⟨rfl, List.append_cancel_left h⟩

end Stops

theorem IsPlainKey.opensStep_eq_false (h : IsPlainKey name) :
    ∀ c ∈ name.toList, opensStep c = false := by
  intro c hmem
  have hpoint : c ≠ '.' := fun heq => h.point_not_mem (heq ▸ hmem)
  have hbracket : c ≠ '[' := fun heq => h.bracket_not_mem (heq ▸ hmem)
  simp [opensStep, hpoint, hbracket]

theorem opensStep_of_head? (path : Path) :
    ∀ c, (path.flatMap (Segment.chars false)).head? = some c → opensStep c = true := by
  intro c hhead
  cases path with
  | nil => contradiction
  | cons segment rest => cases segment <;> obtain rfl := Option.some.inj hhead <;> rfl

/-- A plain key is not taken for a position, whether it is the first step or not. -/
theorem IsPlainKey.chars_ne_index {position : Nat} (h : IsPlainKey name) :
    (Segment.key name).chars first ++ rest ≠ (Segment.index position).chars first ++ rest' := by
  intro heq
  cases first with
  | false => exact absurd (List.cons.inj heq).1 (by decide)
  | true =>
      cases hname : name.toList with
      | nil => exact h.ne_empty (String.toList_eq_nil_iff.mp hname)
      | cons c later =>
          have hc : c = '[' := (List.cons.inj ((congrArg (· ++ rest) hname).symm.trans heq)).1
          exact h.bracket_not_mem (by rw [hname, hc]; exact List.mem_cons_self)

/-- A position is told from its digits, which end at the closing bracket. -/
theorem index_chars_inj {position position' : Nat}
    (h : (Segment.index position).chars first ++ rest =
      (Segment.index position').chars first ++ rest') : position = position' ∧ rest = rest' := by
  have hdigits : ∀ position : Nat, ∀ c ∈ Nat.toDigits 10 position, (!c.isDigit) = false := by
    intro position c hmem
    rw [Nat.isDigit_of_mem_toDigits (by decide) (by decide) hmem]
    rfl
  have hclosed : ∀ {rest : List Char}, ∀ c, (']' :: rest).head? = some c → (!c.isDigit) = true :=
    fun c hc => Option.some.inj hc ▸ rfl
  have heq : Nat.toDigits 10 position ++ ']' :: rest =
      Nat.toDigits 10 position' ++ ']' :: rest' := by
    simpa [Segment.chars] using h
  obtain ⟨hsame, hrest⟩ := append_inj_of_stops (hdigits position) (hdigits position') hclosed
    hclosed heq
  refine ⟨?_, (List.cons.inj hrest).2⟩
  rw [← Nat.ofDigitChars_ten_toDigits (n := position), hsame, Nat.ofDigitChars_ten_toDigits]

/-- The first step of a text is told from the text, and so is what stands after it. -/
theorem chars_append_inj (hpath : HasPlainKeys (segment :: path))
    (hother : HasPlainKeys (segment' :: other))
    (h : segment.chars first ++ path.flatMap (Segment.chars false) =
      segment'.chars first ++ other.flatMap (Segment.chars false)) :
    segment = segment' ∧
      path.flatMap (Segment.chars false) = other.flatMap (Segment.chars false) := by
  cases segment with
  | key name =>
      have hname := hpath.isPlainKey
      cases segment' with
      | key name' =>
          have heq : name.toList ++ path.flatMap (Segment.chars false) =
              name'.toList ++ other.flatMap (Segment.chars false) := by
            cases first with
            | true => exact h
            | false => exact (List.cons.inj h).2
          obtain ⟨hsame, hlater⟩ := append_inj_of_stops hname.opensStep_eq_false
            hother.isPlainKey.opensStep_eq_false (opensStep_of_head? path)
            (opensStep_of_head? other) heq
          exact ⟨congrArg Segment.key (String.toList_inj.mp hsame), hlater⟩
      | index position => exact absurd h hname.chars_ne_index
  | index position =>
      cases segment' with
      | key name => exact absurd h.symm hother.isPlainKey.chars_ne_index
      | index position' =>
          obtain ⟨rfl, hlater⟩ := index_chars_inj h
          exact ⟨rfl, hlater⟩

/-- The steps after the first are told from their text. -/
theorem flatMap_chars_inj (hpath : HasPlainKeys path) (hother : HasPlainKeys other)
    (h : path.flatMap (Segment.chars false) = other.flatMap (Segment.chars false)) :
    path = other := by
  induction path generalizing other with
  | nil =>
      cases other with
      | nil => rfl
      | cons segment rest => cases segment <;> contradiction
  | cons segment rest ih =>
      cases other with
      | nil => cases segment <;> contradiction
      | cons segment' rest' =>
          rw [List.flatMap_cons, List.flatMap_cons] at h
          obtain ⟨rfl, hrest⟩ := chars_append_inj hpath hother h
          rw [ih hpath.of_cons hother.of_cons hrest]

theorem toList_render_cons (segment : Segment) (path : Path) :
    (render (segment :: path)).toList =
      segment.chars true ++ path.flatMap (Segment.chars false) := String.toList_ofList

/-- No other location with plain keys is taken for the document root. -/
theorem render_cons_ne_root (h : HasPlainKeys (segment :: path)) :
    render (segment :: path) ≠ render root := by
  intro heq
  have hroot := congrArg String.toList heq
  rw [toList_render_cons] at hroot
  cases segment with
  | key name =>
      have hplain : ∀ c ∈ "<root>".toList, opensStep c = false := by simp [opensStep]
      have hsame := append_inj_of_stops h.isPlainKey.opensStep_eq_false hplain
        (opensStep_of_head? path) (by simp) (hroot.trans (List.append_nil _).symm)
      exact h.isPlainKey.ne_root (String.toList_inj.mp hsame.1)
  | index position => exact absurd (List.cons.inj hroot).1 (by decide)

/-- Locations with plain keys are identified by their texts. -/
theorem render_inj (hpath : HasPlainKeys path) (hother : HasPlainKeys other) :
    path.render = other.render ↔ path = other := by
  refine ⟨fun h => ?_, congrArg render⟩
  cases path with
  | nil =>
      cases other with
      | nil => rfl
      | cons segment rest => exact absurd h.symm (render_cons_ne_root hother)
  | cons segment rest =>
      cases other with
      | nil => exact absurd h (render_cons_ne_root hpath)
      | cons segment' rest' =>
          have hchars := congrArg String.toList h
          rw [toList_render_cons, toList_render_cons] at hchars
          obtain ⟨rfl, hrest⟩ := chars_append_inj hpath hother hchars
          rw [flatMap_chars_inj hpath.of_cons hother.of_cons hrest]

/-- Two locations that start with a position, have positions side by side, and have keys made of
digits and closing brackets. -/
theorem pins_rendered_apart :
    HasPlainKeys [.index 0, .key "1]", .index 2, .index 34, .key "5"] ∧
      HasPlainKeys [.index 0, .key "1]", .index 23, .index 4, .key "5"] ∧
      (render [.index 0, .key "1]", .index 2, .index 34, .key "5"] =
          render [.index 0, .key "1]", .index 23, .index 4, .key "5"] ↔
        [Segment.index 0, .key "1]", .index 2, .index 34, .key "5"] =
          [.index 0, .key "1]", .index 23, .index 4, .key "5"]) :=
  ⟨by decide, by decide, render_inj (by decide) (by decide)⟩

/-- None of the conditions on keys can be left out. -/
example : render [.key "a.b"] = render [.key "a", .key "b"] ∧
    render [.key "a[0]"] = render [.key "a", .index 0] ∧
    render [.key "", .index 0] = render [.index 0] ∧
    render [.key "<root>"] = render root := by decide

end Path

end Firmware
