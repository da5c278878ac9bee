import Firmware.Graph.Links
/-!
The order of positions by counting down.  For each position it is kept how many it still waits
for.  When a position is taken, the count of each that comes after it is lowered, and those
that wait for none become ready.
-/

namespace Firmware

/-- How many each position waits for, and in increasing order the positions that can be taken
next. -/
structure Countdown where
  waits : List Nat
  ready : List Nat

namespace Countdown

variable {state : Countdown} {position : Nat} {rest : List Nat}

/-- One fewer is waited for at a position, which becomes ready with the last. -/
def lower (state : Countdown) (position : Nat) : Countdown :=
  match state.waits[position]? with
  | some (count + 1) =>
      ⟨state.waits.set position count,
        if count = 0 then insertPosition position state.ready else state.ready⟩
  | _ => state

/-- Takes a position that is followed by some others. -/
def take (state : Countdown) (rest followers : List Nat) : Countdown :=
  followers.foldl lower ⟨state.waits, rest⟩

/-- How many positions wait or can be taken. -/
def size (state : Countdown) : Nat := state.waits.countP (· ≠ 0) + state.ready.length

theorem length_insertPosition_le (position : Nat) (positions : List Nat) :
    (insertPosition position positions).length ≤ positions.length + 1 := by
  induction positions with
  | nil => exact Nat.le_refl _
  | cons other rest ih =>
      rw [insertPosition]
      split
      · exact Nat.le_refl _
      · split
        · exact Nat.le_succ _
        · exact Nat.succ_le_succ ih

/-- A position that waits no longer can be taken instead. -/
theorem size_lower_le (state : Countdown) (position : Nat) :
    (state.lower position).size ≤ state.size := by
  unfold lower
  split
  · next count hcount =>
      obtain ⟨hbound, hvalue⟩ := List.getElem?_eq_some_iff.mp hcount
      have hpositive : 0 < state.waits.countP (· ≠ 0) :=
        List.countP_pos_iff.mpr ⟨_, List.mem_of_getElem? hcount, by simp⟩
      cases count with
      | zero =>
          have hset : (state.waits.set position 0).countP (· ≠ 0) + 1 =
              state.waits.countP (· ≠ 0) := by
            simpa [List.countP_set hbound, hvalue] using Nat.sub_add_cancel hpositive
          have hready := length_insertPosition_le position state.ready
          simp only [size, if_true]
          omega
      | succ count =>
          have hset : (state.waits.set position (count + 1)).countP (· ≠ 0) =
              state.waits.countP (· ≠ 0) := by
            simpa [List.countP_set hbound, hvalue] using Nat.sub_add_cancel hpositive
          simp only [size, hset, Nat.succ_ne_zero, if_false, Nat.le_refl]
  · exact Nat.le_refl _

theorem size_take_lt (state : Countdown) (followers : List Nat)
    (h : state.ready = position :: rest) : (state.take rest followers).size < state.size := by
  have hfold : ∀ start : Countdown, (followers.foldl lower start).size ≤ start.size := by
    induction followers with
    | nil => exact fun start => Nat.le_refl _
    | cons first later ih => exact fun start => Nat.le_trans (ih _) (size_lower_le start first)
  refine Nat.lt_of_le_of_lt (hfold _) ?_
  simp [size, h]

/-- Takes the earliest ready position again and again.  The second list holds the positions
that wait for some until the end. -/
def run (links : Links) (state : Countdown) : List Nat × List Nat :=
  match first : state.ready with
  | [] =>
      ([], (List.range state.waits.length).filter fun position =>
        state.waits[position]? ≠ some 0)
  | position :: rest =>
      have : (state.take rest (links.after position)).size < state.size :=
        size_take_lt state (links.after position) first
      let (order, stuck) := run links (state.take rest (links.after position))
      (position :: order, stuck)
termination_by state.size

/-- At first each position waits for all that come before it. -/
def start (links : Links) : Countdown :=
  let waits := links.predecessors.map List.length
  ⟨waits, (List.range waits.length).filter fun position => waits[position]? = some 0⟩

end Countdown

end Firmware
