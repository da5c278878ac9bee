import Firmware.Json.Reader
import Firmware.Proofs.Json.Parts
/-!
What is read from JSON text.  Both machines go through their input once; what holds of every
value that stands in a machine holds of the value that is read.  No object among them has a key
twice, because a repeated key keeps its first place.
-/

namespace Firmware

/-- What holds at first, and is kept by every item that a machine takes in, holds at the end. -/
theorem foldlM_option_invariant {σ α : Type} {step : σ → α → Option σ} (invariant : σ → Prop)
    {list : List α} {first last : σ}
    (hstep : ∀ state item next, item ∈ list → invariant state → step state item = some next →
      invariant next)
    (hfirst : invariant first) (h : list.foldlM step first = some last) : invariant last := by
  induction list generalizing first with
  | nil => exact Option.some.inj h ▸ hfirst
  | cons item rest ih =>
      rw [List.foldlM_cons] at h
      obtain ⟨next, hnext, hrest⟩ := Option.bind_eq_some_iff.mp h
      exact ih (fun state other later hmem => hstep state other later (.tail _ hmem))
        (hstep first item next List.mem_cons_self hfirst hnext) hrest

namespace Json

variable {items : List Json} {entries : List (String × Json)} {value : Json} {key : String}

theorem hasUniqueKeys_array_iff :
    (array items).hasUniqueKeys = true ↔ ∀ item ∈ items, item.hasUniqueKeys = true :=
  every_array.trans (and_iff_right rfl)

theorem hasUniqueKeys_object_iff : (object entries).hasUniqueKeys = true ↔
    (Table.keys entries).Nodup ∧ ∀ entry ∈ entries, entry.2.hasUniqueKeys = true :=
  every_object.trans (and_congr_left' decide_eq_true_iff)

/-- An entry is added under a new key, or in the place of its key. -/
theorem hasUniqueKeys_insert (h : (object entries).hasUniqueKeys = true)
    (hvalue : value.hasUniqueKeys = true) :
    (object (Table.insert entries key value)).hasUniqueKeys = true := by
  rw [hasUniqueKeys_object_iff] at h ⊢
  refine ⟨Table.nodup_keys_insert h.1, fun entry hmem => ?_⟩
  rcases Table.mem_insert hmem with rfl | hold
  · exact hvalue
  · exact h.2 entry hold

def Token.HasUniqueKeys : Token → Prop
  | .scalar value => value.hasUniqueKeys = true
  | _ => True

theorem hasUniqueKeys_of_float? {number : Double} (h : float? number = some value) :
    value.hasUniqueKeys = true := by
  unfold float? at h
  split at h
  · obtain rfl := Option.some.inj h
    rfl
  · simp at h

theorem hasUniqueKeys_of_integer? {negative : Bool} {word : Nat}
    (h : integer? negative word = some value) : value.hasUniqueKeys = true := by
  unfold integer? at h
  generalize (if negative then -word else word : Int) = whole at h
  dsimp only at h
  split at h
  · exact hasUniqueKeys_of_float? h
  · obtain rfl := Option.some.inj h
    rfl

theorem hasUniqueKeys_of_numeral {numeral : Numeral} (h : numeral.value? = some value) :
    value.hasUniqueKeys = true := by
  unfold Numeral.value? at h
  dsimp only at h
  split at h
  · exact hasUniqueKeys_of_integer? h
  · exact hasUniqueKeys_of_float? h

theorem hasUniqueKeys_of_word? {word : List Char} {token : Token} (h : word? word = some token) :
    token.HasUniqueKeys := by
  unfold word? at h
  split at h
  · obtain rfl := Option.some.inj h
    rfl
  split at h
  · obtain rfl := Option.some.inj h
    rfl
  split at h
  · obtain rfl := Option.some.inj h
    rfl
  obtain ⟨numeral, _, hnumber⟩ := Option.bind_eq_some_iff.mp h
  obtain ⟨value, hvalue, rfl⟩ := Option.map_eq_some_iff.mp hnumber
  exact hasUniqueKeys_of_numeral hvalue

/-- The tokens of a character machine have values that repeat no key. -/
def Lexer.HasUniqueKeys (lexer : Lexer) : Prop := ∀ token ∈ lexer.tokens, token.HasUniqueKeys

namespace Lexer

variable {lexer next : Lexer} {tokens : List Token} {c : Char}

theorem hasUniqueKeys_of_start? (h : ∀ token ∈ tokens, token.HasUniqueKeys)
    (hstart : start? tokens c = some next) : next.HasUniqueKeys := by
  have hadd : ∀ token : Token, token.HasUniqueKeys → ∀ added ∈ token :: tokens,
      added.HasUniqueKeys := fun token htoken => List.forall_mem_cons.mpr ⟨htoken, h⟩
  unfold start? at hstart
  split at hstart
  · cases hstart
    exact h
  split at hstart
  · cases hstart
    exact h
  split at hstart <;> cases hstart
  · exact h
  all_goals exact hadd _ trivial

theorem tokens_of_unit? {chars : List Char} {high : Option Nat} {value : Nat}
    (h : unit? tokens chars high value = some next) : next.tokens = tokens := by
  unfold unit? at h
  split at h
  · split at h
    · cases h; rfl
    split at h
    · simp at h
    · cases h; rfl
  · split at h
    · cases h; rfl
    · simp at h

/-- A character ends at most one token, and the values of tokens are scalars. -/
theorem hasUniqueKeys_of_step? (h : lexer.HasUniqueKeys) (hstep : lexer.step? c = some next) :
    next.HasUniqueKeys := by
  obtain ⟨place, tokens⟩ := lexer
  unfold step? at hstep
  cases place with
  | between => exact hasUniqueKeys_of_start? h hstep
  | word chars =>
      dsimp only at hstep
      split at hstep
      · cases hstep
        exact h
      · obtain ⟨token, htoken, hstart⟩ := Option.bind_eq_some_iff.mp hstep
        have hadd := List.forall_mem_cons.mpr ⟨hasUniqueKeys_of_word? htoken, h⟩
        exact hasUniqueKeys_of_start? hadd hstart
  | string chars =>
      dsimp only at hstep
      split at hstep
      · cases hstep
        exact List.forall_mem_cons.mpr ⟨rfl, h⟩
      split at hstep
      · cases hstep
        exact h
      split at hstep
      · simp at hstep
      · cases hstep
        exact h
  | escape chars =>
      dsimp only at hstep
      split at hstep
      · cases hstep
        exact h
      · obtain ⟨_, _, rfl⟩ := Option.map_eq_some_iff.mp hstep
        exact h
  | unicode chars high read value =>
      obtain ⟨digit, _, hdigit⟩ := Option.bind_eq_some_iff.mp hstep
      dsimp only at hdigit
      split at hdigit
      · cases hdigit
        exact h
      · rw [HasUniqueKeys, tokens_of_unit? hdigit]
        exact h
  | pairEscape chars high =>
      dsimp only at hstep
      split at hstep
      · cases hstep
        exact h
      · simp at hstep
  | pairUnicode chars high =>
      dsimp only at hstep
      split at hstep
      · cases hstep
        exact h
      · simp at hstep

end Lexer

theorem hasUniqueKeys_of_tokens? {text : List Char} {tokens : List Token}
    (h : tokens? text = some tokens) : ∀ token ∈ tokens, token.HasUniqueKeys := by
  obtain ⟨lexer, hlexer, hend⟩ := Option.bind_eq_some_iff.mp h
  have hfirst : Lexer.HasUniqueKeys ⟨.between, []⟩ := fun _ hmem => absurd hmem List.not_mem_nil
  have hkeys : lexer.HasUniqueKeys :=
    foldlM_option_invariant Lexer.HasUniqueKeys (fun _ _ _ _ => Lexer.hasUniqueKeys_of_step?)
      hfirst hlexer
  split at hend
  · obtain rfl := Option.some.inj hend
    exact fun token hmem => hkeys token (List.mem_reverse.mp hmem)
  · obtain ⟨last, hlast, rfl⟩ := Option.map_eq_some_iff.mp hend
    have hadd := List.forall_mem_cons.mpr ⟨hasUniqueKeys_of_word? hlast, hkeys⟩
    exact fun token hmem => hadd token (List.mem_reverse.mp hmem)
  · simp at hend

/-- What is held of an open array or object repeats no key. -/
def Frame.HasUniqueKeys : Frame → Prop
  | .array reversed => (Json.array reversed).hasUniqueKeys = true
  | .object entries _ => (Json.object entries).hasUniqueKeys = true

/-- What a token machine holds while it waits repeats no key. -/
def Wanted.HasUniqueKeys : Wanted → Prop
  | .key entries | .colon entries _ => (object entries).hasUniqueKeys = true
  | .nothing value => value.hasUniqueKeys = true
  | _ => True

/-- What a token machine holds repeats no key. -/
structure Parser.HasUniqueKeys (machine : Parser) : Prop where
  wanted : machine.wanted.HasUniqueKeys
  stack : ∀ frame ∈ machine.stack, frame.HasUniqueKeys

namespace Parser

variable {machine next : Parser} {stack rest : List Frame} {frame : Frame} {token : Token}

theorem hasUniqueKeys_deliver (hstack : ∀ frame ∈ stack, frame.HasUniqueKeys)
    (hvalue : value.hasUniqueKeys = true) : (deliver stack value).HasUniqueKeys := by
  cases stack with
  | nil => exact ⟨hvalue, hstack⟩
  | cons frame rest =>
      obtain ⟨hframe, hrest⟩ := List.forall_mem_cons.mp hstack
      cases frame with
      | array reversed =>
          have hitems : ∀ item ∈ value :: reversed, item.hasUniqueKeys = true :=
            List.forall_mem_cons.mpr ⟨hvalue, hasUniqueKeys_array_iff.mp hframe⟩
          exact ⟨trivial, List.forall_mem_cons.mpr ⟨hasUniqueKeys_array_iff.mpr hitems, hrest⟩⟩
      | object entries key =>
          exact ⟨trivial, List.forall_mem_cons.mpr ⟨hasUniqueKeys_insert hframe hvalue, hrest⟩⟩

theorem hasUniqueKeys_of_begin? (hstack : ∀ frame ∈ stack, frame.HasUniqueKeys)
    (htoken : token.HasUniqueKeys) (h : begin? stack token = some next) : next.HasUniqueKeys := by
  unfold begin? at h
  split at h
  · cases h
    exact hasUniqueKeys_deliver hstack htoken
  · split at h
    · cases h
      exact ⟨trivial, List.forall_mem_cons.mpr ⟨rfl, hstack⟩⟩
    · simp at h
  · split at h
    · cases h
      exact ⟨trivial, List.forall_mem_cons.mpr ⟨rfl, hstack⟩⟩
    · simp at h
  · simp at h

/-- A token opens or closes an array or object, or adds to what is open. -/
theorem hasUniqueKeys_of_step? (h : machine.HasUniqueKeys) (htoken : token.HasUniqueKeys)
    (hstep : machine.step? token = some next) : next.HasUniqueKeys := by
  have hwanted := h.wanted
  have hopen : ∀ {frame rest}, machine.stack = frame :: rest →
      frame.HasUniqueKeys ∧ ∀ frame ∈ rest, frame.HasUniqueKeys := fun heq =>
    List.forall_mem_cons.mp (heq ▸ h.stack)
  unfold step? at hstep
  split at hstep
  · exact hasUniqueKeys_of_begin? h.stack htoken hstep
  · next heq =>
      cases hstep
      exact hasUniqueKeys_deliver (hopen heq).2 rfl
  · exact hasUniqueKeys_of_begin? h.stack htoken hstep
  · next heq =>
      cases hstep
      exact ⟨trivial, List.forall_mem_cons.mpr (hopen heq)⟩
  · next heq =>
      cases hstep
      have hitems := hasUniqueKeys_array_iff.mp (hopen heq).1
      exact hasUniqueKeys_deliver (hopen heq).2
        (hasUniqueKeys_array_iff.mpr fun item hmem => hitems item (List.mem_reverse.mp hmem))
  · next heq =>
      cases hstep
      exact ⟨(hopen heq).1, (hopen heq).2⟩
  · next heq =>
      cases hstep
      exact hasUniqueKeys_deliver (hopen heq).2 (hopen heq).1
  · next heq =>
      cases hstep
      rw [heq] at hwanted
      exact ⟨hwanted, h.stack⟩
  · next heq =>
      cases hstep
      exact ⟨(hopen heq).1, (hopen heq).2⟩
  · next heq =>
      cases hstep
      exact hasUniqueKeys_deliver (hopen heq).2 (hopen heq).1
  · next heq =>
      cases hstep
      rw [heq] at hwanted
      exact ⟨trivial, List.forall_mem_cons.mpr ⟨hwanted, h.stack⟩⟩
  · simp at hstep

end Parser

/-- No object in what is read from a text has a key twice. -/
theorem hasUniqueKeys_of_read? {text : String} (h : read? text = some value) :
    value.hasUniqueKeys = true := by
  obtain ⟨tokens, htokens, hparsed⟩ := Option.bind_eq_some_iff.mp h
  obtain ⟨machine, hrun, hend⟩ := Option.bind_eq_some_iff.mp hparsed
  have hfirst : Parser.HasUniqueKeys ⟨.value, []⟩ :=
    ⟨trivial, fun _ hmem => absurd hmem List.not_mem_nil⟩
  have hmachine : machine.HasUniqueKeys :=
    foldlM_option_invariant Parser.HasUniqueKeys
      (fun _ token _ hmem hkeys => Parser.hasUniqueKeys_of_step? hkeys
        (hasUniqueKeys_of_tokens? htokens token hmem)) hfirst hrun
  have hwanted := hmachine.wanted
  split at hend
  · next heq =>
      cases hend
      rw [heq] at hwanted
      exact hwanted
  · simp at hend

end Json

end Firmware
