import Firmware.Proofs.Code.Lines
/-!
String literals and how they are read.  A reader takes a literal from its opening quote to the
first quote that is not escaped, and a backslash takes the next character along.  What is read in
this way from a written literal is all of it and no more, whatever stands after it, and stands for
the text that was written.
-/

namespace Firmware

namespace Literal

/-- A piece of a string literal: a character by itself, or a backslash with the character that it
takes along. -/
inductive Piece
  | plain (c : Char)
  | escape (c : Char)
deriving DecidableEq, Repr

def Piece.chars : Piece → List Char
  | .plain c => [c]
  | .escape c => ['\\', c]

/-- The character that a piece stands for.  There are four escapes. -/
def Piece.meaning? : Piece → Option Char
  | .plain c => some c
  | .escape '"' => some '"'
  | .escape '\\' => some '\\'
  | .escape 'n' => some '\n'
  | .escape 't' => some '\t'
  | .escape _ => none

/-- The pieces up to the first quote that is not escaped, and what stands after it. -/
def scanPieces? : List Char → Option (List Piece × List Char)
  | [] => none
  | '"' :: after => some ([], after)
  | ['\\'] => none
  | '\\' :: c :: rest =>
      (scanPieces? rest).map fun (pieces, after) => (.escape c :: pieces, after)
  | c :: rest => (scanPieces? rest).map fun (pieces, after) => (.plain c :: pieces, after)

/-- The pieces of the literal that a text begins with, and what stands after it. -/
def scan? : List Char → Option (List Piece × List Char)
  | '"' :: rest => scanPieces? rest
  | _ => none

def chars (pieces : List Piece) : List Char := '"' :: (pieces.flatMap Piece.chars ++ ['"'])

/-- The text that a literal stands for, if all of its escapes are known. -/
def meaning? (pieces : List Piece) : Option (List Char) := pieces.mapM Piece.meaning?

variable {text after : List Char} {pieces : List Piece}

theorem eq_of_scanPieces? (h : scanPieces? text = some (pieces, after)) :
    text = pieces.flatMap Piece.chars ++ '"' :: after := by
  fun_induction scanPieces? text generalizing pieces with
  | case1 => contradiction
  | case2 rest =>
      obtain ⟨rfl, rfl⟩ := Prod.mk.inj (Option.some.inj h)
      rfl
  | case3 => contradiction
  | case4 c rest ih =>
      obtain ⟨⟨later, beyond⟩, hlater, heq⟩ := Option.map_eq_some_iff.mp h
      obtain ⟨rfl, rfl⟩ := Prod.mk.inj heq
      rw [ih hlater]
      rfl
  | case5 c rest _ _ _ ih =>
      obtain ⟨⟨later, beyond⟩, hlater, heq⟩ := Option.map_eq_some_iff.mp h
      obtain ⟨rfl, rfl⟩ := Prod.mk.inj heq
      rw [ih hlater]
      rfl

theorem eq_chars_append_of_scan? (h : scan? text = some (pieces, after)) :
    text = chars pieces ++ after := by
  unfold scan? at h
  split at h
  · rw [eq_of_scanPieces? h]
    simp [chars]
  · contradiction

theorem scanPieces?_cons_of_ne {c : Char} (hquote : c ≠ '"') (hbackslash : c ≠ '\\') :
    scanPieces? (c :: text) =
      (scanPieces? text).map fun (pieces, after) => (.plain c :: pieces, after) := by
  rw [scanPieces?]
  · exact hquote
  · exact fun hc _ => hbackslash hc
  · exact fun _ _ hc _ => hbackslash hc

/-- Every character is written as one piece, which stands for it and is scanned by itself. -/
theorem exists_piece_of_escapeChar (c : Char) : ∃ piece : Piece, piece.meaning? = some c ∧
    ∀ text, scanPieces? (Expression.escapeChar c ++ text) =
      (scanPieces? text).map fun (pieces, after) => (piece :: pieces, after) := by
  unfold Expression.escapeChar
  split
  · exact ⟨.escape '"', rfl, fun _ => rfl⟩
  · exact ⟨.escape '\\', rfl, fun _ => rfl⟩
  · exact ⟨.escape 'n', rfl, fun _ => rfl⟩
  · exact ⟨.escape 't', rfl, fun _ => rfl⟩
  · next hquote hbackslash _ _ =>
      exact ⟨.plain c, rfl, fun _ => scanPieces?_cons_of_ne hquote hbackslash⟩

/-- The characters of a text are scanned up to the quote after them, and stand for the text. -/
theorem exists_scanPieces?_eq (content after : List Char) :
    ∃ pieces, scanPieces? (content.flatMap Expression.escapeChar ++ '"' :: after) =
      some (pieces, after) ∧ meaning? pieces = some content := by
  induction content with
  | nil => exact ⟨[], rfl, rfl⟩
  | cons c rest ih =>
      obtain ⟨piece, hmeaning, hscan⟩ := exists_piece_of_escapeChar c
      obtain ⟨pieces, hpieces, hrest⟩ := ih
      refine ⟨piece :: pieces, ?_, ?_⟩
      · rw [List.flatMap_cons, List.append_assoc, hscan, hpieces]
        rfl
      · rw [meaning?] at hrest
        rw [meaning?, List.mapM_cons, hmeaning, hrest]
        rfl

/-- A written literal is scanned to its end, whatever stands after it, and stands for the text
that was written. -/
theorem exists_scan?_quote (content after : List Char) :
    ∃ pieces, scan? (Expression.quote content ++ after) = some (pieces, after) ∧
      meaning? pieces = some content := by
  obtain ⟨pieces, hscan, hmeaning⟩ := exists_scanPieces?_eq content after
  refine ⟨pieces, ?_, hmeaning⟩
  rw [← hscan, Expression.quote, List.cons_append, List.append_assoc]
  rfl

/-- A backslash and a quote do not end their literal, and a quote after it is not part of it. -/
example : scan? (Expression.quote ['\\', '"'] ++ ['"', 't']) =
    some ([.escape '\\', .escape '"'], ['"', 't']) := by decide

/-- Literals with something after each of them are told apart, and so is what stands after
them. -/
theorem quote_append_inj {content other after after' : List Char} :
    Expression.quote content ++ after = Expression.quote other ++ after' ↔
      content = other ∧ after = after' := by
  refine ⟨fun h => ?_, fun h => by rw [h.1, h.2]⟩
  obtain ⟨pieces, hscan, hmeaning⟩ := exists_scan?_quote content after
  obtain ⟨pieces', hscan', hmeaning'⟩ := exists_scan?_quote other after'
  rw [h, hscan'] at hscan
  obtain ⟨rfl, rfl⟩ := Prod.mk.inj (Option.some.inj hscan)
  exact ⟨Option.some.inj (hmeaning.symm.trans hmeaning'), rfl⟩

end Literal

/-- A literal with something after it is scanned as the literal, which has no line feed, and stands
for its text.  So literals of different texts are different, and no text ends its literal early. -/
theorem Expression.text_scanned (content after : String) :
    ∃ pieces, Literal.scan? ((Expression.text content).render ++ after).toList =
        some (pieces, after.toList) ∧
      Literal.chars pieces = (Expression.text content).render.toList ∧
      ¬ Text.IsBroken (Expression.text content).render ∧
      Literal.meaning? pieces = some content.toList ∧
      ∀ other after', (Expression.text content).render ++ after =
        (Expression.text other).render ++ after' ↔ content = other ∧ after = after' := by
  have hrender : ∀ content, (Expression.text content).render.toList = quote content.toList :=
    fun _ => String.toList_ofList
  obtain ⟨pieces, hscan, hmeaning⟩ := Literal.exists_scan?_quote content.toList after.toList
  refine ⟨pieces, ?_, ?_, ?_, hmeaning, fun other after' => ?_⟩
  · rw [String.toList_append, hrender, hscan]
  · rw [hrender]
    exact (List.append_cancel_right (Literal.eq_chars_append_of_scan? hscan)).symm
  · rw [Text.IsBroken, hrender]
    exact feed_not_mem_quote content.toList
  · rw [← String.toList_inj, String.toList_append, String.toList_append, hrender, hrender,
      Literal.quote_append_inj, String.toList_inj, String.toList_inj]

end Firmware
