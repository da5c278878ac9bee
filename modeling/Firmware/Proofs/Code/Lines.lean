import Firmware.Code.Source
import Mathlib.Data.List.Basic
/-!
Lines of generated code.  A line feed gets into the text of a statement only with a text that is
taken over as it is: a name, raw text, or a comment.  Literals write theirs as an escape.  So every
statement that is not a comment stands on a line of its own in the setup function.
-/

namespace Firmware

namespace Text

variable {separator : Char} {left right text : List Char}

theorem splitOn_ne_nil (separator : Char) (text : List Char) : splitOn separator text ≠ [] := by
  cases text with
  | nil => simp [splitOn]
  | cons c rest =>
      rw [splitOn]
      split
      · simp
      · split <;> simp

/-- A character that is not the separator joins the first piece of what follows it. -/
theorem splitOn_cons_of_ne {c : Char} {piece : List Char} {pieces : List (List Char)}
    (hc : c ≠ separator) (h : splitOn separator text = piece :: pieces) :
    splitOn separator (c :: text) = (c :: piece) :: pieces := by
  rw [splitOn, if_neg hc, h]

theorem splitOn_of_not_mem (h : separator ∉ text) : splitOn separator text = [text] := by
  induction text with
  | nil => rfl
  | cons c rest ih =>
      obtain ⟨hc, hrest⟩ := not_or.mp (mt List.mem_cons.mpr h)
      exact splitOn_cons_of_ne (Ne.symm hc) (ih hrest)

theorem splitOn_append_cons (separator : Char) (left right : List Char) :
    splitOn separator (left ++ separator :: right) =
      splitOn separator left ++ splitOn separator right := by
  induction left with
  | nil => simp [splitOn]
  | cons c rest ih =>
      by_cases hc : c = separator
      · rw [List.cons_append, splitOn, if_pos hc, ih, splitOn, if_pos hc, List.cons_append]
      · obtain ⟨piece, pieces, hpieces⟩ :=
          List.exists_cons_of_ne_nil (splitOn_ne_nil separator rest)
        rw [hpieces] at ih
        rw [splitOn_cons_of_ne hc hpieces]
        exact splitOn_cons_of_ne hc ih

/-- A text without the separator goes on with the last piece of what stands before it. -/
theorem splitOn_append {pieces : List (List Char)} {last : List Char}
    (hleft : splitOn separator left = pieces ++ [last]) (hright : separator ∉ right) :
    splitOn separator (left ++ right) = pieces ++ [last ++ right] := by
  induction left generalizing pieces last with
  | nil =>
      obtain ⟨rfl, rfl⟩ : pieces = [] ∧ last = [] := by
        rcases pieces with _ | ⟨first, others⟩
        · exact ⟨rfl, (List.singleton_inj.mp hleft).symm⟩
        · simp [splitOn] at hleft
      exact splitOn_of_not_mem hright
  | cons c rest ih =>
      by_cases hc : c = separator
      · rw [splitOn, if_pos hc] at hleft
        rcases pieces with _ | ⟨first, others⟩
        · exact absurd (List.cons.inj hleft).2 (splitOn_ne_nil separator rest)
        · obtain ⟨rfl, hrest⟩ := List.cons.inj hleft
          rw [List.cons_append, splitOn, if_pos hc, ih hrest, List.cons_append]
      · obtain ⟨piece, others, hrest⟩ := List.exists_cons_of_ne_nil (splitOn_ne_nil separator rest)
        rw [splitOn_cons_of_ne hc hrest] at hleft
        rcases pieces with _ | ⟨first, more⟩
        · obtain ⟨rfl, rfl⟩ := List.cons.inj hleft
          have htail : splitOn separator (rest ++ right) = [piece ++ right] := @ih [] piece hrest
          exact splitOn_cons_of_ne hc htail
        · obtain ⟨rfl, rfl⟩ := List.cons.inj hleft
          have htail : splitOn separator (rest ++ right) = piece :: (more ++ [last ++ right]) :=
            @ih (piece :: more) last hrest
          exact splitOn_cons_of_ne hc htail

end Text

namespace Layout

variable {layout : Layout} {digits : List Char} {c : Char}

/-- The characters that numbers are written with, but for digits. -/
def marks : List Char := ['.', 'e', '+', '-']

theorem mem_positional {point : Int} (h : c ∈ layout.positional digits point) :
    c ∈ digits ∨ c = '0' ∨ c ∈ marks := by
  unfold positional at h
  split at h
  · simp only [List.mem_cons, List.mem_append, List.mem_replicate] at h
    rcases h with rfl | rfl | ⟨_, rfl⟩ | hdigit
    · exact .inr (.inl rfl)
    · exact .inr (.inr (by decide))
    · exact .inr (.inl rfl)
    · exact .inl hdigit
  · split at h
    · simp only [List.mem_append, List.mem_replicate] at h
      rcases h with (hdigit | ⟨_, rfl⟩) | hfraction
      · exact .inl hdigit
      · exact .inr (.inl rfl)
      · split at hfraction
        · simp only [List.mem_cons, List.not_mem_nil, or_false] at hfraction
          rcases hfraction with rfl | rfl
          · exact .inr (.inr (by decide))
          · exact .inr (.inl rfl)
        · simp at hfraction
    · rcases List.mem_append.mp h with hwhole | hrest
      · exact .inl (List.mem_of_mem_take hwhole)
      · rcases List.mem_cons.mp hrest with rfl | hfraction
        · exact .inr (.inr (by decide))
        · exact .inl (List.mem_of_mem_drop hfraction)

theorem mem_scientific {point : Int} (h : c ∈ layout.scientific digits point) :
    c ∈ digits ∨ c.isDigit = true ∨ c ∈ marks := by
  unfold scientific at h
  simp only [List.mem_append, List.mem_cons] at h
  rcases h with ((hfirst | hfraction) | rfl | hsign) | hexponent
  · exact .inl (List.mem_of_mem_take hfirst)
  · split at hfraction
    · simp at hfraction
    · rcases List.mem_cons.mp hfraction with rfl | hrest
      · exact .inr (.inr (by decide))
      · exact .inl (List.mem_of_mem_drop hrest)
  · exact .inr (.inr (by decide))
  · have hmark : c = '-' ∨ c = '+' := by
      split at hsign
      · simp_all
      · split at hsign <;> simp_all
    rcases hmark with rfl | rfl <;> exact .inr (.inr (by decide))
  · exact .inr (.inl (Nat.isDigit_of_mem_toDigits (by omega) (by omega) hexponent))

theorem mem_finite {rank : Fin Double.rankCount} (h : c ∈ layout.finite rank) :
    c.isDigit = true ∨ c ∈ marks := by
  unfold finite at h
  split at h
  · have hzero : c = '0' ∨ c = '.' := by
      split at h <;> grind
    rcases hzero with rfl | rfl
    · exact .inl (by decide)
    · exact .inr (by decide)
  · have hdigits : ∀ c ∈ Nat.toDigits 10 (Decimal.shortest layout.tie rank).digits,
        c.isDigit = true := fun c hmem =>
      Nat.isDigit_of_mem_toDigits (by omega) (by omega) hmem
    unfold magnitude at h
    simp only at h
    split at h
    · rcases mem_positional h with hdigit | rfl | hmark
      · exact .inl (hdigits c hdigit)
      · exact .inl (by decide)
      · exact .inr hmark
    · rcases mem_scientific h with hdigit | hdigit | hmark
      · exact .inl (hdigits c hdigit)
      · exact .inl hdigit
      · exact .inr hmark

end Layout

mutual

/-- What is taken over into the text of an expression as it is: its names and raw text. -/
def Expression.verbatim : Expression → List String
  | .raw content => [content]
  | .bool _ | .integer _ | .float _ | .text _ => []
  | .variable name _ => [name]
  | .new type args => type :: Expression.verbatimArgs args
  | .call function args => function :: Expression.verbatimArgs args
  | .method target name args => target.verbatim ++ name :: Expression.verbatimArgs args
termination_by structural expression => expression

def Expression.verbatimArgs : List Expression → List String
  | [] => []
  | arg :: rest => arg.verbatim ++ Expression.verbatimArgs rest
termination_by structural args => args

end

/-- The names and raw text in a statement.  The text of a comment is not among them. -/
def Statement.verbatim : Statement → List String
  | .expression value => value.verbatim
  | .assignment target value => target :: value.verbatim
  | .comment _ => []

/-- Whether a text goes over more than one line. -/
def Text.IsBroken (text : String) : Prop := '\n' ∈ text.toList

instance : DecidablePred Text.IsBroken := fun text =>
  inferInstanceAs (Decidable ('\n' ∈ text.toList))

namespace Expression

theorem feed_not_mem_quote (content : List Char) : '\n' ∉ quote content := by
  have hescaped : ∀ c ∈ content, '\n' ∉ escapeChar c := by
    intro c _
    unfold escapeChar
    split <;> simp_all [eq_comm]
  simpa [quote, List.mem_flatMap] using hescaped

theorem feed_not_mem_bool (value : Bool) : '\n' ∉ (toString value).toList := by
  cases value <;> decide

theorem feed_not_mem_repr (number : Nat) : '\n' ∉ number.repr.toList := by
  intro h
  rw [Nat.toList_repr] at h
  have hdigit := Nat.isDigit_of_mem_toDigits (by omega) (by omega) h
  contradiction

theorem feed_not_mem_integer (value : Int) : '\n' ∉ value.repr.toList := by
  cases value with
  | ofNat number => exact feed_not_mem_repr number
  | negSucc number =>
      change '\n' ∉ ("-" ++ (number + 1).repr).toList
      rw [String.toList_append, List.mem_append, not_or]
      exact ⟨by decide, feed_not_mem_repr _⟩

theorem feed_not_mem_float (value : Double) : '\n' ∉ (Layout.literal.write value).toList := by
  cases value with
  | nan => decide
  | infinite negative => cases negative <;> decide
  | finite negative rank =>
      rw [Layout.write, String.toList_ofList, List.mem_append, not_or]
      refine ⟨by cases negative <;> decide, fun h => ?_⟩
      rcases Layout.mem_finite h with hdigit | hmark <;> contradiction

theorem feed_mem_argumentList_iff {args : List (List Char)} :
    '\n' ∈ argumentList args ↔ ∃ arg ∈ args, '\n' ∈ arg := by
  have hjoined : '\n' ∈ [',', ' '].intercalate args ↔ ∃ arg ∈ args, '\n' ∈ arg := by
    induction args with
    | nil => simp
    | cons first rest ih =>
        cases rest with
        | nil => simp
        | cons second others =>
            rw [List.intercalate_cons_cons, List.mem_append, List.mem_append, ih]
            simp
  simpa [argumentList] using hjoined

mutual

/-- A line feed is in the text of an expression exactly if it is in one of its names or in raw
text, however deep. -/
theorem feed_mem_chars_iff : ∀ expression : Expression,
    '\n' ∈ expression.chars ↔ ∃ text ∈ expression.verbatim, Text.IsBroken text
  | .raw content => by simp [chars, verbatim, Text.IsBroken]
  | .bool value => by simp [chars, verbatim, feed_not_mem_bool]
  | .integer value => by simp [chars, verbatim, feed_not_mem_integer]
  | .float value => by simp [chars, verbatim, feed_not_mem_float]
  | .text content => by simp [chars, verbatim, feed_not_mem_quote]
  | .variable name _ => by simp [chars, verbatim, Text.IsBroken]
  | .new type args => by
      have hnew : '\n' ∉ "new ".toList := by decide
      simp only [chars, verbatim, List.mem_append, hnew, false_or, feed_mem_argumentList_iff,
        feed_mem_argChars_iff args, List.mem_cons, or_and_right, exists_or, exists_eq_left,
        Text.IsBroken]
  | .call function args => by
      simp only [chars, verbatim, List.mem_append, feed_mem_argumentList_iff,
        feed_mem_argChars_iff args, List.mem_cons, or_and_right, exists_or, exists_eq_left,
        Text.IsBroken]
  | .method target name args => by
      have hmark : '\n' ∉ target.memberMark := by
        unfold memberMark
        split <;> decide
      simp only [chars, verbatim, List.mem_append, hmark, or_false, feed_mem_chars_iff target,
        feed_mem_argumentList_iff, feed_mem_argChars_iff args, List.mem_cons, or_and_right,
        exists_or, exists_eq_left, Text.IsBroken, or_assoc]

theorem feed_mem_argChars_iff : ∀ args : List Expression,
    (∃ arg ∈ argChars args, '\n' ∈ arg) ↔ ∃ text ∈ verbatimArgs args, Text.IsBroken text
  | [] => by simp [argChars, verbatimArgs]
  | arg :: rest => by
      have hfirst := feed_mem_chars_iff arg
      have hrest := feed_mem_argChars_iff rest
      simp only [argChars, verbatimArgs, List.mem_cons, List.mem_append, or_and_right, exists_or,
        exists_eq_left, hfirst, hrest]

end

end Expression

/-- A line feed is in the text of a statement exactly if it is in a name, in raw text, or in the
text of a comment. -/
theorem Statement.isBroken_render_iff (statement : Statement) :
    Text.IsBroken statement.render ↔ (∃ text ∈ statement.verbatim, Text.IsBroken text) ∨
      ∃ text, statement = .comment text ∧ Text.IsBroken text := by
  rw [Text.IsBroken, render, String.toList_ofList]
  cases statement with
  | expression value =>
      simp [chars, verbatim, Expression.feed_mem_chars_iff]
  | assignment target value =>
      simp [chars, verbatim, Expression.feed_mem_chars_iff, Text.IsBroken]
  | comment content =>
      simp [chars, verbatim, Text.IsBroken]

namespace Code

theorem unlines_append (first second : List String) :
    unlines (first ++ second) = unlines first ++ unlines second := by
  rw [String.toList_inj.symm]
  simp [unlines]

theorem splitOn_unlines (texts : List String) :
    Text.splitOn '\n' (unlines texts).toList =
      texts.flatMap (fun text => Text.splitOn '\n' text.toList) ++ [[]] := by
  induction texts with
  | nil => rfl
  | cons first rest ih =>
      have hfirst : (unlines (first :: rest)).toList =
          first.toList ++ '\n' :: (unlines rest).toList := by
        simp [unlines]
      rw [hfirst, Text.splitOn_append_cons, ih, List.flatMap_cons, List.append_assoc]

theorem block_eq_unlines (lines : List String) : block lines = unlines (lines ++ [""]) := by
  rw [unlines_append]
  rfl

/-- The generated file is put together from lines, among them those of the setup function. -/
theorem exists_source_eq (code : Code) (form : SourceForm) : ∃ before after, code.source form =
    unlines (before ++ "void setup() \x7b" ::
      (code.setupStatements.map (fun statement => form.indent ++ statement.render) ++
        "\x7d" :: after)) := by
  let includes := (mainHeader :: code.headers.filter (· != mainHeader)).map fun header =>
    "#include \"" ++ header ++ "\""
  let setup := ["void setup() \x7b"] ++ code.setupStatements.map (fun statement =>
    form.indent ++ statement.render) ++ ["\x7d"]
  let loopLines := ["void loop() \x7b", form.indent ++ (appCall "loop" []).render, "\x7d"]
  obtain ⟨used, hused⟩ : ∃ lines, (if form.usedNamespace.isEmpty then ""
      else block ["using namespace " ++ form.usedNamespace ++ ";"]) = unlines lines := by
    split
    · exact ⟨[], rfl⟩
    · exact ⟨_, block_eq_unlines _⟩
  obtain ⟨globals, hglobals⟩ : ∃ lines, (if code.globals.isEmpty then ""
      else block (code.globals.map Global.render)) = unlines lines := by
    split
    · exact ⟨[], rfl⟩
    · exact ⟨_, block_eq_unlines _⟩
  obtain ⟨header, hsource⟩ : ∃ header, code.source form = unlines header ++ block includes ++
      unlines used ++ unlines globals ++ block setup ++ unlines loopLines := by
    rw [source, hused, hglobals]
    cases form.header with
    | none => exact ⟨[], rfl⟩
    | some text =>
        refine ⟨(Text.lines text).map ("// " ++ ·) ++ [""], ?_⟩
        rw [← block_eq_unlines]
  refine ⟨header ++ (includes ++ [""]) ++ used ++ globals, "" :: loopLines, ?_⟩
  rw [hsource, block_eq_unlines, block_eq_unlines]
  simp only [← unlines_append]
  simp [setup]

variable {statement : Statement} {breaks : List (List Char)} {indent : List Char}

/-- An indented statement is on the last line of the indentation, unless its text is broken. -/
theorem splitOn_indented {form : SourceForm}
    (hindent : Text.splitOn '\n' form.indent.toList = breaks ++ [indent])
    (h : ¬ Text.IsBroken statement.render) :
    Text.splitOn '\n' (form.indent ++ statement.render).toList =
      breaks ++ [indent ++ statement.chars] := by
  have hchars : statement.render.toList = statement.chars := String.toList_ofList
  rw [Text.IsBroken, hchars] at h
  rw [String.toList_append, hchars]
  exact Text.splitOn_append hindent h

/-- Statements are on lines of their own.  If the names and raw texts of a statement have no line
feed, then its text has one exactly if it is a comment whose own text has one.  In code without
such comments, every statement is on exactly one line of the setup function, behind the
indentation, whatever its literals hold. -/
theorem statements_on_lines (code : Code) (form : SourceForm) :
    (∀ statement : Statement, (∀ text ∈ statement.verbatim, ¬ Text.IsBroken text) →
      (Text.IsBroken statement.render ↔ ∃ text, statement = .comment text ∧ Text.IsBroken text)) ∧
    ((∀ statement ∈ code.statements, ∀ text ∈ statement.verbatim, ¬ Text.IsBroken text) →
      (∀ text, .comment text ∈ code.statements → ¬ Text.IsBroken text) →
      ∃ breaks indent before registered after,
        Text.splitOn '\n' form.indent.toList = breaks ++ [indent] ∧
        Text.splitOn '\n' (code.source form).toList = before ++ "void setup() \x7b".toList ::
          (code.statements.flatMap (fun statement => breaks ++ [indent ++ statement.chars]) ++
            registered ++ "\x7d".toList :: after)) := by
  have hbroken : ∀ statement : Statement, (∀ text ∈ statement.verbatim, ¬ Text.IsBroken text) →
      (Text.IsBroken statement.render ↔
        ∃ text, statement = .comment text ∧ Text.IsBroken text) := by
    intro statement hverbatim
    rw [statement.isBroken_render_iff, or_iff_right]
    rintro ⟨text, hmem, htext⟩
    exact hverbatim text hmem htext
  refine ⟨hbroken, fun hverbatim hcomments => ?_⟩
  obtain ⟨before, after, hsource⟩ := exists_source_eq code form
  obtain ⟨breaks, indent, hindent⟩ : ∃ breaks indent,
      Text.splitOn '\n' form.indent.toList = breaks ++ [indent] :=
    ⟨_, _, (List.dropLast_concat_getLast (Text.splitOn_ne_nil _ _)).symm⟩
  have hstatements : code.statements.flatMap (fun statement =>
      Text.splitOn '\n' (form.indent ++ statement.render).toList) =
      code.statements.flatMap fun statement => breaks ++ [indent ++ statement.chars] := by
    refine List.flatMap_congr fun statement hmem => splitOn_indented hindent fun htext => ?_
    obtain ⟨text, rfl, hcomment⟩ := (hbroken statement (hverbatim statement hmem)).mp htext
    exact hcomments text hmem hcomment
  have hopening : Text.splitOn '\n' "void setup() \x7b".toList = ["void setup() \x7b".toList] := by
    decide
  have hclosing : Text.splitOn '\n' "\x7d".toList = ["\x7d".toList] := by decide
  let lines (text : String) : List (List Char) := Text.splitOn '\n' text.toList
  let registered := code.runtimeObjects.flatMap fun name => lines (form.indent ++
    (appCall "register_component" [.variable name true]).render)
  refine ⟨breaks, indent, before.flatMap lines,
    registered ++ lines (form.indent ++ (appCall "setup" []).render),
    after.flatMap lines ++ [[]], hindent, ?_⟩
  rw [hsource, splitOn_unlines, setupStatements]
  simp only [List.map_append, List.map_map, List.map_cons, List.map_nil, List.flatMap_append,
    List.flatMap_cons, List.flatMap_map, hopening, hclosing, hstatements, List.append_assoc,
    List.cons_append, List.nil_append, lines, registered, Function.comp_apply]

/-- Naming a pump by a text of two lines. -/
def namePump : Statement :=
  .expression (.method (.variable "pump" true) "set_name" [.text "north\nwest"])

/-- Code with a comment, and with a literal that holds a line feed. -/
def pumpCode : Code := ⟨[], [], [.comment "names the pump", namePump], ["pump"]⟩

/-- The statement that names a pump is on one line, as is the comment before it. -/
theorem pump_on_lines :
    ¬ Text.IsBroken namePump.render ∧ ∃ breaks indent before registered after,
      Text.splitOn '\n' "  ".toList = breaks ++ [indent] ∧
      Text.splitOn '\n' (pumpCode.source .standard).toList =
        before ++ "void setup() \x7b".toList ::
          (pumpCode.statements.flatMap (fun statement => breaks ++ [indent ++ statement.chars]) ++
            registered ++ "\x7d".toList :: after) := by
  have hverbatim : ∀ statement ∈ pumpCode.statements, ∀ text ∈ statement.verbatim,
      ¬ Text.IsBroken text := by decide
  have hcomments : ∀ text, .comment text ∈ pumpCode.statements → ¬ Text.IsBroken text := by
    intro text hmem
    obtain rfl : text = "names the pump" := by simpa [pumpCode, namePump] using hmem
    decide
  obtain ⟨hbroken, hlines⟩ := statements_on_lines pumpCode .standard
  have hname := hverbatim namePump (.tail _ List.mem_cons_self)
  refine ⟨fun h => ?_, hlines hverbatim hcomments⟩
  obtain ⟨_, hcomment, _⟩ := (hbroken namePump hname).mp h
  cases hcomment

/-- A comment is written as it is: a line feed in its text ends the comment, and what follows is a
line of code. -/
theorem comment_goes_on_as_code :
    let note : Statement := .comment "names the pump\nreboot();"
    note.verbatim = [] ∧ Text.IsBroken note.render ∧
      "reboot();".toList ∈
        Text.splitOn '\n' (Code.source ⟨[], [], [note], []⟩ .standard).toList := by
  intro note
  refine ⟨rfl, by decide, ?_⟩
  obtain ⟨before, after, hsource⟩ := exists_source_eq ⟨[], [], [note], []⟩ .standard
  have hline : "reboot();".toList ∈ Text.splitOn '\n' ("  " ++ note.render).toList := by decide
  rw [hsource, splitOn_unlines]
  refine List.mem_append_left _ (List.mem_flatMap.mpr ⟨"  " ++ note.render, ?_, hline⟩)
  exact List.mem_append_right _ (.tail _ (List.mem_append_left _ List.mem_cons_self))

end Code

end Firmware
