import Firmware.Instance
import Firmware.Proofs.Routine.Passage
import Firmware.Proofs.Table
/-!
Plain scripts.  Their steps only add code, declare variables and await variables, all
under names that are known before the script runs, and they use only what is there.
A poll of a plain script never fails: it ends, or it waits for a variable that is not
visible yet.
-/

namespace Firmware

/-- The variables that the local names of a script stand for. -/
abbrev Scope := Table String String

def Scope.bind (scope : Scope) (bind : Option String) (name : String) : Scope :=
  match bind with
  | some target => Table.insert scope target name
  | none => scope

mutual

/-- Whether all local names and values that a term uses are there. -/
def Term.isClosed (scope : Scope) (config : Node) : Term → Bool
  | .code _ | .self => true
  | .bound name => Table.contains scope name
  | .literal field => ((config.get? field).bind Expression.literal?).isSome
  | .new _ args | .call _ args => Term.areClosed scope config args
  | .method target _ args => target.isClosed scope config && Term.areClosed scope config args
termination_by structural term => term

def Term.areClosed (scope : Scope) (config : Node) : List Term → Bool
  | [] => true
  | term :: rest => term.isClosed scope config && Term.areClosed scope config rest
termination_by structural terms => terms

end

def Subject.boundName? (own : String) (scope : Scope) : Subject → Option String
  | .own => some own
  | .given id => some id.name
  | .bound name => Table.get? scope name

/-- Whether an action adds code, or declares a variable whose name is known. -/
def Action.isPlain (inst : Instance) (scope : Scope) : Action → Bool
  | .comment _ | .header _ | .global _ _ _ => true
  | .add term | .assign _ term => term.isClosed scope inst.config
  | .declare subject args =>
      (subject.boundName? inst.id.name scope).isSome && Term.areClosed scope inst.config args
  | .allocate _ _ _ | .peek _ | .register _ | .fail _ => false

def Action.declared? (own : String) (scope : Scope) : Action → Option String
  | .declare subject _ => subject.boundName? own scope
  | _ => none

namespace Step

def arePlain (inst : Instance) (scope : Scope) : List Step → Bool
  | [] => true
  | .await name bind :: rest => arePlain inst (scope.bind bind name) rest
  | .act action :: rest => action.isPlain inst scope && arePlain inst scope rest
  | .suspend :: _ => false

def awaited : List Step → List String
  | [] => []
  | .await name _ :: rest => name :: awaited rest
  | _ :: rest => awaited rest

def declared (own : String) (scope : Scope) : List Step → List String
  | [] => []
  | .await name bind :: rest => declared own (scope.bind bind name) rest
  | .act action :: rest => (action.declared? own scope).toList ++ declared own scope rest
  | .suspend :: rest => declared own scope rest

end Step

/-- Whether the local names of a routine are bound to the variables of a scope. -/
def Local.Within (own : Local) (scope : Scope) : Prop :=
  ∀ target name, Table.get? scope target = some name →
    ∃ id, Table.get? own.bindings target = some id ∧ id.name = name

namespace Local

variable {own : Local} {scope : Scope} {config : Node}

theorem Within.bindTo {id : Identifier} {name : String} (h : own.Within scope)
    (hname : id.name = name) (bind : Option String) :
    (own.bindTo bind id).Within (scope.bind bind name) := by
  cases bind with
  | none => exact h
  | some target =>
      intro other found hfound
      simp only [Scope.bind] at hfound
      by_cases heq : target = other
      · subst heq
        rw [Table.get?_insert_self] at hfound
        exact ⟨id, Table.get?_insert_self .., hname.trans (Option.some.inj hfound)⟩
      · rw [Table.get?_insert_of_ne _ _ heq] at hfound
        obtain ⟨found, hbound, hsame⟩ := h other _ hfound
        exact ⟨found, (Table.get?_insert_of_ne _ _ heq).trans hbound, hsame⟩

theorem Within.exists_identifier {subject : Subject} {name : String} (h : own.Within scope)
    (hname : subject.boundName? own.id.name scope = some name) :
    ∃ id, own.identifier subject = .ok id ∧ id.name = name := by
  cases subject with
  | own => exact ⟨own.id, rfl, Option.some.inj hname⟩
  | given id => exact ⟨id, rfl, Option.some.inj hname⟩
  | bound target =>
      obtain ⟨id, hbound, hsame⟩ := h target name hname
      exact ⟨id, by simp only [identifier, hbound], hsame⟩

mutual

theorem Within.exists_expression (h : own.Within scope) (hconfig : own.config = config) :
    ∀ term : Term, term.isClosed scope config = true → ∃ value, term.expression own = .ok value
  | .code value, _ => ⟨value, rfl⟩
  | .self, _ => ⟨.ofIdentifier own.id, rfl⟩
  | .bound name, hclosed => by
      obtain ⟨found, hfound⟩ := Option.isSome_iff_exists.mp hclosed
      obtain ⟨id, hbound, _⟩ := h name found hfound
      exact ⟨.ofIdentifier id, by simp only [Term.expression, identifier, hbound, Except.map]⟩
  | .literal field, hclosed => by
      obtain ⟨value, hvalue⟩ := Option.isSome_iff_exists.mp hclosed
      exact ⟨value, by simp only [Term.expression, literal, hconfig, hvalue]⟩
  | .new type args, hclosed => by
      obtain ⟨values, hvalues⟩ := Within.exists_expressions h hconfig args hclosed
      exact ⟨.new type values, by simp only [Term.expression, hvalues, Except.map]⟩
  | .call function args, hclosed => by
      obtain ⟨values, hvalues⟩ := Within.exists_expressions h hconfig args hclosed
      exact ⟨.call function values, by simp only [Term.expression, hvalues, Except.map]⟩
  | .method target name args, hclosed => by
      obtain ⟨htarget, hargs⟩ := Bool.and_eq_true_iff.mp hclosed
      obtain ⟨value, hvalue⟩ := Within.exists_expression h hconfig target htarget
      obtain ⟨values, hvalues⟩ := Within.exists_expressions h hconfig args hargs
      exact ⟨.method value name values,
        by simp only [Term.expression, hvalue, hvalues, bind, Except.bind, Except.map]⟩

theorem Within.exists_expressions (h : own.Within scope) (hconfig : own.config = config) :
    ∀ terms : List Term, Term.areClosed scope config terms = true →
      ∃ values, Term.expressions own terms = .ok values
  | [], _ => ⟨[], rfl⟩
  | term :: rest, hclosed => by
      obtain ⟨hterm, hrest⟩ := Bool.and_eq_true_iff.mp hclosed
      obtain ⟨value, hvalue⟩ := Within.exists_expression h hconfig term hterm
      obtain ⟨values, hvalues⟩ := Within.exists_expressions h hconfig rest hrest
      exact ⟨value :: values,
        by simp only [Term.expressions, hvalue, hvalues, bind, Except.bind, Except.map]⟩

end

end Local

namespace Step

/-- How far a plain routine has come in its script: the rest is plain, what it has
declared and will declare is what the script says, and what it has awaited so far is
visible. -/
structure Reached (inst : Instance) (script : List Step) (published : Table String Identifier)
    (own : Local) (rest : List Step) : Prop where
  id : own.id = inst.id
  config : own.config = inst.config
  suffix : rest <:+ script
  scope : ∃ scope, own.Within scope ∧ arePlain inst scope rest = true ∧
    own.declared.map (·.name) ++ declared inst.id.name scope rest =
      declared inst.id.name [] script
  awaited : ∀ name ∈ awaited script, Table.contains published name = true ∨ name ∈ awaited rest

namespace Reached

variable {inst : Instance} {script rest steps : List Step} {own own' : Local}
  {shared shared' : Shared} {published published' : Table String Identifier}
  {action : Action} {name : String} {bind : Option String} {passed : List (Local × Step)}

theorem mono (h : Reached inst script published own rest)
    (hgrows : ∀ name, Table.contains published name = true →
      Table.contains published' name = true) : Reached inst script published' own rest :=
  ⟨h.id, h.config, h.suffix, h.scope,
    fun name hname => (h.awaited name hname).imp_left (hgrows name)⟩

theorem exists_performs (h : Reached inst script published own (.act action :: rest))
    (shared : Shared) : ∃ own' shared', action.Performs own shared own' shared' := by
  obtain ⟨scope, hwithin, hplain, _⟩ := h.scope
  obtain ⟨haction, _⟩ := Bool.and_eq_true_iff.mp hplain
  cases action with
  | comment text => exact ⟨_, _, .comment text⟩
  | header name => exact ⟨_, _, .header name⟩
  | global type name isPointer => exact ⟨_, _, .global type name isPointer⟩
  | add term =>
      obtain ⟨value, hvalue⟩ := hwithin.exists_expression h.config term haction
      exact ⟨_, _, .add hvalue⟩
  | assign target term =>
      obtain ⟨value, hvalue⟩ := hwithin.exists_expression h.config term haction
      exact ⟨_, _, .assign hvalue⟩
  | declare subject args =>
      obtain ⟨hsubject, hargs⟩ := Bool.and_eq_true_iff.mp haction
      obtain ⟨name, hname⟩ := Option.isSome_iff_exists.mp hsubject
      obtain ⟨id, hid, _⟩ := hwithin.exists_identifier (h.id.symm ▸ hname)
      obtain ⟨values, hvalues⟩ := hwithin.exists_expressions h.config args hargs
      exact ⟨_, _, .declare hid hvalues⟩
  | _ => simp [Action.isPlain] at haction

/-- A plain action declares what the script says, and registers nothing. -/
theorem act (h : Reached inst script published own (.act action :: rest))
    (hperforms : action.Performs own shared own' shared') :
    Reached inst script published own' rest ∧
      shared'.code.runtimeObjects = shared.code.runtimeObjects := by
  obtain ⟨scope, hwithin, hplain, hdeclared⟩ := h.scope
  obtain ⟨haction, hrest⟩ := Bool.and_eq_true_iff.mp hplain
  have hsuffix := (List.suffix_cons _ _).trans h.suffix
  cases hperforms with
  | @declare subject args id _ hfound _ =>
      obtain ⟨hsubject, _⟩ := Bool.and_eq_true_iff.mp haction
      obtain ⟨name, hname⟩ := Option.isSome_iff_exists.mp hsubject
      obtain ⟨found, hid, rfl⟩ := hwithin.exists_identifier (h.id.symm ▸ hname)
      obtain rfl := Except.ok.inj (hfound.symm.trans hid)
      refine ⟨⟨h.id, h.config, hsuffix, ⟨scope, hwithin, hrest, ?_⟩, h.awaited⟩, rfl⟩
      rw [← hdeclared, List.map_append, List.append_assoc, declared, Action.declared?, hname]
      rfl
  | comment | header | add | assign | global =>
      exact ⟨⟨h.id, h.config, hsuffix, ⟨scope, hwithin, hrest, hdeclared⟩, h.awaited⟩, rfl⟩
  | _ => simp [Action.isPlain] at haction

/-- A variable that is visible has been awaited once it is received. -/
theorem receive {id : Identifier} (h : Reached inst script published own (.await name bind :: rest))
    (hvisible : Table.get? published name = some id) (hname : id.name = name) (shared : Shared) :
    Reached inst script published (receive bind id own shared).1 rest := by
  obtain ⟨scope, hwithin, hplain, hdeclared⟩ := h.scope
  have hfollows := receive_follows bind id own shared
  refine ⟨hfollows.id.trans h.id, hfollows.config.trans h.config,
    (List.suffix_cons _ _).trans h.suffix, ⟨scope.bind bind name, ?_, hplain, ?_⟩, ?_⟩
  · have hkept : ({ own with mark := none } : Local).Within scope := hwithin
    exact hkept.bindTo hname bind
  · rw [← hdeclared]
    cases bind <;> rfl
  · intro other hother
    rcases h.awaited other hother with hseen | hlater
    · exact .inl hseen
    · rcases List.mem_cons.mp hlater with rfl | hrest
      · exact .inl (Option.isSome_iff_exists.mpr ⟨id, hvisible⟩)
      · exact .inr hrest

/-- A plain routine stays plain while it is polled. -/
theorem passes (hnamed : shared.IsNamed)
    (h : Reached inst script shared.published own steps)
    (hpasses : Passes own shared steps passed own' shared' rest) :
    Reached inst script shared.published own' rest ∧
      shared'.code.runtimeObjects = shared.code.runtimeObjects := by
  induction hpasses with
  | stop => exact ⟨h, rfl⟩
  | act performed _ ih =>
      have hperforms := Action.perform_eq_ok_iff.mp performed
      obtain ⟨hnext, hobjects⟩ := h.act hperforms
      rw [← hperforms.published] at hnext ⊢
      obtain ⟨hlast, hlater⟩ := ih (hnamed.congr hperforms.published) hnext
      exact ⟨hlast, hlater.trans hobjects⟩
  | receive visible _ ih =>
      exact ih hnamed (h.receive visible (hnamed _ _ visible) _)

/-- The poll of a plain routine does not fail. -/
theorem run_ne_failed (hnamed : shared.IsNamed)
    (h : Reached inst script shared.published own steps) (failure : Failure) (final : Shared) :
    run own shared steps ≠ .failed failure final := by
  fun_induction run own shared steps with
  | case2 own shared name bind rest waiting id visible next after received ih =>
      have hnext := h.receive visible (hnamed _ _ visible) waiting
      rw [received] at hnext
      obtain rfl : (Step.receive bind id own waiting).2 = after := by rw [received]
      exact ih hnamed hnext
  | case5 =>
      obtain ⟨_, _, hplain, _⟩ := h.scope
      simp [arePlain] at hplain
  | case6 own shared action rest next shared' performed ih =>
      have hperforms := Action.perform_eq_ok_iff.mp performed
      obtain ⟨hnext, _⟩ := h.act hperforms
      rw [← hperforms.published] at hnext
      exact ih (hnamed.congr hperforms.published) hnext
  | case7 own shared action rest fault performed =>
      obtain ⟨_, _, hperforms⟩ := h.exists_performs shared
      rw [Action.perform_eq_ok_iff.mpr hperforms] at performed
      simp at performed
  | _ => simp

end Reached

end Step

end Firmware
