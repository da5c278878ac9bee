import Firmware.Proofs.Routine.Passage
import Firmware.Role
/-!
Code as a list of pieces.  What an action or a role adds to the code is told by
itself, and code is determined by the pieces that were put into it: headers and
objects once each, globals and statements in order.
-/

namespace Firmware

inductive Piece
  | header (name : String)
  | global (declared : Global)
  | statement (added : Statement)
  | object (name : String)

namespace Piece

def header? : Piece → Option String
  | .header name => some name
  | _ => none

def global? : Piece → Option Global
  | .global declared => some declared
  | _ => none

def statement? : Piece → Option Statement
  | .statement added => some added
  | _ => none

def object? : Piece → Option String
  | .object name => some name
  | _ => none

end Piece

namespace Code

def ofPieces (pieces : List Piece) : Code where
  headers := OrderedSet.ofList (pieces.filterMap Piece.header?)
  globals := pieces.filterMap Piece.global?
  statements := pieces.filterMap Piece.statement?
  runtimeObjects := OrderedSet.ofList (pieces.filterMap Piece.object?)

def put (code : Code) : Piece → Code
  | .header name => code.addHeader name
  | .global declared => code.addGlobal declared
  | .statement added => code.add added
  | .object name =>
      { code with runtimeObjects := OrderedSet.add code.runtimeObjects name }

theorem foldl_put (pieces : List Piece) (code : Code) :
    pieces.foldl put code =
      ⟨(pieces.filterMap Piece.header?).foldl OrderedSet.add code.headers,
        code.globals ++ pieces.filterMap Piece.global?,
        code.statements ++ pieces.filterMap Piece.statement?,
        (pieces.filterMap Piece.object?).foldl OrderedSet.add code.runtimeObjects⟩ := by
  induction pieces generalizing code with
  | nil => simp
  | cons piece rest ih =>
      rw [List.foldl_cons, ih]
      cases piece <;>
        simp [put, addHeader, addGlobal, add, List.filterMap_cons, Piece.header?,
          Piece.global?, Piece.statement?, Piece.object?]

/-- Code into which pieces are put one after another is made of them. -/
theorem foldl_put_empty (pieces : List Piece) : pieces.foldl put .empty = ofPieces pieces := by
  rw [foldl_put]
  simp [empty, ofPieces, OrderedSet.ofList]

theorem foldl_add (statements : List Statement) (code : Code) :
    statements.foldl add code = (statements.map Piece.statement).foldl put code := by
  rw [List.foldl_map]
  rfl

end Code

def Action.pieces (own : Local) : Action → List Piece
  | .comment text => [.statement (.comment text)]
  | .header name => [.header name]
  | .declare subject args =>
      match own.identifier subject, Term.expressions own args with
      | .ok id, .ok args =>
          [.global (.ofIdentifier id), .statement (.assignment id.name (.new id.type args))]
      | _, _ => []
  | .add term =>
      match term.expression own with
      | .ok expression => [.statement (.expression expression)]
      | .error _ => []
  | .assign target term =>
      match term.expression own with
      | .ok expression => [.statement (.assignment target expression)]
      | .error _ => []
  | .global type name isPointer => [.global ⟨type, name, isPointer⟩]
  | .register subject =>
      match own.identifier subject with
      | .ok id => [.object id.name]
      | .error _ => []
  | .allocate _ _ _ | .peek _ | .fail _ => []

/-- What a step adds to the code: waiting adds nothing. -/
def Step.pieces (own : Local) : Step → List Piece
  | .act action => action.pieces own
  | .await _ _ | .suspend => []

theorem Action.Performs.code {action : Action} {own own' : Local} {shared shared' : Shared}
    (h : action.Performs own shared own' shared') :
    shared'.code = (action.pieces own).foldl Code.put shared.code := by
  cases h with
  | declare hfound hevaluated => simp [pieces, hfound, hevaluated, Code.put, Code.declare]
  | add hevaluated => simp [pieces, hevaluated, Code.put]
  | assign hevaluated => simp [pieces, hevaluated, Code.put]
  | register hfound => simp [pieces, hfound, Code.put, Code.register]
  | _ => rfl

namespace Step

variable {own own' : Local} {shared shared' : Shared} {steps rest : List Step}
  {passed : List (Local × Step)}

/-- The steps of a passage add their pieces in order. -/
theorem Passes.code (h : Passes own shared steps passed own' shared' rest) :
    shared'.code =
      (passed.flatMap fun pair => pair.2.pieces pair.1).foldl Code.put shared.code := by
  induction h with
  | stop => rfl
  | act performed _ ih =>
      rw [ih, (Action.perform_eq_ok_iff.mp performed).code, List.flatMap_cons, List.foldl_append]
      rfl
  | receive _ _ ih =>
      rw [ih, List.flatMap_cons]
      rfl

theorem Waits.code {step : Step} {pause : Pause}
    (h : Waits own shared step pause own' shared') :
    shared'.code = (step.pieces own).foldl Code.put shared.code := by
  cases h <;> rfl

end Step

namespace Capability

def pieces (inst : Instance) : Capability → List Piece
  | .schedulable =>
      (((inst.config.get? Role.setupPriority).bind Value.number?).toList.map fun priority =>
        .statement (Role.call inst "set_setup_priority" [.float priority]))
        ++ [.object inst.id.name]
  | .measurable => (Role.sensorStatements inst).map .statement

theorem emit_eq_ok {inst : Instance} {code final : Code} {capability : Capability}
    (h : capability.emit inst code = .ok final) :
    final = (capability.pieces inst).foldl Code.put code := by
  cases capability with
  | measurable =>
      obtain rfl := Except.ok.inj h
      exact Code.foldl_add _ _
  | schedulable =>
      simp only [emit, Role.registerComponent] at h
      cases hpriority : (inst.config.get? Role.setupPriority).bind Value.number? with
      | none =>
          simp only [hpriority] at h
          split at h
          · simp at h
          · obtain rfl := Except.ok.inj h
            simp [pieces, hpriority, Code.put, Code.register]
      | some priority =>
          simp only [hpriority] at h
          split at h
          · simp at h
          · obtain rfl := Except.ok.inj h
            simp [pieces, hpriority, Code.put, Code.register]

/-- The roles of an instance add their pieces in order. -/
theorem emitAll_eq_ok {inst : Instance} {code final : Code} (h : emitAll inst code = .ok final) :
    final = (inst.declaration.capabilities.flatMap (pieces inst)).foldl Code.put code := by
  unfold emitAll at h
  generalize inst.declaration.capabilities = capabilities at h ⊢
  induction capabilities generalizing code with
  | nil =>
      obtain rfl : code = final := by simpa [pure, Except.pure] using h
      rfl
  | cons capability rest ih =>
      rw [List.foldlM_cons] at h
      cases hemitted : emit inst code capability with
      | error fault => simp [hemitted, bind, Except.bind] at h
      | ok next =>
          simp only [hemitted, bind, Except.bind] at h
          rw [ih h, emit_eq_ok hemitted, List.flatMap_cons, List.foldl_append]

variable {inst : Instance} {code : Code}

theorem runtimeObjects_foldl_add (statements : List Statement) (code : Code) :
    (statements.foldl Code.add code).runtimeObjects = code.runtimeObjects := by
  induction statements generalizing code with
  | nil => rfl
  | cons statement rest ih => exact ih _

/-- A role can be emitted unless it would register an object again. -/
theorem exists_emit (inst : Instance) (code : Code) (capability : Capability)
    (hfresh : capability = .schedulable → inst.id.name ∉ code.runtimeObjects) :
    ∃ final, capability.emit inst code = .ok final ∧ ∀ name ∈ final.runtimeObjects,
      name ∈ code.runtimeObjects ∨ capability = .schedulable ∧ name = inst.id.name := by
  cases capability with
  | measurable =>
      refine ⟨_, rfl, ?_⟩
      rw [runtimeObjects_foldl_add]
      exact fun name hname => .inl hname
  | schedulable =>
      have hnot := hfresh rfl
      simp only [emit, Role.registerComponent, Code.isRegistered]
      cases (inst.config.get? Role.setupPriority).bind Value.number? with
      | none =>
          refine ⟨code.register inst.id, by simp [hnot], fun name hname => ?_⟩
          exact (OrderedSet.mem_add.mp hname).imp_right fun heq => ⟨trivial, heq⟩
      | some priority =>
          refine ⟨(code.add (Role.call inst "set_setup_priority" [.float priority])).register
            inst.id, by simp [hnot, Code.add], fun name hname => ?_⟩
          exact (OrderedSet.mem_add.mp hname).imp_right fun heq => ⟨trivial, heq⟩

/-- The roles of an instance whose object is not registered can be emitted, and
register nothing else. -/
theorem exists_emitAll (hroles : inst.declaration.capabilities.Nodup)
    (hfresh : inst.id.name ∉ code.runtimeObjects) :
    ∃ final, emitAll inst code = .ok final ∧
      ∀ name ∈ final.runtimeObjects, name ∈ code.runtimeObjects ∨ name = inst.id.name := by
  have hall : ∀ (capabilities : List Capability) (code : Code), capabilities.Nodup →
      (.schedulable ∈ capabilities → inst.id.name ∉ code.runtimeObjects) →
      ∃ final, capabilities.foldlM (emit inst) code = .ok final ∧
        ∀ name ∈ final.runtimeObjects, name ∈ code.runtimeObjects ∨ name = inst.id.name := by
    intro capabilities
    induction capabilities with
    | nil => exact fun code _ _ => ⟨code, rfl, fun name hname => .inl hname⟩
    | cons capability rest ih =>
        intro code hnodup hnot
        obtain ⟨hfirst, hrest⟩ := List.nodup_cons.mp hnodup
        obtain ⟨next, hnext, hobjects⟩ := exists_emit inst code capability
          (fun heq => hnot (heq ▸ List.mem_cons_self))
        have hlater : .schedulable ∈ rest → inst.id.name ∉ next.runtimeObjects := by
          intro hmem hregistered
          rcases hobjects _ hregistered with hold | ⟨rfl, _⟩
          · exact hnot (.tail _ hmem) hold
          · exact hfirst hmem
        obtain ⟨final, hfinal, hothers⟩ := ih next hrest hlater
        refine ⟨final, ?_, fun name hname => ?_⟩
        · rw [List.foldlM_cons, hnext]
          exact hfinal
        · rcases hothers name hname with hnew | heq
          · exact (hobjects name hnew).imp_right And.right
          · exact .inr heq
  exact hall _ code hroles fun _ => hfresh

end Capability

end Firmware
