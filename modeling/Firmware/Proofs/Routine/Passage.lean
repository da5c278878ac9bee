import Firmware.Routine.Poll
/-!
What a poll does to a routine, step by step.  A poll passes over steps that need
not wait, one after the other, and then ends, waits or fails.  What holds of every
passage is proved by induction on it, without looking at polls again.
-/

namespace Firmware

namespace Local

@[simp] theorem record_published (own : Local) (event : Event) (shared : Shared) :
    (own.record event shared).published = shared.published := rfl

@[simp] theorem record_code (own : Local) (event : Event) (shared : Shared) :
    (own.record event shared).code = shared.code := rfl

/-- A later state of the same routine: what a routine does changes neither whose
routine it is nor what it is configured with. -/
structure Follows (later own : Local) : Prop where
  task : later.task = own.task
  id : later.id = own.id
  config : later.config = own.config
  observed : later.observed = own.observed

theorem Follows.refl (own : Local) : own.Follows own := ⟨rfl, rfl, rfl, rfl⟩

theorem Follows.trans {last later own : Local} (hlast : last.Follows later)
    (hlater : later.Follows own) : last.Follows own :=
  ⟨hlast.task.trans hlater.task, hlast.id.trans hlater.id, hlast.config.trans hlater.config,
    hlast.observed.trans hlater.observed⟩

theorem follows_bindTo (own : Local) (bind : Option String) (id : Identifier) :
    (own.bindTo bind id).Follows own := by
  cases bind <;> exact ⟨rfl, rfl, rfl, rfl⟩

end Local

/-- Whether every visible variable is found under its own name. -/
def Shared.IsNamed (shared : Shared) : Prop :=
  ∀ name id, Table.get? shared.published name = some id → id.name = name

theorem Shared.IsNamed.congr {shared shared' : Shared} (h : shared.IsNamed)
    (hsame : shared'.published = shared.published) : shared'.IsNamed := by
  rw [IsNamed, hsame]
  exact h

namespace Action

/-- What an action does when it does not fail. -/
inductive Performs (own : Local) (shared : Shared) : Action → Local → Shared → Prop
  | comment (text : String) :
      Performs own shared (.comment text) own
        { shared with code := shared.code.add (.comment text) }
  | header (name : String) :
      Performs own shared (.header name) own { shared with code := shared.code.addHeader name }
  | allocate (base type : String) (bind : Option String) :
      Performs own shared (.allocate base type bind)
        (own.bindTo bind (shared.names.allocate base type true).1)
        { shared with names := (shared.names.allocate base type true).2 }
  | declare {subject : Subject} {args : List Term} {id : Identifier}
      {arguments : List Expression} (found : own.identifier subject = .ok id)
      (evaluated : Term.expressions own args = .ok arguments) :
      Performs own shared (.declare subject args) { own with declared := own.declared ++ [id] }
        { shared with code := shared.code.declare id arguments }
  | peek (name : String) :
      Performs own shared (.peek name)
        { own with mark := if Table.contains shared.published name then none else some name }
        (own.record (.peeked name (Table.contains shared.published name)) shared)
  | add {term : Term} {expression : Expression} (evaluated : term.expression own = .ok expression) :
      Performs own shared (.add term) own
        { shared with code := shared.code.add (.expression expression) }
  | assign {target : String} {term : Term} {expression : Expression}
      (evaluated : term.expression own = .ok expression) :
      Performs own shared (.assign target term) own
        { shared with code := shared.code.add (.assignment target expression) }
  | global (type name : String) (isPointer : Bool) :
      Performs own shared (.global type name isPointer) own
        { shared with code := shared.code.addGlobal ⟨type, name, isPointer⟩ }
  | register {subject : Subject} {id : Identifier} (found : own.identifier subject = .ok id) :
      Performs own shared (.register subject) own
        (own.record (.registered id.name (!shared.code.isRegistered id.name))
          { shared with code := shared.code.register id })

variable {action : Action} {own own' : Local} {shared shared' : Shared}

theorem perform_eq_ok_iff :
    action.perform own shared = .ok (own', shared') ↔
      Performs own shared action own' shared' := by
  constructor
  · intro h
    cases action with
    | declare subject args =>
        cases hfound : own.identifier subject with
        | error fault => simp [perform, hfound, bind, Except.bind] at h
        | ok id =>
            cases hevaluated : Term.expressions own args with
            | error fault => simp [perform, hfound, hevaluated, bind, Except.bind] at h
            | ok arguments =>
                simp only [perform, hfound, hevaluated, bind, Except.bind, Except.ok.injEq,
                  Prod.mk.injEq] at h
                obtain ⟨rfl, rfl⟩ := h
                exact .declare hfound hevaluated
    | add term =>
        cases hevaluated : term.expression own with
        | error fault => simp [perform, hevaluated, bind, Except.bind] at h
        | ok expression =>
            simp only [perform, hevaluated, bind, Except.bind, Except.ok.injEq,
              Prod.mk.injEq] at h
            obtain ⟨rfl, rfl⟩ := h
            exact .add hevaluated
    | assign target term =>
        cases hevaluated : term.expression own with
        | error fault => simp [perform, hevaluated, bind, Except.bind] at h
        | ok expression =>
            simp only [perform, hevaluated, bind, Except.bind, Except.ok.injEq,
              Prod.mk.injEq] at h
            obtain ⟨rfl, rfl⟩ := h
            exact .assign hevaluated
    | register subject =>
        cases hfound : own.identifier subject with
        | error fault => simp [perform, hfound, bind, Except.bind] at h
        | ok id =>
            simp only [perform, hfound, bind, Except.bind, Except.ok.injEq,
              Prod.mk.injEq] at h
            obtain ⟨rfl, rfl⟩ := h
            exact .register hfound
    | fail text => simp [perform] at h
    | _ =>
        simp only [perform, Except.ok.injEq, Prod.mk.injEq] at h
        obtain ⟨rfl, rfl⟩ := h
        constructor
  · rintro (_ | _ | _ | ⟨hfound, hevaluated⟩ | _ | hevaluated | hevaluated | _ | hfound) <;>
      simp [perform, *, bind, Except.bind]

/-- An action shows no variable to other routines. -/
theorem Performs.published (h : Performs own shared action own' shared') :
    shared'.published = shared.published := by
  cases h <;> rfl

theorem Performs.follows (h : Performs own shared action own' shared') : own'.Follows own := by
  cases h with
  | allocate => exact own.follows_bindTo _ _
  | _ => exact ⟨rfl, rfl, rfl, rfl⟩

end Action

namespace Step

/-- Steps that are passed over without waiting, each with the state of the routine
before it. -/
inductive Passes : Local → Shared → List Step → List (Local × Step) →
    Local → Shared → List Step → Prop
  | stop (own : Local) (shared : Shared) (steps : List Step) :
      Passes own shared steps [] own shared steps
  | act {own own' last : Local} {shared shared' final : Shared} {action : Action}
      {steps rest : List Step} {passed : List (Local × Step)}
      (performed : action.perform own shared = .ok (own', shared'))
      (later : Passes own' shared' steps passed last final rest) :
      Passes own shared (.act action :: steps) ((own, .act action) :: passed) last final rest
  | receive {own last : Local} {shared final : Shared} {name : String}
      {bind : Option String} {id : Identifier} {steps rest : List Step}
      {passed : List (Local × Step)}
      (visible : Table.get? shared.published name = some id)
      (later : Passes (receive bind id own (own.record (.waits name) shared)).1
        (receive bind id own (own.record (.waits name) shared)).2 steps passed last final rest) :
      Passes own shared (.await name bind :: steps) ((own, .await name bind) :: passed)
        last final rest

/-- A step at which a routine has to wait, and the state in which it waits. -/
inductive Waits (own : Local) (shared : Shared) : Step → Pause → Local → Shared → Prop
  | await {name : String} {bind : Option String}
      (hidden : Table.get? shared.published name = none) :
      Waits own shared (.await name bind) (.awaiting name bind) { own with mark := some name }
        (own.record (.waits name) shared)
  | suspend {name : String} (marked : own.mark = some name) :
      Waits own shared .suspend (.yielded name) own shared

variable {own own' : Local} {shared shared' : Shared} {steps rest : List Step}
  {passed : List (Local × Step)}

/-- A poll may start after any steps that it passes over. -/
theorem run_eq_of_passes (h : Passes own shared steps passed own' shared' rest) :
    run own shared steps = run own' shared' rest := by
  induction h with
  | stop => rfl
  | act performed _ ih => simp only [run, performed, ih]
  | receive visible _ ih => simp only [run, Local.record_published, visible, ih]

/-- A poll ends a routine exactly when it passes over all of its steps. -/
theorem run_eq_ended_iff :
    run own shared steps = .ended own' shared' ↔
      ∃ passed before, Passes own shared steps passed own' before [] ∧
        shared' = own'.record .ended before := by
  constructor
  · intro h
    fun_induction run own shared steps with
    | case1 own shared =>
        obtain ⟨rfl, rfl⟩ := Poll.ended.inj h
        exact ⟨[], shared, .stop .., rfl⟩
    | case2 own shared name bind rest waiting id visible next after received ih =>
        obtain ⟨passed, before, hpasses, rfl⟩ := ih h
        rw [show next = (receive bind id own waiting).1 by rw [received],
          show after = (receive bind id own waiting).2 by rw [received]] at hpasses
        exact ⟨_, before, .receive visible hpasses, rfl⟩
    | case6 own shared action rest next shared'' performed ih =>
        obtain ⟨passed, before, hpasses, rfl⟩ := ih h
        exact ⟨_, before, .act performed hpasses, rfl⟩
    | _ => simp at h
  · rintro ⟨passed, before, hpasses, rfl⟩
    rw [run_eq_of_passes hpasses, run]

/-- A poll parks a routine exactly when it passes over steps up to one at which the
routine has to wait. -/
theorem run_eq_paused_iff {pause : Pause} :
    run own shared steps = .paused pause rest own' shared' ↔
      ∃ passed last before step, Passes own shared steps passed last before (step :: rest) ∧
        Waits last before step pause own' shared' := by
  constructor
  · intro h
    fun_induction run own shared steps with
    | case2 own shared name bind rest waiting id visible next after received ih =>
        obtain ⟨passed, last, before, step, hpasses, hwaits⟩ := ih h
        rw [show next = (receive bind id own waiting).1 by rw [received],
          show after = (receive bind id own waiting).2 by rw [received]] at hpasses
        exact ⟨_, last, before, step, .receive visible hpasses, hwaits⟩
    | case3 own shared name bind rest waiting hidden =>
        obtain ⟨rfl, rfl, rfl, rfl⟩ := Poll.paused.inj h
        exact ⟨[], own, shared, _, .stop .., .await hidden⟩
    | case4 own shared rest name marked =>
        obtain ⟨rfl, rfl, rfl, rfl⟩ := Poll.paused.inj h
        exact ⟨[], own, shared, _, .stop .., .suspend marked⟩
    | case6 own shared action rest next shared'' performed ih =>
        obtain ⟨passed, last, before, step, hpasses, hwaits⟩ := ih h
        exact ⟨_, last, before, step, .act performed hpasses, hwaits⟩
    | _ => simp at h
  · rintro ⟨passed, last, before, step, hpasses, hwaits⟩
    rw [run_eq_of_passes hpasses]
    cases hwaits with
    | await hidden => simp only [run, Local.record_published, hidden]
    | suspend marked => simp only [run, marked]

/-- A poll fails only after it has passed over some steps. -/
theorem exists_passes_of_failed {failure : Failure}
    (h : run own shared steps = .failed failure shared') :
    ∃ passed last rest, Passes own shared steps passed last shared' rest := by
  fun_induction run own shared steps with
  | case2 own shared name bind rest waiting id visible next after received ih =>
      obtain ⟨passed, last, remaining, hpasses⟩ := ih h
      rw [show next = (receive bind id own waiting).1 by rw [received],
        show after = (receive bind id own waiting).2 by rw [received]] at hpasses
      exact ⟨_, last, remaining, .receive visible hpasses⟩
  | case5 own shared rest unmarked =>
      obtain ⟨_, rfl⟩ := Poll.failed.inj h
      exact ⟨[], own, _, .stop ..⟩
  | case6 own shared action rest next shared'' performed ih =>
      obtain ⟨passed, last, remaining, hpasses⟩ := ih h
      exact ⟨_, last, remaining, .act performed hpasses⟩
  | case7 own shared action rest fault failed =>
      obtain ⟨_, rfl⟩ := Poll.failed.inj h
      exact ⟨[], own, _, .stop ..⟩
  | _ => simp at h

theorem Passes.map_append (h : Passes own shared steps passed own' shared' rest) :
    passed.map Prod.snd ++ rest = steps := by
  induction h with
  | stop => rfl
  | act _ _ ih => rw [List.map_cons, List.cons_append, ih]
  | receive _ _ ih => rw [List.map_cons, List.cons_append, ih]

theorem receive_follows (bind : Option String) (id : Identifier) (own : Local)
    (shared : Shared) : (receive bind id own shared).1.Follows own :=
  (Local.follows_bindTo _ bind id).trans ⟨rfl, rfl, rfl, rfl⟩

theorem Passes.follows (h : Passes own shared steps passed own' shared' rest) :
    own'.Follows own := by
  induction h with
  | stop => exact .refl _
  | act performed _ ih => exact ih.trans (Action.perform_eq_ok_iff.mp performed).follows
  | receive _ _ ih => exact ih.trans (receive_follows ..)

/-- No variable becomes visible while a routine is polled. -/
theorem Passes.published (h : Passes own shared steps passed own' shared' rest) :
    shared'.published = shared.published := by
  induction h with
  | stop => rfl
  | act performed _ ih => exact ih.trans (Action.perform_eq_ok_iff.mp performed).published
  | receive _ _ ih => exact ih

theorem Waits.follows {step : Step} {pause : Pause}
    (h : Waits own shared step pause own' shared') : own'.Follows own := by
  cases h <;> exact ⟨rfl, rfl, rfl, rfl⟩

theorem Waits.published {step : Step} {pause : Pause}
    (h : Waits own shared step pause own' shared') : shared'.published = shared.published := by
  cases h <;> rfl

end Step

end Firmware
