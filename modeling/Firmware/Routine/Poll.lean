import Firmware.Routine.State
/-!
Polls of a routine: what its steps do up to the point where it has to wait, and how
it goes on from there.  Which routine is polled when is decided elsewhere.
-/

namespace Firmware

/-- A point where a routine waits.  Either it awaits a variable, or it was
suspended by itself, and then counts as waiting for the name it was last found
waiting for. -/
inductive Pause
  | awaiting (name : String) (bind : Option String)
  | yielded (name : String)
deriving DecidableEq, Repr

/-- The variable whose publication ends a pause. -/
def Pause.name : Pause → String
  | .awaiting name _ => name
  | .yielded name => name

inductive Poll
  | ended (own : Local) (shared : Shared)
  | failed (failure : Failure) (shared : Shared)
  | paused (pause : Pause) (rest : List Step) (own : Local) (shared : Shared)

def Action.perform (own : Local) (shared : Shared) :
    Action → Except RoutineFault (Local × Shared)
  | .comment text => .ok (own, { shared with code := shared.code.add (.comment text) })
  | .header name => .ok (own, { shared with code := shared.code.addHeader name })
  | .allocate base type bind =>
      let (id, names) := shared.names.allocate base type true
      .ok (own.bindTo bind id, { shared with names := names })
  | .declare subject args => do
      let id ← own.identifier subject
      let args ← Term.expressions own args
      .ok ({ own with declared := own.declared ++ [id] },
        { shared with code := shared.code.declare id args })
  | .peek name =>
      let found := Table.contains shared.published name
      .ok ({ own with mark := if found then none else some name },
        own.record (.peeked name found) shared)
  | .add term => do
      let expression ← term.expression own
      .ok (own, { shared with code := shared.code.add (.expression expression) })
  | .assign target term => do
      let expression ← term.expression own
      .ok (own, { shared with code := shared.code.add (.assignment target expression) })
  | .global type name isPointer =>
      .ok (own, { shared with code := shared.code.addGlobal ⟨type, name, isPointer⟩ })
  | .register subject => do
      let id ← own.identifier subject
      let fresh := !shared.code.isRegistered id.name
      .ok (own, own.record (.registered id.name fresh)
        { shared with code := shared.code.register id })
  | .fail text => .error (.raised text)

namespace Step

def receive (bind : Option String) (id : Identifier) (own : Local) (shared : Shared) :
    Local × Shared :=
  ({ own with mark := none }.bindTo bind id, own.record (.got id) shared)

/-- Runs steps until they end, fail or have to wait. -/
def run (own : Local) (shared : Shared) : List Step → Poll
  | [] => .ended own (own.record .ended shared)
  | .await name bind :: rest =>
      let shared := own.record (.waits name) shared
      match Table.get? shared.published name with
      | some id =>
          let (own, shared) := receive bind id own shared
          run own shared rest
      | none => .paused (.awaiting name bind) rest { own with mark := some name } shared
  | .suspend :: rest =>
      match own.mark with
      | some name => .paused (.yielded name) rest own shared
      | none => .failed (own.failure .idleSuspension) shared
  | .act action :: rest =>
      match action.perform own shared with
      | .ok (own, shared) => run own shared rest
      | .error fault => .failed (own.failure fault) shared

/-- Goes on after a pause, once the variable it waits for is visible. -/
def resume (pause : Pause) (id : Identifier) (own : Local) (shared : Shared)
    (rest : List Step) : Poll :=
  match pause with
  | .awaiting _ bind =>
      let (own, shared) := receive bind id own shared
      run own shared rest
  | .yielded _ => run own (own.record .resumed shared) rest

theorem length_lt_of_run_eq_paused {steps rest : List Step} {own own' : Local}
    {shared shared' : Shared} {pause : Pause}
    (h : run own shared steps = .paused pause rest own' shared') :
    rest.length < steps.length := by
  fun_induction run own shared steps with
  | case1 => simp at h
  | case2 => simp_all +zetaDelta; omega
  | case3 => simp_all
  | case4 => simp_all
  | case5 => simp at h
  | case6 => simp_all; omega
  | case7 => simp at h

end Step

end Firmware
