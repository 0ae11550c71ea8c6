import Lash.Liblash.Signals
import Lash.Operations
import Lash.Commit

/-!
# Controllers

A controller is a client of the library that shows the user what the daemon has and tells the
daemon what the user wants. It hears every signal of the control interface, through the callback it
has set, and it sends requests, the `lash_control_` functions of `liblash/lash.c`.
-/

namespace Lash

/-! ## What a controller hears -/

/-- The event that a signal is for a controller, if it is one. -/
def controlEvent (m : SignalMessage) : Option ControlEvent :=
  (controlSignals.find? (fun x => x.1 = m.member)).bind
    (fun x => readControlEvent x.2.2 x.2.1 m.args)

/-- The event that a signal of the daemon is. -/
def ControlSignal.event : ControlSignal → Option ControlEvent
  | .projectAppeared name path => some ⟨.projectAdd, name.1, path.1, 0⟩
  | .projectDisappeared name => some ⟨.projectRemove, name.1, [], 0⟩
  | .projectNameChanged old new => some ⟨.projectName, old.1, new.1, 0⟩
  | .projectPathChanged name path => some ⟨.projectDir, name.1, path.1, 0⟩
  | .clientAppeared id project _ =>
    (uuidParse id.1).map (fun id => ⟨.clientAdd, project.1, project.1, id⟩)
  | .clientDisappeared id project =>
    (uuidParse id.1).map (fun id => ⟨.clientRemove, project.1, project.1, id⟩)
  | .clientNameChanged id name =>
    (uuidParse id.1).map (fun id => ⟨.clientName, name.1, name.1, id⟩)
  | .progress x => some ⟨.percentage, byteString x, [], 0⟩
  | _ => none

theorem controlEvent_message (x : ControlSignal) : controlEvent x.message = x.event := by
  cases x <;> rfl

/-- **A controller hears every signal**: the callback is called with the event of the signal, once,
and with nothing else. -/
theorem controller_hears (env : LiblashEnv) {c : LashClient} {f : FunPtr} (m : SignalMessage)
    (hcontroller : c.isController = 1) (hf : c.api.cb.control = some f) :
    c.deliver env m = match controlEvent m with
      | none => some c
      | some e => (env.control f e c).map c.withApi := by
  have hlistens : c.listens m = true := by
    unfold LashClient.listens
    rw [hcontroller]
    rfl
  unfold LashClient.deliver
  rw [if_pos hlistens]
  unfold lashDbusSignalHandler lashControlSignalHandler
  rw [if_neg (not_not.mpr hcontroller), hf, controlEvent]
  cases controlSignals.find? (fun x => x.1 = m.member) with
  | none => rfl
  | some x =>
      obtain ⟨member, shape, type⟩ := x
      cases hread : readControlEvent type shape m.args with
      | none => simp only [Option.bind_some, hread]
      | some e => simp only [Option.bind_some, hread]

/-! ## What it sends -/

/-- A request of a controller. -/
inductive ControlRequest where
  | loadProjectPath (path : DbusString)
  | projectRename (project new : DbusString)
  | projectMove (project path : DbusString)
  | projectSave (project : DbusString)
  | projectClose (project : DbusString)
  deriving DecidableEq

/-- A call to the control interface. -/
def controlCall (member signature : CStr) (args : List Value) : CallMessage where
  sender := none
  interface := some (cstr "org.nongnu.LASH.Control")
  member := member
  signature := signature
  args := args

namespace ControlRequest

/-- The call that carries a request. -/
def message : ControlRequest → CallMessage
  | .loadProjectPath path => controlCall (cstr "LoadProjectPath") (cstr "s") [.string path]
  | .projectRename project new =>
    controlCall (cstr "ProjectRename") (cstr "ss") [.string project, .string new]
  | .projectMove project path =>
    controlCall (cstr "ProjectMove") (cstr "ss") [.string project, .string path]
  | .projectSave project => controlCall (cstr "ProjectSave") (cstr "s") [.string project]
  | .projectClose project => controlCall (cstr "ProjectClose") (cstr "s") [.string project]

/-- What the daemon is asked for. -/
def input : ControlRequest → Input
  | .loadProjectPath path => .loadProjectPath path.1
  | .projectRename project new => .projectRename project.1 new.1
  | .projectMove project path => .projectMove project.1 path.1
  | .projectSave project => .projectSave project.1
  | .projectClose project => .projectClose project.1

/-- The project that a request is about. -/
def project : ControlRequest → Option CStr
  | .loadProjectPath _ => none
  | .projectRename name _ | .projectMove name _ | .projectSave name | .projectClose name =>
    some name.1

/-- A request reaches the daemon as what it asks for. -/
theorem inputs (env : LashdEnv) (l : Lashd) (r : ControlRequest) :
    l.inputs env r.message = [r.input] := by
  cases r <;> rfl

end ControlRequest

/-- A request with one string; nothing is sent if the bus does not accept it. -/
def controlRequest (f : DbusString → ControlRequest) (s : CStr) : Option ControlRequest :=
  (toDbusString s).map f

/-- A request with two strings. -/
def controlRequest2 (f : DbusString → DbusString → ControlRequest) (s t : CStr) :
    Option ControlRequest := do
  some (f (← toDbusString s) (← toDbusString t))

theorem controlRequest_some {f : DbusString → ControlRequest} {s : CStr} {r : ControlRequest}
    (h : controlRequest f s = some r) : ∃ n : DbusString, n.1 = s ∧ r = f n := by
  obtain ⟨n, hn, rfl⟩ := Option.map_eq_some_iff.mp h
  exact ⟨n, toDbusString_some hn, rfl⟩

theorem controlRequest2_some {f : DbusString → DbusString → ControlRequest} {s t : CStr}
    {r : ControlRequest} (h : controlRequest2 f s t = some r) :
    ∃ n m : DbusString, n.1 = s ∧ m.1 = t ∧ r = f n m := by
  obtain ⟨n, hn, h⟩ := Option.bind_eq_some_iff.mp h
  obtain ⟨m, hm, h⟩ := Option.bind_eq_some_iff.mp h
  exact ⟨n, m, toDbusString_some hn, toDbusString_some hm, (Option.some.inj h).symm⟩

/-- `lash_control_load_project_path` -/
def lashControlLoadProjectPath (path : CStr) : Option ControlRequest :=
  controlRequest .loadProjectPath path

/-- `lash_control_name_project` -/
def lashControlNameProject (name new : CStr) : Option ControlRequest :=
  controlRequest2 .projectRename name new

/-- `lash_control_move_project` -/
def lashControlMoveProject (name path : CStr) : Option ControlRequest :=
  controlRequest2 .projectMove name path

/-- `lash_control_save_project` -/
def lashControlSaveProject (name : CStr) : Option ControlRequest :=
  controlRequest .projectSave name

/-- `lash_control_close_project` -/
def lashControlCloseProject (name : CStr) : Option ControlRequest :=
  controlRequest .projectClose name

end Lash
