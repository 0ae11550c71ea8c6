import Lash.Liblash.Client
import Lash.State

/-!
# Signals to a client

The signals of the control interface, as `lashd/dbus_iface_control.c` and
`project_set_modified_status` emit them, the match rules that a client adds in `lash_client_open`
and `lash_dbus_signal_handler` of `liblash/lash.c`, which gets what they let through.
-/

namespace Lash

/-! ## Signals of the daemon -/

/-- A signal of the interface `org.nongnu.LASH.Control`. -/
structure SignalMessage where
  member : CStr
  args : List Value

/-- The signals of that interface that the daemon emits. -/
inductive ControlSignal where
  | projectAppeared (name path : DbusString)
  | projectDisappeared (name : DbusString)
  | projectNameChanged (old new : DbusString)
  | projectPathChanged (name path : DbusString)
  | projectDescriptionChanged (name description : DbusString)
  | projectNotesChanged (name notes : DbusString)
  | projectModifiedStatusChanged (name : DbusString) (value : Bool)
  | projectSaved (name : DbusString)
  | projectLoaded (name : DbusString)
  | clientAppeared (id project name : DbusString)
  | clientDisappeared (id project : DbusString)
  | clientNameChanged (id name : DbusString)
  | progress (percentage : UInt8)
  deriving DecidableEq

/-- The message of a signal. -/
def ControlSignal.message : ControlSignal → SignalMessage
  | .projectAppeared name path => ⟨cstr "ProjectAppeared", [.string name, .string path]⟩
  | .projectDisappeared name => ⟨cstr "ProjectDisappeared", [.string name]⟩
  | .projectNameChanged old new => ⟨cstr "ProjectNameChanged", [.string old, .string new]⟩
  | .projectPathChanged name path => ⟨cstr "ProjectPathChanged", [.string name, .string path]⟩
  | .projectDescriptionChanged name d =>
    ⟨cstr "ProjectDescriptionChanged", [.string name, .string d]⟩
  | .projectNotesChanged name notes => ⟨cstr "ProjectNotesChanged", [.string name, .string notes]⟩
  | .projectModifiedStatusChanged name b =>
    ⟨cstr "ProjectModifiedStatusChanged", [.string name, .bool b]⟩
  | .projectSaved name => ⟨cstr "ProjectSaved", [.string name]⟩
  | .projectLoaded name => ⟨cstr "ProjectLoaded", [.string name]⟩
  | .clientAppeared id project name =>
    ⟨cstr "ClientAppeared", [.string id, .string project, .string name]⟩
  | .clientDisappeared id project => ⟨cstr "ClientDisappeared", [.string id, .string project]⟩
  | .clientNameChanged id name => ⟨cstr "ClientNameChanged", [.string id, .string name]⟩
  | .progress x => ⟨cstr "Progress", [.byte x]⟩

/-- The control signal that the daemon emits in an event, if it is one and the bus accepts its
strings. -/
def Event.controlSignal : Event → Option ControlSignal
  | .progress _ x => some (.progress x.toUInt8)
  | .projectSaved _ n => (toDbusString n).map .projectSaved
  | .projectLoaded _ n => (toDbusString n).map .projectLoaded
  | .projectModifiedStatusChanged _ n b =>
    (toDbusString n).map (fun n => .projectModifiedStatusChanged n b)
  | .projectAppeared _ n p => do some (.projectAppeared (← toDbusString n) (← toDbusString p))
  | .projectDisappeared _ n => (toDbusString n).map .projectDisappeared
  | .projectNameChanged _ old new => do
    some (.projectNameChanged (← toDbusString old) (← toDbusString new))
  | .projectPathChanged _ n p => do some (.projectPathChanged (← toDbusString n) (← toDbusString p))
  | .projectDescriptionChanged _ n d => do
    some (.projectDescriptionChanged (← toDbusString n) (← toDbusString d))
  | .projectNotesChanged _ n t => do
    some (.projectNotesChanged (← toDbusString n) (← toDbusString t))
  | .clientAppeared _ id p n => do
    some (.clientAppeared (← toDbusString id) (← toDbusString p) (← toDbusString n))
  | .clientDisappeared _ id p => do some (.clientDisappeared (← toDbusString id) (← toDbusString p))
  | _ => none

/-! ## Opening a client -/

abbrev flagServerInterface : Flags := 0x00000004

/-- The reply to `Connect`. -/
structure ConnectReply where
  id : DbusString
  name : DbusString
  project : DbusString
  dataPath : DbusString
  flags : Flags
  workingDir : DbusString

/-- `lash_dbus_service_connect_handler`; without a reply there was an error. -/
def lashDbusServiceConnectHandler (c : LashClient) : Option ConnectReply → LashClient
  | none => c
  | some r =>
    match uuidParse r.id.1 with
    | none => c
    | some id => { c with
        id := id
        name := nonempty r.name.1
        projectName := nonempty r.project.1
        dataPath := nonempty r.dataPath.1
        flags := r.flags
        workingDir := r.workingDir.1
        serverConnected := true }

/-- `lash_client_open` -/
def lashClientOpen (flags : Flags) (wd : CStr) (reply : Option ConnectReply) : LashClient :=
  let c := lashDbusServiceConnectHandler (lashClientNew flags wd) reply
  if c.flags &&& flagServerInterface ≠ 0 then
    { c with flags := c.flags ^^^ flagServerInterface, isController := 2 }
  else c

/-- The match rules of a client: every control signal for one that is a controller, else only
`ProjectNameChanged`. -/
def LashClient.listens (c : LashClient) (m : SignalMessage) : Bool :=
  c.isController ≠ 0 || m.member = cstr "ProjectNameChanged"

/-! ## Handlers -/

/-- The client's project has a name; NULL has the empty one. -/
def LashClient.inProject (c : LashClient) (name : CStr) : Bool :=
  match c.projectName with
  | some p => p = name
  | none => name = []

/-- `lash_project_name_changed_handler` -/
def lashProjectNameChangedHandler (env : LiblashEnv) (c : LashClient) (m : SignalMessage) :
    Option LashClient :=
  match getString2 m.args with
  | none => some c
  | some (old, new) =>
    if c.inProject old then
      notify env { c with projectName := nonempty new } c.api.cb.proj
    else some c

/-- The arguments that `lash_control_signal_handler` reads: a project; two strings; a client and a
string; a client and a byte; a byte. -/
inductive ControlShape where
  | project
  | strings
  | clientString
  | clientByte
  | byte

/-- The signals that `lash_control_signal_handler` knows. -/
def controlSignals : List (CStr × ControlShape × ControlEventType) := [
  (cstr "ProjectDisappeared", .project, .projectRemove),
  (cstr "ProjectAppeared", .strings, .projectAdd),
  (cstr "ProjectNameChanged", .strings, .projectName),
  (cstr "ProjectPathChanged", .strings, .projectDir),
  (cstr "ClientAppeared", .clientString, .clientAdd),
  (cstr "ClientDisappeared", .clientString, .clientRemove),
  (cstr "ClientNameChanged", .clientString, .clientName),
  (cstr "ClientJackNameChanged", .clientString, .jackClientName),
  (cstr "ClientAlsaIdChanged", .clientByte, .alsaClientId),
  (cstr "Progress", .byte, .percentage)]

/-- A byte as a string. -/
def byteString (b : UInt8) : CStr := if b = 0 then [] else [b]

/-- The arguments for the control callback. -/
def readControlEvent (type : ControlEventType) : ControlShape → List Value → Option ControlEvent
  | .project, .string s :: _ => some ⟨type, s.1, [], 0⟩
  | .strings, .string s :: .string t :: _ => some ⟨type, s.1, t.1, 0⟩
  | .clientString, .string s :: .string t :: _ =>
    (uuidParse s.1).map (fun id => ⟨type, t.1, t.1, id⟩)
  | .clientByte, .string s :: .byte b :: _ =>
    (uuidParse s.1).map (fun id => ⟨type, byteString b, byteString b, id⟩)
  | .byte, .byte b :: _ => some ⟨type, byteString b, [], 0⟩
  | _, _ => none

/-- `lash_control_signal_handler` -/
def lashControlSignalHandler (env : LiblashEnv) (c : LashClient) (m : SignalMessage) :
    Option LashClient :=
  match c.api.cb.control with
  | none => some c
  | some f =>
    match controlSignals.find? (fun x => x.1 = m.member) with
    | none => some c
    | some (_, shape, type) =>
      match readControlEvent type shape m.args with
      | none => some c
      | some e => (env.control f e c).map c.withApi

/-- `lash_dbus_signal_handler` for a signal of the control interface. -/
def lashDbusSignalHandler (env : LiblashEnv) (c : LashClient) (m : SignalMessage) :
    Option LashClient :=
  if c.isController ≠ 1 then
    match lashProjectNameChangedHandler env c m with
    | none => none
    | some c => if c.isController ≠ 0 then lashControlSignalHandler env c m else some c
  else lashControlSignalHandler env c m

/-- A signal arrives at the bus: the client gets it if it listens to it. -/
def LashClient.deliver (env : LiblashEnv) (c : LashClient) (m : SignalMessage) :
    Option LashClient :=
  if c.listens m then lashDbusSignalHandler env c m else some c

end Lash
