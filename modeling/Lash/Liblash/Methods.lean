import Lash.Liblash.Client

/-!
# The methods of the client library

The D-Bus methods of `liblash/dbus_iface_client.c`, behind the object path of
`liblash/dbus_service.c`. `Save`, `Load`, `LoadDataSet` and `Quit` return to the daemon before
they call the application.
-/

namespace Lash

def unfinishedTask (parts : List CStr) (call : MethodCall LashClient) : MethodCall LashClient :=
  call.lashDbusError unfinishedTaskError parts

namespace MethodCall

/-- The client goes on, unless its process ended. -/
def goes (call : MethodCall LashClient) : Option LashClient → Handled LashClient
  | none => call.ends
  | some c => .ok (call.withState c)

/-- The void return that is sent "to avoid possible timeout". -/
def returnsEarly (call : MethodCall LashClient) : MethodCall LashClient :=
  call.methodReturnNewVoid.methodReturnSend

end MethodCall

/-- `get_task_id`: the task and the arguments after it, or the call with an error. -/
def getTaskId (call : MethodCall LashClient) : Except (MethodCall LashClient) (Nat × List Value) :=
  match call.message.args with
  | .uint64 task :: args =>
    if call.state.api.pendingTask ≠ 0 then
      .error (unfinishedTask [cstr "Task ", decimal call.state.api.pendingTask,
        cstr " is unfinished, bouncing task ", decimal task] call)
    else .ok (task, args)
  | _ => .error (call.lashDbusError invalidArgsError [cstr "Invalid arguments to method \"",
      call.message.member, cstr "\": Cannot find task ID in message"])

def lashDbusSave (env : LiblashEnv) : Handler LashClient := fun call =>
  match getTaskId call with
  | .error call => .ok call
  | .ok (task, _) => call.returnsEarly.goes (lashNewSaveTask env call.state task)

def lashDbusLoad (env : LiblashEnv) : Handler LashClient := fun call =>
  match getTaskId call with
  | .error call => .ok call
  | .ok (task, .string path :: _) =>
    let c := { call.state with dataPath := some path.1 }.beginTask task
    match c.api.cb.load with
    | some f => call.returnsEarly.goes (taskCalled c (env.event f c))
    | none =>
      if env.oldApi then .ok (call.withState (c.addEvent (.restoreFile c.dataPath)))
      else .ok ((call.withState (c.setPendingTask 0)).lashDbusError genericError
        [cstr "Load callback not registered"])
  | .ok _ => .ok (call.lashDbusError invalidArgsError [cstr "Invalid arguments to method \"",
      call.message.member, cstr "\": Cannot find data path in message"])

/-- The elements of an array argument. -/
def Value.elems : Value → Option (List ArrayElem)
  | .array elems => some elems
  | .strings l => some (l.map (fun _ => .other))
  | _ => none

def lashDbusLoadDataSet (env : LiblashEnv) : Handler LashClient := fun call =>
  match getTaskId call with
  | .error call => .ok call
  | .ok (task, args) =>
    match args.head?.bind Value.elems with
    | none => .ok (call.lashDbusError invalidArgsError [cstr "Invalid arguments to method \"",
        call.message.member, cstr "\": Cannot find data set array in message"])
    | some elems =>
      let c := call.state.beginTask task
      match c.api.cb.loadDataSet with
      | some f => call.returnsEarly.goes (taskCalled c (env.config f elems c))
      | none =>
        if env.oldApi then
          let (ok, c) := readConfigs (c.addEvent .restoreDataSet) elems
          if ok then .ok (call.withState c)
          else .ok ((call.withState c).lashDbusError genericError [cstr "Failed to read data set"])
        else .ok ((call.withState (c.setPendingTask 0)).lashDbusError genericError
          [cstr "LoadDataSet callback not registered"])

def lashDbusQuit (env : LiblashEnv) : Handler LashClient := fun call =>
  call.returnsEarly.goes (lashNewQuitTask env call.state)

def lashDbusTrySave (env : LiblashEnv) : Handler LashClient := fun call =>
  if call.state.api.pendingTask ≠ 0 then
    .ok (unfinishedTask [cstr "Cannot save now; task ", decimal call.state.api.pendingTask,
      cstr " is unfinished"] call)
  else
    match call.state.api.cb.trysave with
    | none => .ok (call.lashDbusError genericError [cstr "TrySave callback not registered"])
    | some f =>
      match env.event f call.state with
      | none => call.ends
      | some (ok, api) =>
        let c := call.state.withApi api
        .ok ((call.withState (if ok then c.send .waitForSave else c)).methodReturnNewSingle
          (some (.bool ok)))

/-- `lash_dbus_path_change_handler` -/
def lashDbusPathChangeHandler (c : LashClient) : Option CStr → LashClient
  | none => c
  | some path => if path = [] then c else { c with dataPath := some path }

def lashDbusTryPathChange (env : LiblashEnv) : Handler LashClient := fun call =>
  if call.state.api.pendingTask ≠ 0 then
    .ok (unfinishedTask [cstr "Cannot change path now; task ", decimal call.state.api.pendingTask,
      cstr " is unfinished"] call)
  else
    match call.state.api.cb.path with
    | none => .ok (call.lashDbusError genericError [cstr "Path change callback not registered"])
    | some f =>
      match env.event f call.state with
      | none => call.ends
      | some (ok, api) =>
        let c := call.state.withApi api
        let c := if ok then lashDbusPathChangeHandler (c.send .commitPathChange) env.newPath else c
        .ok ((call.withState c).methodReturnNewSingle (some (.bool ok)))

def lashDbusClientNameChanged (env : LiblashEnv) : Handler LashClient := fun call =>
  match call.message.args with
  | .string new :: _ =>
    let c := { call.state with name := nonempty new.1 }
    call.goes (notify env c c.api.cb.name)
  | _ => .ok (call.invalidArgumentsBecause env.why)

def liblashInterfaceClient (env : LiblashEnv) : Interface LashClient where
  name := cstr "org.nongnu.LASH.Client"
  methods := [
    ⟨cstr "Save", some (lashDbusSave env)⟩,
    ⟨cstr "Load", some (lashDbusLoad env)⟩,
    ⟨cstr "LoadDataSet", some (lashDbusLoadDataSet env)⟩,
    ⟨cstr "Quit", some (lashDbusQuit env)⟩,
    ⟨cstr "TrySave", some (lashDbusTrySave env)⟩,
    ⟨cstr "TryPathChange", some (lashDbusTryPathChange env)⟩,
    ⟨cstr "ClientNameChanged", some (lashDbusClientNameChanged env)⟩]

/-- The object path of a client. -/
def liblashPath (env : LiblashEnv) (introspection : DbusString) : ObjectPath LashClient where
  introspection := introspection
  interfaces := [liblashInterfaceClient env]

end Lash
