import Lash.Dbus

/-!
# The client library: clients

`liblash/client.h` and the task functions of `liblash/dbus_iface_client.c` that a method or a signal
starts, with the queues that the old API reads (`LASH_OLD_API`).

The functions of the application are behind the callbacks. A callback does as it likes with what the
functions of the library can change, `ClientApi`; it may also end the process.
-/

namespace Lash

/-! ## Clients -/

/-- A pointer to a function of the application. -/
abbrev FunPtr := Nat

/-- The callbacks of a client; NULL where none is registered. -/
structure Callbacks where
  trysave : Option FunPtr
  save : Option FunPtr
  load : Option FunPtr
  quit : Option FunPtr
  name : Option FunPtr
  proj : Option FunPtr
  path : Option FunPtr
  saveDataSet : Option FunPtr
  loadDataSet : Option FunPtr
  control : Option FunPtr

/-- The type of an event for a controller. -/
inductive ControlEventType where
  | projectAdd
  | projectRemove
  | projectDir
  | projectName
  | clientAdd
  | clientRemove
  | clientName
  | jackClientName
  | alsaClientId
  | percentage

/-- The arguments of a control callback. -/
structure ControlEvent where
  type : ControlEventType
  string1 : CStr
  string2 : CStr
  clientId : Uuid

/-- An event of the old API. -/
inductive LashEvent where
  | saveFile (dataPath : Option CStr)
  | restoreFile (dataPath : Option CStr)
  | saveDataSet
  | restoreDataSet
  | quit

/-- A config of the old API. -/
structure LashConfig where
  key : CStr
  value : List UInt8

/-- A method call that the library sends to the daemon. -/
inductive SentCall where
  | waitForSave
  | progress (task : Nat) (x : UInt8)
  | commitPathChange

/-- The part of a client that an application changes through the functions of the library. -/
structure ClientApi where
  cb : Callbacks
  pendingTask : Nat
  eventsIn : List LashEvent
  configsIn : List LashConfig
  sent : List SentCall

/-- `lash_client_t` -/
structure LashClient where
  id : Uuid
  name : Option CStr
  projectName : Option CStr
  /-- 0 for a plain client, 1 for a controller, 2 for a client that is both. -/
  isController : UInt8
  workingDir : CStr
  flags : Flags
  taskProgress : Nat
  serverConnected : Bool
  dataPath : Option CStr
  api : ClientApi

/-- `lash_client_new_with_service` and what `lash_client_open` sets before it connects. -/
def lashClientNew (flags : Flags) (wd : CStr) : LashClient where
  id := 0
  name := none
  projectName := none
  isController := 0
  workingDir := wd
  flags := flags
  taskProgress := 0
  serverConnected := false
  dataPath := none
  api := {
    cb := ⟨none, none, none, none, none, none, none, none, none, none⟩
    pendingTask := 0
    eventsIn := []
    configsIn := []
    sent := [] }

/-- What the build, the application and the daemon decide for a client. -/
structure LiblashEnv where
  /-- `LASH_OLD_API` -/
  oldApi : Bool
  /-- An event callback: what it returns, unless it ends the process. -/
  event : FunPtr → LashClient → Option (Bool × ClientApi)
  /-- A callback that reads a data set. -/
  config : FunPtr → List ArrayElem → LashClient → Option (Bool × ClientApi)
  /-- The callback of a controller. -/
  control : FunPtr → ControlEvent → LashClient → Option ClientApi
  /-- What the bus library says about arguments of the wrong types. -/
  why : CStr
  /-- The string in the daemon's reply to `CommitPathChange`, unless that is an error. -/
  newPath : Option CStr

namespace LashClient

def withApi (c : LashClient) (api : ClientApi) : LashClient := { c with api := api }

/-- A method call to the daemon. -/
def send (c : LashClient) (m : SentCall) : LashClient :=
  { c with api.sent := c.api.sent ++ [m] }

def setPendingTask (c : LashClient) (task : Nat) : LashClient :=
  { c with api.pendingTask := task }

/-- `lash_client_add_event` -/
def addEvent (c : LashClient) (e : LashEvent) : LashClient :=
  { c with api.eventsIn := c.api.eventsIn ++ [e] }

/-- `lash_client_add_config` -/
def addConfig (c : LashClient) (g : LashConfig) : LashClient :=
  { c with api.configsIn := c.api.configsIn ++ [g] }

/-- A task begins. -/
def beginTask (c : LashClient) (task : Nat) : LashClient :=
  { c.setPendingTask task with taskProgress := 0 }

end LashClient

/-- `lash_strset` after an empty string was made NULL. -/
def nonempty (s : CStr) : Option CStr := if s = [] then none else some s

/-! ## Reading a data set -/

/-- `lash_config_read` for an entry: the size and the value, or nothing where it returns -1. Numbers
are decoded: their bytes end up the other way around. -/
def lashConfigRead (elem : ArrayElem) : Option (Nat × LashConfig) :=
  match methodIterGetDictEntry elem with
  | none => none
  | some (key, value, type) =>
    if type = typeDouble ∨ type = typeInteger then some (value.length, ⟨key, value.reverse⟩)
    else if type = typeString then
      if value.length - 1 < 1 then none else some (value.length - 1, ⟨key, value⟩)
    else if type = typeRaw then some (value.length, ⟨key, value⟩)
    else none

/-- The loop of `lash_dbus_load_data_set` for the old API: whether every entry could be read, and
the client with their configs. A size of 0 ends the loop like the end of the data. -/
def readConfigs (c : LashClient) : List ArrayElem → Bool × LashClient
  | [] => (true, c)
  | elem :: elems =>
    match lashConfigRead elem with
    | none => (false, c)
    | some (size, config) =>
      if size = 0 then (true, c) else readConfigs (c.addConfig config) elems

/-! ## Tasks -/

/-- `report_success_or_failure` -/
def reportSuccessOrFailure (c : LashClient) (success : Bool) : LashClient :=
  if c.api.pendingTask = 0 then c
  else c.send (.progress c.api.pendingTask (if success then 255 else 0))

/-- A callback was called for a task: report what it returned. -/
def taskCalled (c : LashClient) : Option (Bool × ClientApi) → Option LashClient
  | none => none
  | some (ok, api) => some ((reportSuccessOrFailure (c.withApi api) ok).setPendingTask 0)

/-- `lash_new_save_task` -/
def lashNewSaveTask (env : LiblashEnv) (c : LashClient) (task : Nat) : Option LashClient :=
  let c := c.beginTask task
  match c.api.cb.save with
  | some f => taskCalled c (env.event f c)
  | none => some (if env.oldApi then c.addEvent (.saveFile c.dataPath) else c)

/-- Tell the application that something changed, if it asked for that. -/
def notify (env : LiblashEnv) (c : LashClient) : Option FunPtr → Option LashClient
  | none => some c
  | some f => (env.event f c).map (fun r => c.withApi r.2)

/-- `lash_new_quit_task` -/
def lashNewQuitTask (env : LiblashEnv) (c : LashClient) : Option LashClient :=
  match c.api.cb.quit with
  | some f => notify env c (some f)
  | none => some (if env.oldApi then c.addEvent .quit else c)

end Lash
