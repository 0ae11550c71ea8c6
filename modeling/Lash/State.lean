import Lash.Message
import Lash.Lib.Keyed

/-!
# The state of the daemon

The structures of `lashd/client.h`, `lashd/project.h` and `lashd/server.h`. A project owns its two
client lists, so a client is a value in one of them; `addr` stands for the address of the C
structure, which is how a function that was handed a client finds it again (`Project.put`).

`Globals` is what every function may touch: the task counter, the disk, the children of the loader
and the record of what the daemon did (`log`).
-/

namespace Lash

/-- The address of a client or project structure. -/
abbrev Addr := Nat

/-! ## Clients -/

structure Client where
  addr : Addr
  id : Uuid
  /-- Empty until the id is known. -/
  idStr : CStr
  pid : Int
  flags : Flags
  cls : Option CStr
  workingDir : Option CStr
  dataPath : Option CStr
  /-- There are none until the first is read. -/
  argv : Option (List CStr)
  dbusName : Option CStr
  name : Option CStr
  store : Option Store
  /-- 0 when there is none. -/
  pendingTask : Nat
  taskType : EventType
  taskProgress : Nat
  dependencies : List Uuid
  unsatisfiedDeps : List Uuid

/-- `client_new` -/
def clientNew (addr : Addr) : Client where
  addr := addr
  id := 0
  idStr := []
  pid := 0
  flags := 0
  cls := none
  workingDir := none
  dataPath := none
  argv := none
  dbusName := none
  name := none
  store := none
  pendingTask := 0
  taskType := .unknown
  taskProgress := 0
  dependencies := []
  unsatisfiedDeps := []

/-- `CLIENT_CONFIG_DATA_SET` -/
def configDataSet (f : Flags) : Bool := f &&& flagConfigDataSet != 0
/-- `CLIENT_CONFIG_FILE` -/
def configFile (f : Flags) : Bool := f &&& flagConfigFile != 0
/-- `CLIENT_HAS_INTERNAL_STATE` -/
def hasInternalState (f : Flags) : Bool := f &&& (flagConfigDataSet ||| flagConfigFile) != 0
/-- `CLIENT_TERMINAL` -/
def isTerminal (f : Flags) : Bool := f &&& flagTerminal != 0
/-- `CLIENT_SAVED` -/
def isSaved (f : Flags) : Bool := f &&& flagSaved != 0

/-- A lost client that connected again. -/
def Client.reconnect (c : Client) (sender : CStr) : Client :=
  { c with dbusName := some sender, flags := c.flags ||| flagRestored }

/-! ## Projects -/

structure Project where
  addr : Addr
  doc : Option XmlDoc
  name : CStr
  moveOnClose : Bool
  directory : CStr
  description : Option CStr
  notes : Option CStr
  modifiedStatus : Bool
  clients : List Client
  lostClients : List Client
  taskType : TaskType
  clientTasksTotal : Nat
  clientTasksPending : Nat
  /-- An `uint32_t`; between the subtraction and the addition of `project_client_progress` it can be
  negative, which there wraps around and back. -/
  clientTasksProgress : Int

/-- `project_new` -/
def projectNew (addr : Addr) : Project where
  addr := addr
  doc := none
  name := []
  moveOnClose := false
  directory := []
  description := none
  notes := none
  modifiedStatus := false
  clients := []
  lostClients := []
  taskType := .idle
  clientTasksTotal := 0
  clientTasksPending := 0
  clientTasksProgress := 0

/-- Write a client back to where it is in `clients`. -/
def putClient (c : Client) (l : List Client) : List Client := Keyed.put Client.addr c l

/-- `list_del(&client->siblings)` -/
def delClient (addr : Addr) (l : List Client) : List Client := Keyed.del Client.addr addr l

/-- Write a client back to where it is in `project->clients`. -/
def Project.put (p : Project) (c : Client) : Project := { p with clients := putClient c p.clients }

/-! ## What the daemon does

Signals and method calls it sends, and the calls of functions that the properties of the daemon are
about. Each entry names the project it concerns, which the message itself may not say. -/

inductive Event where
  /-- `Progress(percentage)` -/
  | progress (project : Addr) (percentage : Nat)
  /-- `ProjectSaved(name)`, sent by `project_clients_save_complete` and nothing else. -/
  | projectSaved (project : Addr) (name : CStr)
  /-- `ProjectLoaded(name)`, sent by `project_loaded` and nothing else. -/
  | projectLoaded (project : Addr) (name : CStr)
  | projectModifiedStatusChanged (project : Addr) (name : CStr) (value : Bool)
  | projectAppeared (project : Addr) (name path : CStr)
  | projectDisappeared (project : Addr) (name : CStr)
  | projectNameChanged (project : Addr) (old new : CStr)
  | projectPathChanged (project : Addr) (name path : CStr)
  | projectDescriptionChanged (project : Addr) (name description : CStr)
  | projectNotesChanged (project : Addr) (name notes : CStr)
  | clientAppeared (project : Addr) (id projectName name : CStr)
  | clientDisappeared (project : Addr) (id projectName : CStr)
  /-- The `Save` signal of a project, with the id of the task. -/
  | save (project : Addr) (name : CStr) (task : Nat)
  | quit (project : Addr) (name : CStr)
  /-- The `Load` call to a client. -/
  | load (project client : Addr) (dest : CStr) (task : Nat) (path : CStr)
  /-- The `LoadDataSet` call to a client. -/
  | loadDataSet (project client : Addr) (dest : CStr) (task : Nat) (configs : List Entry)
  /-- `Connect` gave the client this D-Bus name. -/
  | connected (project client : Addr) (dbusName : CStr)
  /-- `client_resume_project` was called. -/
  | resumed (project client : Addr)
  /-- `project_lose_client` was called. -/
  | lost (project client : Addr)
  /-- `project_launch_client` was called. -/
  | launched (project client : Addr)
  /-- `server_project_restore` took these clients from the project file. -/
  | restored (project : Addr) (clients : List Addr)
  /-- `project_save` began; these clients have an internal state. -/
  | saveBegun (project : Addr) (stateful : List Addr)
  /-- A client got a save task. -/
  | taskGiven (project client : Addr) (task : Nat)
  /-- `client_task_completed` was called. -/
  | taskCompleted (project client : Addr) (task : Nat) (type : EventType) (successful : Bool)
  /-- `project_client_task_completed` brought `client_tasks_pending` to zero during this task. -/
  | taskFinished (project : Addr) (task : TaskType)
  /-- `project_write_info` wrote the info file. -/
  | infoWritten (project : Addr)
  deriving DecidableEq

/-- The project an event concerns. -/
def Event.project : Event → Addr
  | .progress a _ | .projectSaved a _ | .projectLoaded a _ | .projectModifiedStatusChanged a _ _
  | .projectAppeared a _ _ | .projectDisappeared a _ | .projectNameChanged a _ _
  | .projectPathChanged a _ _ | .projectDescriptionChanged a _ _ | .projectNotesChanged a _ _
  | .clientAppeared a _ _ _ | .clientDisappeared a _ _ | .save a _ _ | .quit a _ | .load a _ _ _ _
  | .loadDataSet a _ _ _ _ | .connected a _ _ | .resumed a _ | .lost a _ | .launched a _
  | .restored a _ | .saveBegun a _ | .taskGiven a _ _ | .taskCompleted a _ _ _ _
  | .taskFinished a _ | .infoWritten a => a

/-! ## The server -/

/-- An entry of the loader's list of children. -/
structure Child where
  id : Uuid
  project : CStr
  argv0 : CStr
  dead : Bool
  pid : Int
  terminal : Bool
  deriving DecidableEq

structure Globals where
  taskIter : Nat
  projectsDir : CStr
  fs : Fs
  /-- What the coming calls of `fork` return; -1 when none is left. -/
  forks : List Int
  childs : List Child
  /-- The next free address. -/
  nextAddr : Addr
  log : List Event

/-- Record an event. -/
def Globals.emit (g : Globals) (e : Event) : Globals := { g with log := g.log ++ [e] }

structure Server where
  g : Globals
  project : Addr → Project
  loaded : List Addr
  all : List Addr

end Lash
