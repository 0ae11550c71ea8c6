import Lash.Bus

/-!
# Tasks as a protocol

A project has at most one task at a time, a save or a load, and counts the clients that still have
to report. This module states what the daemon does to one project as a protocol between a project
and its clients: `View` is all of a project that its tasks depend on, and `Move` lists the moves
that change it, each with the events it leaves in the log. Names, files and signals that are not
about tasks are left out.

That every step of the daemon is a move of each project is `Server.step_move`.
-/

namespace Lash

/-! ## Views -/

/-- A client, as far as tasks are concerned. -/
structure Job where
  addr : Addr
  id : Uuid
  pid : Int
  flags : Flags
  dbusName : Option CStr
  pendingTask : Nat
  taskType : EventType
  dependencies : List Uuid
  unsatisfiedDeps : List Uuid

def Client.job (c : Client) : Job where
  addr := c.addr
  id := c.id
  pid := c.pid
  flags := c.flags
  dbusName := c.dbusName
  pendingTask := c.pendingTask
  taskType := c.taskType
  dependencies := c.dependencies
  unsatisfiedDeps := c.unsatisfiedDeps

/-- A project, as far as its tasks are concerned. -/
structure View where
  loaded : Bool
  task : TaskType
  pending : Nat
  live : List Job
  lost : List Job

def Project.view (p : Project) (loaded : Bool) : View where
  loaded := loaded
  task := p.taskType
  pending := p.clientTasksPending
  live := p.clients.map Client.job
  lost := p.lostClients.map Client.job

def Server.view (s : Server) (a : Addr) : View := (s.project a).view (decide (a ∈ s.loaded))

namespace View

/-- All clients of a project. -/
def jobs (v : View) : List Job := v.live ++ v.lost

/-- No two clients are the same structure. -/
def Distinct (v : View) : Prop := (v.jobs.map Job.addr).Nodup

/-- Overwrite a live client. -/
def put (v : View) (c : Job) : View := { v with live := Keyed.put Job.addr c v.live }

/-- A live client is gone. -/
def drop (v : View) (c : Job) : View := { v with live := Keyed.del Job.addr c.addr v.live }

/-- A lost client is taken out of its list and is live again as `c`. -/
def revive (v : View) (c : Job) : View :=
  { v with lost := Keyed.del Job.addr c.addr v.lost, live := c :: v.live }

/-- One client less has to report; after the last one the project has no task. -/
def count (v : View) : View :=
  if v.pending = 0 then v
  else if v.pending = 1 then { v with pending := 0, task := .idle }
  else { v with pending := v.pending - 1 }

end View

/-! ## Events -/

/-- The events that the protocol is about. -/
def Event.isTask : Event → Bool
  | .projectSaved .. | .projectLoaded .. | .save .. | .load .. | .loadDataSet .. | .connected ..
  | .resumed .. | .lost .. | .launched .. | .restored .. | .saveBegun .. | .taskGiven ..
  | .taskCompleted .. | .taskFinished .. | .infoWritten .. => true
  | .projectModifiedStatusChanged _ _ status => !status
  | _ => false

/-- What a log says about the tasks of a project. -/
def tasks (a : Addr) (log : List Event) : List Event :=
  log.filter (fun e => e.project = a && e.isTask)

/-- The signals at the end of a task whose last client was at a task of a type: whether the info
file was written and whether the project was modified is not up to the protocol. -/
def finishEvents (a : Addr) (name : CStr) (written modified : Bool) (type : EventType) :
    List Event :=
  let cleared := if modified then [Event.projectModifiedStatusChanged a name false] else []
  match type with
  | .saveDataSet | .saveFile =>
    (if written then [Event.infoWritten a] else []) ++ .projectSaved a name :: cleared
  | .restoreFile | .restoreDataSet => .projectLoaded a name :: cleared
  | .unknown => []

/-- The events of `View.count`. -/
def View.countEvents (v : View) (a : Addr) (name : CStr) (written modified : Bool)
    (type : EventType) : List Event :=
  if v.pending = 1 then .taskFinished a v.task :: finishEvents a name written modified type else []

/-! ## Jobs -/

namespace Job

/-- What a new client, and one just read from a file, has to do: nothing. -/
structure Idle (c : Job) : Prop where
  pendingTask : c.pendingTask = 0
  taskType : c.taskType = .unknown

/-- A client that finished its task. -/
def done (c : Job) (flags : Flags) : Job :=
  { c with flags := flags, pendingTask := 0, taskType := .unknown }

/-- A client that connected again. -/
def reconnect (c : Job) (name : CStr) : Job :=
  { c with dbusName := some name, flags := c.flags ||| flagRestored }

/-- A client that got a task. -/
def give (c : Job) (task : Nat) (type : EventType) : Job :=
  { c with pendingTask := task, taskType := type }

def hasState (c : Job) : Bool := hasInternalState c.flags

/-- A client that was asked to save. -/
def ask (task : Nat) (c : Job) : Job :=
  if c.hasState then c.give task (if configFile c.flags then .saveFile else .saveDataSet) else c

/-- A client waits for `id` and nothing else. -/
def Ready (id : Uuid) (c : Job) : Prop := c.unsatisfiedDeps ≠ [] ∧ c.unsatisfiedDeps.erase id = []

instance (id : Uuid) : DecidablePred (Ready id) := fun _ => inferInstanceAs (Decidable (_ ∧ _))

/-- A lost client before and after `id` is satisfied. -/
def Satisfied (id : Uuid) (c c' : Job) : Prop :=
  ∃ pid, c' = { c with
    unsatisfiedDeps := c.unsatisfiedDeps.erase id
    pid := if c.Ready id then pid else c.pid }

/-- The dependencies of a client that are ids of the project. -/
def saneDeps (ids : List Uuid) (c : Job) : List Uuid := c.dependencies.filter (fun d => d ∈ ids)

/-- A client as it was read from the file of a project with some ids, and after the project was
restored. -/
def Restored (ids : List Uuid) (c c' : Job) : Prop :=
  ∃ pid, c' = { c with
    dependencies := c.saneDeps ids
    unsatisfiedDeps := (c.saneDeps ids).reverse
    pid := if c.saneDeps ids = [] then pid else c.pid }

end Job

/-! ## Moves -/

/-- How the daemon treats a client that is back. -/
inductive Answer where
  /-- It is sent a task to load. -/
  | sent
  /-- It should load a data set but nothing is sent. -/
  | silent
  /-- It is taken for a client without state. -/
  | stateless
  deriving DecidableEq

/-- What the daemon does with a project. -/
inductive Act where
  /-- Nothing that tasks depend on. -/
  | quiet
  | join (c : Job)
  | leave (c : Job)
  | resume (c : Job) (answer : Answer)
  /-- A client with a task reports the end of it. -/
  | complete (c : Job) (successful written : Bool)
  /-- A save begins; `asked` says whether the clients are asked. -/
  | save (asked written : Bool)
  | close
  | restore (clients : List Job)
  | launch (c : Job)
  | depend (c : Job) (id : Uuid)
  | undepend (c : Job) (id : Uuid)

/-- The call that gives a task of a type to a client. -/
inductive Sent (a : Addr) (c : Job) (name : CStr) (task : Nat) : EventType → Event → Prop
  | load (path : CStr) : Sent a c name task .restoreFile (.load a c.addr name task path)
  | loadDataSet (configs : List Entry) :
      Sent a c name task .restoreDataSet (.loadDataSet a c.addr name task configs)

/-- What `project_save_clients` and `project_save` record when the clients are asked. -/
def askEvents (a : Addr) (name : CStr) (task : Nat) (v : View) : List Event :=
  .save a name task :: (v.live.filter Job.hasState).map (fun c => .taskGiven a c.addr task)

def beginEvent (a : Addr) (v : View) : Event :=
  .saveBegun a ((v.live.filter Job.hasState).map Job.addr)

/-- `project_save_clients` in a view. -/
def View.ask (v : View) (task : Nat) : View :=
  let total := (v.live.filter Job.hasState).length
  { v with
    task := if total = 0 then .idle else .save
    pending := total
    live := v.live.map (Job.ask task)
    lost := [] }

def launchEvents (a : Addr) (l : List Job) : List Event := l.map (fun c => .launched a c.addr)

/-- The moves of a project: its view before, what is done, the events, and its view afterwards. -/
inductive Move (a : Addr) : View → Act → List Event → View → Prop
  | quiet {v} : Move a v .quiet [] v
  | join {v c name} (fresh : c.addr ∉ v.jobs.map Job.addr) (idle : c.Idle)
      (hnew : v.loaded = false → v.task = .idle ∧ v.pending = 0)
      (deps : c.dependencies = [] ∧ c.unsatisfiedDeps = []) (hname : c.dbusName = some name) :
      Move a v (.join c) [.connected a c.addr name] { v with loaded := true, live := c :: v.live }
  | leave {v c} (hc : c ∈ v.live) :
      Move a v (.leave c) [.lost a c.addr]
        { v.drop c with lost := { c with pid := 0 } :: v.lost }
  | sent {v c name task type e} (hc : c ∈ v.lost) (hpid : c.pid ≠ 0) (htask : task ≠ 0)
      (he : Sent a c name task type e) :
      Move a v (.resume c .sent) [.connected a c.addr name, .resumed a c.addr, e]
        (v.revive ((c.reconnect name).give task type))
  | silent {v c name} (hc : c ∈ v.lost) (hpid : c.pid ≠ 0) :
      Move a v (.resume c .silent) [.connected a c.addr name, .resumed a c.addr]
        (v.revive (c.reconnect name))
  | stateless {v c name pname written modified} (hc : c ∈ v.lost) (hpid : c.pid ≠ 0) :
      Move a v (.resume c .stateless)
        (.connected a c.addr name :: .resumed a c.addr
          :: v.countEvents a pname written modified .restoreDataSet)
        (v.revive { c.reconnect name with taskType := .unknown }).count
  | cleared {v c ok written} (hc : c ∈ v.live) (hp : c.pendingTask ≠ 0)
      (htype : c.taskType = .unknown) :
      Move a v (.complete c ok written) [.taskCompleted a c.addr c.pendingTask c.taskType ok]
        (v.put (c.done c.flags))
  | failed {v c written modified pname} (hc : c ∈ v.live) (hp : c.pendingTask ≠ 0)
      (htype : c.taskType ≠ .unknown) :
      Move a v (.complete c false written)
        (.taskCompleted a c.addr c.pendingTask c.taskType false
          :: v.countEvents a pname written modified c.taskType)
        (v.put (c.done c.flags)).count
  | saved {v c flags written modified pname} (hc : c ∈ v.live) (hp : c.pendingTask ≠ 0)
      (htype : c.taskType.isSave) :
      Move a v (.complete c true written)
        (.taskCompleted a c.addr c.pendingTask c.taskType true
          :: v.countEvents a pname written modified c.taskType)
        (v.put (c.done flags)).count
  | restored {v c lost written modified pname} (hc : c ∈ v.live) (hp : c.pendingTask ≠ 0)
      (htype : c.taskType.isRestore) (hlost : List.Forall₂ (Job.Satisfied c.id) v.lost lost) :
      Move a v (.complete c true written)
        (.taskCompleted a c.addr c.pendingTask c.taskType true
          :: (launchEvents a (v.lost.filter (Job.Ready c.id))
            ++ v.countEvents a pname written modified c.taskType))
        ({ v with lost := lost }.put (c.done c.flags)).count
  | skipped {v c evs written} (htask : v.task = .idle) (hc : c ∈ v.live) (hp : c.pendingTask ≠ 0)
      (hevs : evs = [] ∨ ∃ name modified,
        evs = finishEvents a name written modified .saveFile) :
      Move a v (.save false written) (beginEvent a v :: evs) { v with lost := [] }
  | asked {v name task evs written} (htask : v.task = .idle) (hp : ∀ c ∈ v.live, c.pendingTask = 0)
      (ht : task ≠ 0)
      (hevs : (∃ c ∈ v.live, c.hasState) ∧ evs = [] ∨
        (∀ c ∈ v.live, ¬ c.hasState) ∧ ∃ modified,
          evs = finishEvents a name written modified .saveFile) :
      Move a v (.save true written) (beginEvent a v :: (askEvents a name task v ++ evs))
        (v.ask task)
  | close {v} : Move a v .close [] { v with loaded := false, live := [], lost := [] }
  | restore {v clients lost} (hloaded : v.loaded = false) (hjobs : v.jobs = [])
      (hidle : ∀ c ∈ clients, c.Idle ∧ c.pid = 0) (hdist : (clients.map Job.addr).Nodup)
      (hlost : List.Forall₂ (Job.Restored (clients.map Job.id)) clients lost) :
      Move a v (.restore clients)
        (.restored a (clients.map Job.addr) ::
          launchEvents a (clients.filter (fun c => c.saneDeps (clients.map Job.id) = [])))
        { v with
          loaded := true
          task := .load
          pending := clients.length
          lost := lost }
  | launch {v c pid} (hc : c ∈ v.lost) :
      Move a v (.launch c) [.launched a c.addr]
        { v with lost := Keyed.put Job.addr { c with pid := pid } v.lost }
  | depend {v c id} (hc : c ∈ v.live) :
      Move a v (.depend c id) [] (v.put { c with dependencies := id :: c.dependencies })
  | undepend {v c id} (hc : c ∈ v.live) :
      Move a v (.undepend c id) [] (v.put { c with dependencies := c.dependencies.erase id })

end Lash
