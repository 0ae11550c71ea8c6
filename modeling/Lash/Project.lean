import Lash.Client

/-!
# Projects

`lashd/project.c`, with the functions of `lashd/client.c` that call it and `loader_execute`. They
work on one project and the globals, a `Session`; a function that is handed a client returns it as
the C function leaves the structure. `none` is a crash of the daemon: a NULL pointer that is
followed, a read behind a buffer, a recursion without end.

The JACK and ALSA managers, which these functions also call, are not part of this model.
-/

namespace Lash

/-! ## Names inside a project directory -/

def projectIdDir : CStr := cstr ".id"
def projectConfigDir : CStr := cstr ".config"
def projectInfoFile : CStr := cstr ".lash_info"
def projectNotesFile : CStr := cstr ".notes"

/-- A project and what else its functions may touch. -/
structure Session where
  g : Globals
  p : Project

namespace Session

def emit (s : Session) (e : Event) : Session := { s with g := s.g.emit e }

def setFs (s : Session) (fs : Fs) : Session := { s with g := { s.g with fs := fs } }

/-- Write a client back into `project->clients`. -/
def put (s : Session) (c : Client) : Session := { s with p := s.p.put c }

end Session

/-! ## Names and directories -/

/-- `project_get_client_by_name` -/
def projectGetClientByName (p : Project) (name : CStr) : Option Client :=
  (clientFindByName p.clients name).or (clientFindByName p.lostClients name)

/-- `printf("%02u", i)` -/
def twoDigits (i : Nat) : CStr := if i < 10 then 48 :: decimal i else decimal i

/-- The loop of `project_get_unique_client_name`: `n` numbers are left, `i` is the next. -/
def numberedClientName (p : Project) (cls : CStr) : (n i : Nat) → Option CStr
  | 0, _ => none
  | n + 1, i =>
    let str := cls ++ cstr " " ++ twoDigits i
    if projectGetClientByName p str = none then some str else numberedClientName p cls n (i + 1)

/-- `project_get_unique_client_name` -/
def projectGetUniqueClientName (p : Project) (cls : CStr) : Option CStr :=
  if projectGetClientByName p cls = none then some cls else numberedClientName p cls 99 1

/-- `project_name_client`; a client without a class is a crash. -/
def projectNameClient (p : Project) (c : Client) : Option Client :=
  match c.cls with
  | none => none
  | some cls => some { c with name := some ((projectGetUniqueClientName p cls).getD []) }

/-- `project_get_client_dir` -/
def projectGetClientDir (p : Project) (c : Client) : CStr :=
  lashGetFqn (lashGetFqn p.directory projectIdDir) c.idStr

/-- `project_get_client_config_dir` -/
def projectGetClientConfigDir (p : Project) (c : Client) : CStr :=
  lashGetFqn (projectGetClientDir p c) projectConfigDir

/-- `project_set_modified_status` -/
def projectSetModifiedStatus (s : Session) (status : Bool) : Session :=
  if s.p.modifiedStatus = status then s
  else
    { s with p := { s.p with modifiedStatus := status } }.emit
      (.projectModifiedStatusChanged s.p.addr s.p.name status)

/-! ## Launching -/

/-- `loader_execute`, for the project with address `a` and name `pname`: the parent's side of the
fork. A client that was read without arguments has no array of them. -/
def loaderExecute (g : Globals) (pname : CStr) (c : Client) : Option (Globals × Client) :=
  match c.argv with
  | none => none
  | some argv =>
    let pid := g.forks.headD (-1)
    let pid := if 0 < pid then pid else 0
    let child : Child :=
      { id := c.id, project := pname, argv0 := argv.headD [], dead := false, pid
        terminal := isTerminal c.flags }
    some ({ g with forks := g.forks.tail, childs := g.childs ++ [child] }, { c with pid := pid })

/-- `project_launch_client` -/
def projectLaunchClient (g : Globals) (p : Project) (c : Client) : Option (Globals × Client) :=
  loaderExecute (g.emit (.launched p.addr c.addr)) p.name c

/-- The loop of `project_satisfy_client_dependency` over the lost clients. -/
def satisfyLost (p : Project) (id : Uuid) (g : Globals) :
    List Client → Option (Globals × List Client)
  | [] => some (g, [])
  | c :: rest =>
    if c.unsatisfiedDeps = [] then
      (satisfyLost p id g rest).map (fun r => (r.1, c :: r.2))
    else
      let c := { c with unsatisfiedDeps := clientDependencyRemove c.unsatisfiedDeps id }
      if c.unsatisfiedDeps = [] then
        match projectLaunchClient g p c with
        | none => none
        | some (g, c) => (satisfyLost p id g rest).map (fun r => (r.1, c :: r.2))
      else (satisfyLost p id g rest).map (fun r => (r.1, c :: r.2))

/-- `project_satisfy_client_dependency` -/
def projectSatisfyClientDependency (s : Session) (c : Client) : Option Session :=
  (satisfyLost s.p c.id s.g s.p.lostClients).map
    (fun r => { g := r.1, p := { s.p with lostClients := r.2 } })

/-! ## Loading a client -/

/-- The task counter, one further. -/
def Globals.nextTask (g : Globals) : Globals := { g with taskIter := g.taskIter + 1 }

/-- `project_load_file` -/
def projectLoadFile (s : Session) (c : Client) : Session × Client :=
  let g := s.g.nextTask
  let call := Event.load s.p.addr c.addr (c.dbusName.getD []) g.taskIter (c.dataPath.getD [])
  ({ s with g := g.emit call },
    { c with pendingTask := g.taskIter, taskType := .restoreFile, taskProgress := 0 })

/-- `project_load_data_set`. Nothing is sent, and the client gets no task, if its store cannot be
opened, is empty, or holds a string the bus does not accept. -/
def projectLoadDataSet (s : Session) (c : Client) : Option (Session × Client) :=
  let (ok, c, fs) := clientStoreOpen s.g.fs c (projectGetClientConfigDir s.p c)
  let s := s.setFs fs
  match c.store with
  | none => none
  | some st =>
    if ¬ ok then some (s, c)
    else if st.keys = [] then some (s, c)
    else
      let g := s.g.nextTask
      match storeCreateConfigArray st fs st.keys with
      | none => none
      | some none => some ({ s with g := g }, c)
      | some (some configs) =>
        let call := Event.loadDataSet s.p.addr c.addr (c.dbusName.getD []) g.taskIter configs
        some ({ s with g := g.emit call },
          { c with pendingTask := g.taskIter, taskType := .restoreDataSet, taskProgress := 0 })

/-! ## Writing the project -/

/-- `project_create_client_dependencies_xml` -/
def projectCreateClientDependenciesXml (c : Client) : XmlNode :=
  .element (cstr "dependencies") (c.dependencies.map (fun d => .newChild "id" (uuidUnparse d)))

/-- The `<client>` element of `project_create_xml`. -/
def clientXml (c : Client) : XmlNode :=
  .element (cstr "client")
    ([.newChild "class" c.cls, .newChild "id" (some c.idStr), .newChild "name" c.name,
      .newChild "flags" (some (decimalInt c.flags.toInt)),
      .newChild "working_directory" c.workingDir,
      .element (cstr "arg_set") ((c.argv.getD []).map (fun a => .newChild "arg" (some a)))]
    ++ if c.dependencies = [] then [] else [projectCreateClientDependenciesXml c])

/-- `project_create_xml` -/
def projectCreateXml (p : Project) : XmlDoc :=
  [.element (cstr "lash_project")
    ([.newChild "version" (some (cstr "1.0")), .newChild "name" (some p.name),
      .newChild "description" p.description] ++ p.clients.map clientXml)]

/-- `project_write_info` -/
def projectWriteInfo (s : Session) : Bool × Session :=
  let doc := projectCreateXml s.p
  let (ok, fs) := s.g.fs.xmlSaveFile (lashGetFqn s.p.directory projectInfoFile) doc
  let s := { s with p := { s.p with doc := some doc } }.setFs fs
  if ok then (true, s.emit (.infoWritten s.p.addr)) else (false, s)

/-- `project_clear_lost_clients` -/
def projectClearLostClients (s : Session) : Session :=
  let fs := s.p.lostClients.foldl
    (fun fs c =>
      match c.dataPath with
      | some d => if fs.lashDirExists d then fs.lashRemoveDir d else fs
      | none => fs)
    s.g.fs
  { s with p := { s.p with lostClients := [] } }.setFs fs

/-- `project_load_notes` -/
def projectLoadNotes (s : Session) : Session :=
  match s.g.fs.lashReadTextFile (lashGetFqn s.p.directory projectNotesFile) with
  | none => s
  | some notes => { s with p := { s.p with notes := notes } }

/-- `project_save_notes` -/
def projectSaveNotes (s : Session) : Bool × Session :=
  let f := lashGetFqn s.p.directory projectNotesFile
  let (ok, fs) := s.g.fs.creat f
  if ¬ ok then (false, s.setFs fs)
  else
    match s.p.notes with
    | none => (true, s.setFs (fs.close f).2)
    | some notes =>
      -- `fwrite(notes, 0, 1, file)` returns 0, so empty notes count as a failure
      let (ok, fs) := if notes = [] then (false, fs) else fs.write f notes
      (ok, s.setFs (fs.close f).2)

/-! ## Tasks -/

/-- `project_clients_save_complete` -/
def projectClientsSaveComplete (s : Session) : Session :=
  let s := (projectWriteInfo s).2
  projectSetModifiedStatus
    ((s.emit (.progress s.p.addr 100)).emit (.projectSaved s.p.addr s.p.name)) false

/-- `project_loaded` -/
def projectLoaded (s : Session) : Session :=
  projectSetModifiedStatus
    ((s.emit (.progress s.p.addr 100)).emit (.projectLoaded s.p.addr s.p.name)) false

/-- `project_client_progress`. The reading is an `uint8_t` before it is cut off at 99. -/
def projectClientProgress (s : Session) (c : Client) (percentage : Nat) : Session × Client :=
  let p := { s.p with
    clientTasksProgress := s.p.clientTasksProgress - c.taskProgress + percentage }
  let c := { c with taskProgress := percentage }
  let s : Session := { s with p := p.put c }
  if s.p.clientTasksTotal = 0 then (s, c)
  else
    let reading := p.clientTasksProgress.toNat / p.clientTasksTotal % 256
    (s.emit (.progress s.p.addr (if reading > 99 then 99 else reading)), c)

/-- The end of `project_client_task_completed`: the last client finished the task. Which signal is
sent depends on what that client was doing. -/
def projectTaskFinished (s : Session) (c : Client) : Session :=
  let s := s.emit (.taskFinished s.p.addr s.p.taskType)
  let s : Session := { s with
    p := { s.p with taskType := .idle, clientTasksTotal := 0, clientTasksProgress := 0 } }
  match c.taskType with
  | .saveDataSet | .saveFile => projectClientsSaveComplete s
  | .restoreFile | .restoreDataSet => projectLoaded s
  | .unknown => s

/-- `project_client_task_completed`, after the progress was signalled: one client less is waited
for. -/
def projectCountDown (s : Session) (c : Client) : Session :=
  if s.p.clientTasksPending = 0 then s
  else
    let s : Session := { s with p := { s.p with
      clientTasksPending := s.p.clientTasksPending - 1 } }
    if s.p.clientTasksPending = 0 then projectTaskFinished s c else s

/-- `project_client_task_completed` -/
def projectClientTaskCompleted (s : Session) (c : Client) : Session × Client :=
  let (s, c) := projectClientProgress s c 100
  (projectCountDown s c, c)

/-- What `client_task_completed` does for the task itself, before the project hears of it. A client
that reports success of a data set must have a store. -/
def clientFinishTask (s : Session) (c : Client) (wasSuccessful : Bool) :
    Option (Session × Client) :=
  if wasSuccessful then
    match c.taskType with
    | .saveDataSet =>
      match c.store with
      | none => none
      | some st =>
        let (ok, st, fs) := storeWrite st s.g.fs
        some (s.setFs fs, { c with
          store := some st
          flags := if ok then c.flags ||| flagSaved else c.flags })
    | .saveFile => some (s, { c with flags := c.flags ||| flagSaved })
    | .restoreFile | .restoreDataSet =>
      (projectSatisfyClientDependency s c).map (fun s => (s, c))
    | .unknown => some (s, c)
  else some (s, c)

/-- The client has no task any more. -/
def Client.clearTask (c : Client) : Client :=
  { c with pendingTask := 0, taskType := .unknown, taskProgress := 0 }

/-- `client_task_completed` -/
def clientTaskCompleted (s : Session) (c : Client) (wasSuccessful : Bool) : Option Session :=
  let s := s.emit (.taskCompleted s.p.addr c.addr c.pendingTask c.taskType wasSuccessful)
  if c.taskType = .unknown then some (s.put c.clearTask)
  else
    (clientFinishTask s c wasSuccessful).map (fun r =>
      let (s, c) := projectClientTaskCompleted r.1 r.2
      s.put c.clearTask)

/-- `client_task_progressed`; 0 is failure and 255 is success. -/
def clientTaskProgressed (s : Session) (c : Client) (percentage : Nat) : Option Session :=
  if percentage = 0 then clientTaskCompleted s c false
  else if percentage = 255 then clientTaskCompleted s c true
  else if percentage ≤ c.taskProgress then some s
  else some (projectClientProgress s c (if percentage > 99 then 99 else percentage)).1

/-! ## Saving -/

/-- A client as `project_save_clients` leaves it. -/
def Client.ask (task : Nat) (c : Client) : Client :=
  if hasInternalState c.flags then
    { c with
      pendingTask := task
      taskType := if configFile c.flags then .saveFile else .saveDataSet
      taskProgress := 0 }
  else c

/-- The clients of a project that have something to save. -/
def Project.stateful (p : Project) : List Client :=
    p.clients.filter (fun c => hasInternalState c.flags)

/-- `project_save_clients`. If a client has a pending task nothing happens, and nothing tells the
caller so. -/
def projectSaveClients (s : Session) : Session :=
  if s.p.clients.any (fun c => c.pendingTask ≠ 0) then s
  else
    let g := s.g.nextTask
    let g := g.emit (.save s.p.addr s.p.name g.taskIter)
    let total := s.p.stateful.length
    { g := { g with
        log := g.log ++ s.p.stateful.map (fun c => .taskGiven s.p.addr c.addr g.taskIter) }
      p := { s.p with
        taskType := if total = 0 then .idle else .save
        clientTasksTotal := total
        clientTasksPending := total
        clientTasksProgress := 0
        clients := s.p.clients.map (Client.ask g.taskIter) } }

/-- `project_save` up to the question whether the save is complete already. -/
def projectSaveStart (s : Session) : Session :=
  let s := s.emit (.saveBegun s.p.addr (s.p.stateful.map Client.addr))
  let s := s.emit (.progress s.p.addr 0)
  let s := s.setFs (if s.g.fs.lashDirExists s.p.directory then s.g.fs
    else s.g.fs.lashCreateDir s.p.directory)
  let s := projectSaveClients s
  let s := (projectSaveNotes s).2
  projectClearLostClients s

/-- `project_save`, apart from linking a new project into `all_projects`. -/
def projectSave (s : Session) : Session :=
  if s.p.taskType ≠ .idle then s
  else
    let s := projectSaveStart s
    if s.p.clientTasksTotal = 0 then projectClientsSaveComplete s else s

end Lash
