import Lash.Protocol

/-!
# What an input is aimed at

The lookups that the daemon makes for an input before it does anything: which client connects
again, which one leaves, which project is saved, and so on. They are functions of the state before
the step; `Server.Explains` says which moves of a project an input can cause.
-/

namespace Lash

/-! ## A client that is back -/

/-- `project_load_data_set` has something to send: the store opens, is not empty, and the bus
accepts its content. -/
def dataSetSends (s : Session) (c : Client) : Bool :=
  let (ok, c, fs) := clientStoreOpen s.g.fs c (projectGetClientConfigDir s.p c)
  match c.store with
  | none => false
  | some st => ok && st.keys ≠ [] && ((storeCreateConfigArray st fs st.keys).getD none).isSome

/-- What a client that is back gets to load. -/
def loadAnswer (s : Session) (c : Client) : Answer :=
  if isSaved c.flags then
    if configFile c.flags then .sent
    else if configDataSet c.flags then if dataSetSends s c then .sent else .silent
    else .stateless
  else .stateless

/-- What `client_resume_project` does with a client. -/
def resumeAnswer (s : Session) (c : Client) : Answer :=
  loadAnswer (resumePrepare s c).1 (resumePrepare s c).2

/-- The info file of a project can be written. -/
def Project.infoWritable (p : Project) (fs : Fs) : Bool :=
  let f := lashGetFqn p.directory projectInfoFile
  fs.reaches f && !fs.isDir (resolve f) && fs.fault = none

/-- The disk after a client's own part of a completion. -/
def finishDisk (s : Session) (c : Client) (wasSuccessful : Bool) : Fs :=
  match clientFinishTask
      (s.emit (.taskCompleted s.p.addr c.addr c.pendingTask c.taskType wasSuccessful)) c
      wasSuccessful with
  | none => s.g.fs
  | some (s, _) => s.g.fs

/-- If a report completes a save, the info file can be written. -/
def reportWritable (s : Session) (c : Client) (wasSuccessful : Bool) : Bool :=
  !(s.p.clientTasksPending = 1 && c.taskType.isSave)
    || s.p.infoWritable (finishDisk s c wasSuccessful)

/-- If a save is complete at once, the info file can be written. -/
def saveWritable (s : Session) : Bool :=
  let t := projectSaveStart s
  !(s.p.taskType = .idle && t.p.clientTasksTotal = 0) || t.p.infoWritable t.g.fs

namespace Server

/-! ## Lookups -/

/-- The lost client that an input brings back. -/
def resuming (s : Server) : Input → Option (Addr × Client)
  | .connect _ pid _ _ _ _ _ => if pid = 0 then none else s.findLostClientByPid pid
  | _ => none

/-- What happens to the client that an input brings back. -/
def answer (s : Server) : Input → Option Answer
  | .connect sender pid _ _ _ _ _ =>
    (if pid = 0 then none else s.findLostClientByPid pid).map (fun (a, c) =>
      resumeAnswer ((s.session a).emit (.connected a c.addr sender)) (c.reconnect sender))
  | _ => none

/-- The live client that an input takes away. -/
def leaving (s : Server) : Input → Option (Addr × Client)
  | .nameLost name => s.findClientByDbusName name
  | .bury => (s.g.childs.find? Child.dead).bind (fun child => s.findClientByPid child.pid)
  | _ => none

/-- The loaded project that an input wants to be saved. -/
def saving (s : Server) : Input → Option Addr
  | .projectSave name => s.findProjectByName name
  | .saveRound a => if a ∈ s.loaded then some a else none
  | _ => none

/-- The loaded project that an input closes. -/
def closing (s : Server) : Input → Option Addr
  | .projectClose name => s.findProjectByName name
  | .closeRound a => if a ∈ s.loaded then some a else none
  | _ => none

/-- The project that is not loaded yet and that an input wants to be restored. -/
def restoring (s : Server) : Input → Option Addr
  | .projectOpen name =>
    (s.all.find? (fun a => (s.project a).name = name)).filter (fun a => a ∉ s.loaded)
  | .loadProjectPath path =>
    (s.all.find? (fun a => (s.project a).directory = path)).filter (fun a => a ∉ s.loaded)
  | _ => none

theorem restoring_not_mem {s : Server} {a : Addr} {i : Input} (h : s.restoring i = some a) :
    a ∉ s.loaded := by
  cases i with
  | projectOpen | loadProjectPath =>
      have := (Option.filter_eq_some_iff.mp h).2
      simpa using this
  | _ => exact absurd h (by simp [restoring])

/-- The client that gets a dependency, and the dependency. -/
def adding (s : Server) : Input → Option (Addr × Client × Uuid)
  | .addDependency project client dep =>
    match s.dependencyModifyData project client dep with
    | .ok r => some r
    | .error _ => none
  | _ => none

/-- The client that reports the end of its task and whether it succeeded, with the session in which
`client_task_completed` is called. -/
def reporting (s : Server) : Input → Option (Addr × Session × Client × Bool)
  | .progress sender args =>
    match s.findClientByDbusName sender with
    | none => none
    | some (a, c) =>
      match checkTasks "Progress" c args with
      | .ok (.byte percentage :: _) =>
        if percentage.toNat = 0 then some (a, s.session a, c, false)
        else if percentage.toNat = 255 then some (a, s.session a, c, true)
        else none
      | _ => none
  | .commitDataSet sender args =>
    match s.findClientByDbusName sender with
    | none => none
    | some (a, c) =>
      match checkTasks "CommitDataSet" c args, c.store with
      | .ok (.array (elem :: elems) :: _), some st =>
        let (ok, st) := commitConfigs st (elem :: elems)
        let c := { c with store := some st }
        some (a, (s.session a).put c, c, ok)
      | _, _ => none
  | _ => none

/-- The client that gets further with its task, and how far it is now. -/
def progressing (s : Server) : Input → Option (Addr × Client × Nat)
  | .progress sender args =>
    match s.findClientByDbusName sender with
    | none => none
    | some (a, c) =>
      match checkTasks "Progress" c args with
      | .ok (.byte percentage :: _) =>
        if percentage.toNat = 0 ∨ percentage.toNat = 255 ∨
          percentage.toNat ≤ c.taskProgress then none
        else some (a, c, if percentage.toNat > 99 then 99 else percentage.toNat)
      | _ => none
  | _ => none

/-- If the input completes a save, the info file can be written. -/
def infoWritable (s : Server) (i : Input) : Bool :=
  match s.reporting i with
  | some (_, t, c, ok) => reportWritable t c ok
  | none =>
    match s.saving i with
    | some a => saveWritable (s.session a)
    | none => true

/-! ## Explanations -/

/-- An input to which a project answers with a move. -/
def Explains (s : Server) (i : Input) (a : Addr) : Act → Prop
  | .quiet => True
  | .join c => s.resuming i = none ∧
      ∃ sender pid cls flags wd argv, i = .connect sender pid cls flags wd argv c.id
  | .leave c => ∃ x, s.leaving i = some (a, x) ∧ x.job = c
  | .resume c answer =>
      ∃ x, s.resuming i = some (a, x) ∧ x.job = c ∧ s.answer i = some answer
  | .complete c ok written =>
      ∃ t x, s.reporting i = some (a, t, x, ok) ∧ x.job = c ∧ written = s.infoWritable i
  | .save _ written => s.saving i = some a ∧ written = s.infoWritable i
  | .close => s.closing i = some a
  | .restore clients => s.restoring i = some a ∧
      ∃ t, projectLoad (s.session a) = some (true, t) ∧ clients = t.p.lostClients.map Client.job
  | .launch _ => ∃ project client, i = .lostClientLaunch project client
  | .depend c id => ∃ x, s.adding i = some (a, x, id) ∧ x.job = c ∧
      clientDependencyFindCircular (s.project a).clients x.id
        ((s.project a).clients.length + 1) id = some false
  | .undepend _ _ => ∃ project client dep, i = .removeDependency project client dep

end Server

end Lash
