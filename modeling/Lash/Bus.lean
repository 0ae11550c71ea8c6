import Lash.Server

/-!
# What reaches the daemon

The D-Bus methods of `lashd/dbus_iface_server.c` and `lashd/dbus_iface_control.c` that change
something, the signal of `lashd/dbus_service.c` and the events of the loader. `step` handles one
`Input`; it is `none` where the daemon crashes.

A loop over several projects or children (`ProjectsSaveAll`, `ProjectsCloseAll`,
`loader_childs_bury`) arrives as one input for each round, so that one step concerns at most one
project.
-/

namespace Lash

/-! ## Messages and replies -/

/-- An argument of a `Progress` or `CommitDataSet` call. -/
inductive Arg where
  | uint64 (n : Nat)
  | byte (n : UInt8)
  | array (elems : List ArrayElem)
  | other

inductive ErrorName where
  | invalidArgs
  | generic
  | unknownProject
  | unknownClient
  | invalidClientId
  | invalidTask
  deriving DecidableEq

inductive Reply where
  /-- The empty reply. -/
  | void
  /-- The reply to `Connect`. -/
  | client (id name project dataPath : CStr) (flags : Flags) (workingDir : CStr)
  | error (name : ErrorName) (message : CStr)

/-- `lash_dbus_error`: the message is printed into a buffer of 1024 bytes. -/
def lashDbusError (name : ErrorName) (parts : List CStr) : Reply :=
  .error name (parts.flatten.take 1023)

/-- What `printf("%s", s)` prints for a string that may be NULL. -/
def printable (s : Option CStr) : CStr := s.getD (cstr "(null)")

/-! ## The server interface -/

namespace Server

/-- `lashd_dbus_connect` -/
def dbusConnect (s : Server) (sender : CStr) (pid : Int) (cls : CStr) (flags : Flags) (wd : CStr)
    (argv : List CStr) (id : Uuid) : Option (Server × Reply) :=
  match s.addClient sender pid cls flags wd argv id with
  | none => none
  | some (s, a, addr) =>
    let p := s.project a
    match p.clients.find? (fun c => c.addr = addr) with
    | none => some (s, .void)
    | some c => some (s, .client c.idStr (c.name.getD []) p.name (c.dataPath.getD []) c.flags
        (c.workingDir.getD []))

/-- `get_message_sender`: the error for a sender that is no client. -/
def unknownSender (sender : CStr) : Reply :=
  lashDbusError .unknownClient [cstr "Sender ", sender, cstr " is not a LASH client"]

/-- `check_tasks`: the arguments after the task id, or the error. -/
def checkTasks (method : String) (c : Client) : List Arg → Except Reply (List Arg)
  | .uint64 task :: args =>
    if c.pendingTask = 0 then
      .error (lashDbusError .invalidTask
        [cstr "Client '", printable c.name, cstr "' has no pending task"])
    else if c.pendingTask ≠ task then
      .error (lashDbusError .invalidTask [cstr "Client '", printable c.name,
        cstr "' has a pending task, but it does not match the one in the method call"])
    else .ok args
  | _ => .error (lashDbusError .invalidArgs [cstr "Invalid arguments to method \"", cstr method,
      cstr "\": Cannot find task ID in message"])

/-- `lashd_dbus_progress` -/
def dbusProgress (s : Server) (sender : CStr) (args : List Arg) : Option (Server × Reply) :=
  match s.findClientByDbusName sender with
  | none => some (s, unknownSender sender)
  | some (a, c) =>
    match checkTasks "Progress" c args with
    | .error r => some (s, r)
    | .ok (.byte percentage :: _) =>
      (clientTaskProgressed (s.session a) c percentage.toNat).map
        (fun t => (s.setSession a t, .void))
    | .ok _ => some (s, lashDbusError .invalidArgs
        [cstr "Invalid arguments to method \"Progress\": Cannot find progress value in message"])

/-- `lashd_dbus_commit_data_set` -/
def dbusCommitDataSet (s : Server) (sender : CStr) (args : List Arg) : Option (Server × Reply) :=
  match s.findClientByDbusName sender with
  | none => some (s, unknownSender sender)
  | some (a, c) =>
    match checkTasks "CommitDataSet" c args with
    | .error r => some (s, r)
    | .ok args =>
      match c.store with
      | none => some (s, lashDbusError .generic [cstr "Client's store pointer is NULL"])
      | some st =>
        match args with
        | .array [] :: _ => some (s, lashDbusError .generic [cstr "Message contains no configs"])
        | .array elems :: _ =>
          let (ok, st) := commitConfigs st elems
          let c := { c with store := some st }
          (clientTaskCompleted ((s.session a).put c) c ok).map (fun t =>
            (s.setSession a t,
              if ok then .void else lashDbusError .generic [cstr "Config data is corrupt"]))
        | _ => some (s, lashDbusError .invalidArgs
            [cstr "Invalid arguments to method \"CommitDataSet\""])

/-! ## The control interface -/

/-- The error for a project name that no loaded project has. -/
def unknownProject (name : CStr) : Reply :=
  lashDbusError .unknownProject [cstr "Cannot find project \"", name, cstr "\""]

/-- Do something with the loaded project of a name. -/
def onProject (s : Server) (name : CStr) (f : Addr → Server) : Server × Reply :=
  match s.findProjectByName name with
  | none => (s, unknownProject name)
  | some a => (f a, .void)

/-- `lashd_dbus_project_open` and `lashd_dbus_load_project_path`: the first project offered for
loading that has a property is restored; nobody is told whether that worked. -/
def dbusRestore (s : Server) (q : Project → Bool) : Option (Server × Reply) :=
  match s.all.find? (fun a => q (s.project a)) with
  | none => some (s, .void)
  | some a => (s.projectRestore a).map (fun r => (r.2, .void))

/-- `lashd_dbus_get_client_dependency_modify_data`: the project, the client and the dependency id,
or the error. Only live clients are found. -/
def dependencyModifyData (s : Server) (projectName clientId depId : CStr) :
    Except Reply (Addr × Client × Uuid) :=
  match uuidParse clientId with
  | none => .error (lashDbusError .invalidClientId
      [cstr "Cannot parse client ID string \"", clientId, cstr "\""])
  | some cid =>
    match uuidParse depId with
    | none => .error (lashDbusError .invalidClientId
        [cstr "Cannot parse dependency ID string \"", depId, cstr "\""])
    | some did =>
      match s.findProjectByName projectName with
      | none => .error (unknownProject projectName)
      | some a =>
        match projectGetClientById (s.project a).clients cid with
        | none => .error (lashDbusError .unknownClient
            [cstr "Cannot find client '", clientId, cstr "'"])
        | some c => .ok (a, c, did)

/-- `lashd_dbus_client_add_dependency` -/
def dbusAddDependency (s : Server) (projectName clientId depId : CStr) : Option (Server × Reply) :=
  match s.dependencyModifyData projectName clientId depId with
  | .error r => some (s, r)
  | .ok (a, c, did) =>
    (clientDependencyAdd (s.project a).clients c did).map
      (fun c => (s.setSession a ((s.session a).put c), .void))

/-- `lashd_dbus_client_remove_dependency` -/
def dbusRemoveDependency (s : Server) (projectName clientId depId : CStr) : Server × Reply :=
  match s.dependencyModifyData projectName clientId depId with
  | .error r => (s, r)
  | .ok (a, c, did) =>
    (s.setSession a ((s.session a).put
      { c with dependencies := clientDependencyRemove c.dependencies did }), .void)

/-- `lashd_dbus_lost_client_launch` -/
def dbusLostClientLaunch (s : Server) (projectName clientId : CStr) : Option (Server × Reply) :=
  match uuidParse clientId with
  | none => some (s, lashDbusError .invalidClientId
      [cstr "Cannot parse client ID string \"", clientId, cstr "\""])
  | some cid =>
    match s.findProjectByName projectName with
    | none => some (s, unknownProject projectName)
    | some a =>
      match projectGetClientById (s.project a).lostClients cid with
      | none => some (s, lashDbusError .unknownClient
          [cstr "Cannot find client '", clientId, cstr "'"])
      | some c =>
        (projectLaunchClient s.g (s.project a) c).map (fun r =>
          (s.setSession a
            { g := r.1
              p := { s.project a with lostClients := putClient r.2 (s.project a).lostClients } },
            .void))

/-- `lashd_dbus_project_move`; an unknown project is no error. -/
def dbusProjectMove (s : Server) (name newPath : CStr) : Server × Reply :=
  match s.findProjectByName name with
  | none => (s, .void)
  | some a => (s.setSession a (projectMove (s.session a) newPath), .void)

end Server

/-! ## Steps -/

inductive Input where
  | connect (sender : CStr) (pid : Int) (cls : CStr) (flags : Flags) (wd : CStr) (argv : List CStr)
      (id : Uuid)
  /-- `NameOwnerChanged`: nobody owns the name any more. -/
  | nameLost (name : CStr)
  | progress (sender : CStr) (args : List Arg)
  | commitDataSet (sender : CStr) (args : List Arg)
  | projectOpen (name : CStr)
  | loadProjectPath (path : CStr)
  | projectSave (name : CStr)
  /-- A round of `ProjectsSaveAll`. -/
  | saveRound (project : Addr)
  | projectClose (name : CStr)
  /-- A round of `ProjectsCloseAll`. -/
  | closeRound (project : Addr)
  | addDependency (project client dep : CStr)
  | removeDependency (project client dep : CStr)
  | lostClientLaunch (project client : CStr)
  | projectRename (old new : CStr)
  | projectSetDescription (name description : CStr)
  | projectSetNotes (name notes : CStr)
  | projectMove (name path : CStr)
  /-- A child of the daemon terminates. -/
  | sigchld (pid : Int)
  /-- A round of `loader_childs_bury`. -/
  | bury
  /-- Something outside changes the disk, or decides what coming system calls will do. -/
  | outside (fs : Fs) (forks : List Int)

namespace Server

/-- The answer to one input. -/
def handle (s : Server) : Input → Option (Server × Reply)
  | .connect sender pid cls flags wd argv id => s.dbusConnect sender pid cls flags wd argv id
  | .nameLost name => some (s.disconnect (s.findClientByDbusName name), .void)
  | .progress sender args => s.dbusProgress sender args
  | .commitDataSet sender args => s.dbusCommitDataSet sender args
  | .projectOpen name => s.dbusRestore (fun p => p.name = name)
  | .loadProjectPath path => s.dbusRestore (fun p => p.directory = path)
  | .projectSave name => some (s.onProject name s.projectSave)
  | .saveRound a => some (if a ∈ s.loaded then s.projectSave a else s, .void)
  | .projectClose name => some (s.onProject name s.closeProject)
  | .closeRound a => some (if a ∈ s.loaded then s.closeProject a else s, .void)
  | .addDependency project client dep => s.dbusAddDependency project client dep
  | .removeDependency project client dep => some (s.dbusRemoveDependency project client dep)
  | .lostClientLaunch project client => s.dbusLostClientLaunch project client
  | .projectRename old new =>
    some (s.onProject old (fun a => s.setSession a (Lash.projectRename (s.session a) new)))
  | .projectSetDescription name d =>
    some (s.onProject name (fun a => s.setSession a (Lash.projectSetDescription (s.session a) d)))
  | .projectSetNotes name n =>
    some (s.onProject name (fun a => s.setSession a (Lash.projectSetNotes (s.session a) n)))
  | .projectMove name path => some (s.dbusProjectMove name path)
  | .sigchld pid => some ({ s with g := { s.g with childs := markDead pid s.g.childs } }, .void)
  | .bury => some (s.buryOne, .void)
  | .outside fs forks => some ({ s with g := { s.g with fs := fs, forks := forks } }, .void)

/-- The server after one input; `none` is a crash. -/
def step (s : Server) (i : Input) : Option Server := (s.handle i).map Prod.fst

/-- Some client of a loaded project has the id. -/
def IdInUse (s : Server) (id : Uuid) : Prop :=
  ∃ a ∈ s.loaded, ∃ c ∈ (s.project a).clients ++ (s.project a).lostClients, c.id = id

/-- `uuid_generate` makes an id that nobody has. -/
def FreshId (s : Server) : Input → Prop
  | .connect _ _ _ _ _ _ id => ¬ s.IdInUse id
  | _ => True

end Server

end Lash
