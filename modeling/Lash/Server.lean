import Lash.Lifecycle

/-!
# The server

`lashd/server.c`, and the burial of dead children from `lashd/loader.c`. A project structure lives
at its address for ever (`Server.project`); the two lists say which projects are loaded and which
are offered for loading.
-/

namespace Lash

namespace Server

/-- The session of the project at an address. -/
def session (s : Server) (a : Addr) : Session := { g := s.g, p := s.project a }

/-- Write a session back. -/
def setSession (s : Server) (a : Addr) (t : Session) : Server :=
  { s with g := t.g, project := Function.update s.project a t.p }

def emit (s : Server) (e : Event) : Server := { s with g := s.g.emit e }

@[simp] theorem session_g (s : Server) (a : Addr) : (s.session a).g = s.g := rfl
@[simp] theorem session_p (s : Server) (a : Addr) : (s.session a).p = s.project a := rfl
@[simp] theorem setSession_g (s : Server) (a : Addr) (t : Session) : (s.setSession a t).g = t.g :=
  rfl
@[simp] theorem setSession_loaded (s : Server) (a : Addr) (t : Session) :
    (s.setSession a t).loaded = s.loaded := rfl
@[simp] theorem setSession_all (s : Server) (a : Addr) (t : Session) :
    (s.setSession a t).all = s.all := rfl
@[simp] theorem setSession_project_self (s : Server) (a : Addr) (t : Session) :
    (s.setSession a t).project a = t.p := by simp [setSession]
theorem setSession_project_ne (s : Server) {a b : Addr} (t : Session) (h : b ≠ a) :
    (s.setSession a t).project b = s.project b := by simp [setSession, h]

/-! ## Finding -/

/-- `server_find_project_by_name` -/
def findProjectByName (s : Server) (name : CStr) : Option Addr :=
  s.loaded.find? (fun a => (s.project a).name = name)

/-- The first client of a loaded project, in one of its two lists, that has a property, and the
project. -/
def findClient (s : Server) (list : Project → List Client) (q : Client → Bool) :
    Option (Addr × Client) :=
  s.loaded.findSome? (fun a => ((list (s.project a)).find? q).map (fun c => (a, c)))

/-- `server_find_client_by_dbus_name` -/
def findClientByDbusName (s : Server) (name : CStr) : Option (Addr × Client) :=
  s.findClient Project.clients (fun c => c.dbusName = some name)

/-- `server_find_client_by_pid` -/
def findClientByPid (s : Server) (pid : Int) : Option (Addr × Client) :=
  s.findClient Project.clients (fun c => c.pid = pid)

/-- `server_find_lost_client_by_pid` -/
def findLostClientByPid (s : Server) (pid : Int) : Option (Addr × Client) :=
  s.findClient Project.lostClients (fun c => c.pid = pid)

/-! ## New projects -/

/-- No loaded project has the name and no info file is where its info file would be. -/
def nameIsFree (s : Server) (name : CStr) : Bool :=
  (s.findProjectByName name).isNone
    && !s.g.fs.lashFileExists (lashGetFqn (lashGetFqn s.g.projectsDir name) projectInfoFile)

/-- The loop of `server_create_new_project_name`: `n` rounds are left, `i` is the next number. -/
def newNameLoop (s : Server) (suggestion : CStr) : (n i : Nat) → (name : CStr) → Option CStr
  | 0, _, _ => none
  | n + 1, i, name =>
    if s.nameIsFree name then some name
    else newNameLoop s suggestion n (i + 1) (suggestion ++ cstr " " ++ decimal i)

/-- `server_create_new_project_name` -/
def createNewProjectName (s : Server) (suggestion : CStr) : Option CStr :=
  let suggestion := if suggestion = [] then cstr "New Project" else suggestion
  if suggestion.length > 1023 then none else newNameLoop s suggestion 999999999 2 suggestion

/-- `server_create_new_project(NULL)`: the server and the new project. -/
def createNewProject (s : Server) : Option (Server × Addr) :=
  match s.createNewProjectName [] with
  | none => none
  | some name =>
    let a := s.g.nextAddr
    let p := { projectNew a with name := name, directory := lashGetFqn s.g.projectsDir name }
    let idDir := lashGetFqn p.directory projectIdDir
    let fs := if s.g.fs.lashDirExists idDir then s.g.fs.lashRemoveDir idDir else s.g.fs
    let s := { s.setSession a { g := { s.g with nextAddr := a + 1, fs := fs }, p := p } with
      loaded := s.loaded ++ [a] }
    some (s.emit (.projectAppeared a p.name p.directory), a)

/-- `server_get_newborn_project`: a project that was never saved, else the last loaded one, else a
new one. -/
def getNewbornProject (s : Server) : Option (Server × Addr) :=
  match s.loaded.find? (fun a => (s.project a).doc.isNone) with
  | some a => some (s, a)
  | none =>
    match s.loaded.getLast? with
    | some a => some (s, a)
    | none => s.createNewProject

/-! ## Clients -/

/-- The client that `server_add_client` makes of a `Connect` call. -/
def newClient (addr : Addr) (sender : CStr) (pid : Int) (cls : CStr) (flags : Flags) (wd : CStr)
    (argv : List CStr) : Client :=
  { clientNew addr with
    pid := pid
    cls := some cls
    flags := flags
    argv := some argv
    dbusName := some sender
    workingDir := some wd }

/-- `server_add_client`: the server, and where the client is. A client whose pid is that of a lost
client takes its place; any other is a new one, for which `id` is what `uuid_generate` returns. -/
def addClient (s : Server) (sender : CStr) (pid : Int) (cls : CStr) (flags : Flags) (wd : CStr)
    (argv : List CStr) (id : Uuid) : Option (Server × Addr × Addr) :=
  match (if pid = 0 then none else s.findLostClientByPid pid) with
  | some (a, c) =>
    let t := (s.session a).emit (.connected a c.addr sender)
    (clientResumeProject t (c.reconnect sender)).map (fun t => (s.setSession a t, a, c.addr))
  | none =>
    let addr := s.g.nextAddr
    let s := { s with g := { s.g with nextAddr := addr + 1 } }
    match s.getNewbornProject with
    | none => none
    | some (s, a) =>
      let c := newClient addr sender pid cls flags wd argv
      let t := (s.session a).emit (.connected a addr sender)
      (projectNewClient t c id).map (fun t => (s.setSession a t, a, addr))

/-- `client_disconnected` for a client that was looked up, if it was found. -/
def disconnect (s : Server) : Option (Addr × Client) → Server
  | none => s
  | some (a, c) => s.setSession a (clientDisconnected (s.session a) c)

/-! ## Saving, closing and restoring -/

/-- `project_save` with the link into `all_projects`. -/
def projectSave (s : Server) (a : Addr) : Server :=
  let s' := s.setSession a (Lash.projectSave (s.session a))
  if (s.project a).taskType ≠ .idle ∨ a ∈ s.all then s' else { s' with all := s.all ++ [a] }

/-- `server_close_project` -/
def closeProject (s : Server) (a : Addr) : Server :=
  let s := { s with loaded := s.loaded.erase a }
  let s := s.setSession a (projectUnload (s.session a))
  s.emit (.projectDisappeared a (s.project a).name)

/-- `server_save_all_projects` -/
def saveAllProjects (s : Server) : Server := s.loaded.foldl projectSave s

/-- `server_close_all_projects` -/
def closeAllProjects (s : Server) : Server := s.loaded.foldl closeProject s

/-- The second half of `server_project_restore`, after the name of the project is settled. -/
def startRestore (s : Server) (a : Addr) : Option Server :=
  let s := { s with loaded := s.loaded ++ [a] }
  let p := s.project a
  let g := s.g.emit (.projectAppeared a p.name p.directory)
  let g := g.emit (.restored a (p.lostClients.map Client.addr))
  let g := g.emit (.progress a 0)
  match restoreClients p g p.lostClients with
  | none => none
  | some (g, lost) =>
    some (s.setSession a
      { g := g
        p := { p with
          taskType := .load
          clientTasksProgress := 0
          clientTasksTotal := p.lostClients.length
          clientTasksPending := p.lostClients.length
          lostClients := lost } })

/-- `server_project_restore`. A project whose name is taken gets a new one; where none can be made
the daemon crashes. -/
def projectRestore (s : Server) (a : Addr) : Option (Bool × Server) :=
  if a ∈ s.loaded then some (false, s)
  else
    match projectLoad (s.session a) with
    | none => none
    | some (false, t) => some (false, s.setSession a t)
    | some (true, t) =>
      let s := s.setSession a t
      match s.findProjectByName t.p.name with
      | none => (s.startRestore a).map (fun s => (true, s))
      | some _ =>
        match s.createNewProjectName t.p.name with
        | none => none
        | some name =>
          ((s.setSession a (projectRename t name)).startRestore a).map (fun s => (true, s))

/-! ## Start -/

/-- The directories that `server_fill_projects` looks at. -/
def projectDirs (fs : Fs) (dir : CStr) : List CStr :=
  if fs.lashDirExists dir then
    fs.entries.filterMap (fun e =>
      match e.2, e.1.getLast? with
      | .dir, some name =>
        if e.1 = resolve dir ++ [name] ∧ name.head? ≠ some 46 then some name else none
      | _, _ => none)
  else []

/-- `server_fill_projects` on a list of directories. -/
def fillProjects (s : Server) : List CStr → Server
  | [] => s
  | d :: ds =>
    match projectNewFromDisk s.g.fs s.g.nextAddr s.g.projectsDir d with
    | none => fillProjects s ds
    | some p =>
      fillProjects
        { s with
          g := { s.g with nextAddr := s.g.nextAddr + 1 }
          project := Function.update s.project s.g.nextAddr p
          all := s.all ++ [s.g.nextAddr] } ds

/-- `server_start`, on a disk and with the directory of the projects. -/
def start (fs : Fs) (projectsDir : CStr) : Server :=
  fillProjects
    { g :=
        { taskIter := 0, projectsDir := projectsDir, fs := fs, forks := [], childs := [],
          nextAddr := 0, log := [] }
      project := projectNew
      loaded := []
      all := [] }
    (projectDirs fs projectsDir)

/-! ## Children -/

/-- `loader_child_find_and_mark_dead`, which the `SIGCHLD` handler calls. -/
def markDead (pid : Int) : List Child → List Child
  | [] => []
  | c :: cs => if c.pid = pid then { c with dead := true } :: cs else c :: markDead pid cs

/-- One round of `loader_childs_bury`: the first dead child leaves the list and its client is
disconnected. -/
def buryOne (s : Server) : Server :=
  match s.g.childs.find? Child.dead with
  | none => s
  | some child =>
    let s := { s with g := { s.g with childs := s.g.childs.eraseP Child.dead } }
    s.disconnect (s.findClientByPid child.pid)

end Server

end Lash
