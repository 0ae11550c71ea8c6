import Lash.Project

/-!
# How clients and projects come and go

The rest of `lashd/project.c` and `lashd/client.c`: clients that join, are lost and are resumed, and
projects that are loaded, moved, renamed and unloaded.
-/

namespace Lash

/-! ## Clients -/

/-- The beginning of `project_new_client`: the client has an id, a data path and, if it needs one, a
store. -/
def newClientPrepare (p : Project) (fs : Fs) (c : Client) (id : Uuid) : Client × Fs :=
  let c := { c with id := id, idStr := uuidUnparse id }
  let c := { c with dataPath := some (projectGetClientDir p c) }
  if configDataSet c.flags then (clientStoreOpen fs c (projectGetClientConfigDir p c)).2
  else (c, fs)

/-- `project_new_client`; `id` is what `uuid_generate` returns. -/
def projectNewClient (s : Session) (c : Client) (id : Uuid) : Option Session :=
  let (c, fs) := newClientPrepare s.p s.g.fs c id
  let s := { s with p := { s.p with clients := c :: s.p.clients } }.setFs
    (fs.lashCreateDir (c.dataPath.getD []))
  match projectNameClient s.p c with
  | none => none
  | some c =>
    let s := projectSetModifiedStatus (s.put c) true
    some (s.emit (.clientAppeared s.p.addr c.idStr s.p.name (c.name.getD [])))

/-- What `project_lose_client` does with the store of the client: it is written, or removed if it is
empty. -/
def loseStore (fs : Fs) (c : Client) : Client × Fs :=
  match c.store with
  | none => (c, fs)
  | some st =>
    if ¬ configDataSet c.flags then (c, fs)
    else if st.keys ≠ [] then
      let (_, st, fs) := storeWrite st fs
      ({ c with store := some st }, fs)
    else (c, if fs.lashDirExists st.dir then fs.lashRemoveDir st.dir else fs)

/-- `project_lose_client` removes directories that are empty. -/
def loseDirs (p : Project) (fs : Fs) (c : Client) : Fs :=
  if hasInternalState c.flags then
    let dir := c.dataPath.getD []
    let fs := if fs.lashDirExists dir ∧ fs.lashDirEmpty dir then fs.lashRemoveDir dir else fs
    let dir := lashGetFqn p.directory projectIdDir
    if fs.lashDirExists dir ∧ fs.lashDirEmpty dir then fs.lashRemoveDir dir else fs
  else fs

/-- `project_lose_client`; the client is in no list. -/
def projectLoseClient (s : Session) (c : Client) : Session :=
  let s := s.emit (.lost s.p.addr c.addr)
  let (c, fs) := loseStore s.g.fs c
  let fs := loseDirs s.p fs c
  let c := { c with pid := 0 }
  let s := { s with p := { s.p with lostClients := c :: s.p.lostClients } }.setFs fs
  let s := projectSetModifiedStatus s true
  s.emit (.clientDisappeared s.p.addr c.idStr s.p.name)

/-- `client_disconnected` -/
def clientDisconnected (s : Session) (c : Client) : Session :=
  projectLoseClient { s with p := { s.p with clients := delClient c.addr s.p.clients } } c

/-- The beginning of `client_resume_project`: the client has a data path, its directory is there,
and it is in no list. -/
def resumePrepare (s : Session) (c : Client) : Session × Client :=
  let s := s.emit (.resumed s.p.addr c.addr)
  let c := if c.dataPath.getD [] = [] then
    { c with dataPath := some (projectGetClientDir s.p c) } else c
  let s := s.setFs (if hasInternalState c.flags then s.g.fs.lashCreateDir (c.dataPath.getD [])
    else s.g.fs)
  ({ s with p := { s.p with lostClients := delClient c.addr s.p.lostClients } }, c)

/-- What `client_resume_project` makes the client load: the session and client afterwards, and
whether the client is taken for a stateless one. -/
def resumeLoad (s : Session) (c : Client) : Option (Session × Client × Bool) :=
  if isSaved c.flags then
    if configFile c.flags then
      let (s, c) := projectLoadFile s c
      some (s, c, false)
    else if configDataSet c.flags then
      (projectLoadDataSet s c).map (fun r => (r.1, r.2, false))
    else some (s, c, true)
  else some (s, c, true)

/-- The client gets a name if it has none. -/
def nameIfUnnamed (p : Project) (c : Client) : Option Client :=
  if c.name.getD [] = [] then projectNameClient p c else some c

/-- The end of `client_resume_project` for a stateless client: it counts as one that has loaded its
data set. -/
def resumeStateless (s : Session) (c : Client) : Session :=
  let c := { c with taskType := .restoreDataSet }
  let (s, c) := projectClientTaskCompleted (s.put c) c
  s.put { c with taskType := .unknown }

/-- `client_resume_project`; the client is in `lost_clients`. -/
def clientResumeProject (s : Session) (c : Client) : Option Session :=
  let (s, c) := resumePrepare s c
  match resumeLoad s c with
  | none => none
  | some (s, c, stateless) =>
    let s : Session := { s with p := { s.p with clients := c :: s.p.clients } }
    match nameIfUnnamed s.p c with
    | none => none
    | some c =>
      let s := (s.put c).emit (.clientAppeared s.p.addr c.idStr s.p.name (c.name.getD []))
      if stateless then some (resumeStateless s c) else some s

/-! ## Loading a project -/

/-- The first `lash_project` element of a document. -/
def rootNode (doc : XmlDoc) : Option XmlNode :=
  doc.find? (fun n => n.isElement && n.name == cstr "lash_project")

/-- One child of the root in `project_load`. -/
def loadNode (s : Session) (n : XmlNode) : Option Session :=
  if n.name = cstr "name" then some { s with p := { s.p with name := n.getContent } }
  else if n.name = cstr "client" then
    match clientParseXml s.p.lostClients (clientNew s.g.nextAddr) n with
    | none => none
    | some c => some
        { g := { s.g with nextAddr := s.g.nextAddr + 1 }
          p := { s.p with lostClients := c :: s.p.lostClients } }
  else some s

/-- `project_load`: the result and the session. A project without a document is a crash. The branch
for a project without a name is left out: every project has had one from the start. -/
def projectLoad (s : Session) : Option (Bool × Session) :=
  match s.p.doc with
  | none => none
  | some doc =>
    match rootNode doc with
    | none => some (false, s)
    | some root =>
      match root.children.foldlM loadNode s with
      | none => none
      | some s =>
        let s := projectLoadNotes s
        some (true, { s with p := { s.p with modifiedStatus := false } })

/-- The name and the description that `project_new_from_disk` finds. -/
def headerNode (p : Project) (n : XmlNode) : Project :=
  if n.name = cstr "name" then { p with name := n.getContent }
  else if n.name = cstr "description" then { p with description := some n.getContent }
  else p

/-- `project_new_from_disk` -/
def projectNewFromDisk (fs : Fs) (addr : Addr) (parentDir projectDir : CStr) : Option Project :=
  let p := { projectNew addr with name := projectDir, directory := lashGetFqn parentDir projectDir }
  if ¬ fs.lashFileExists p.directory then none
  else
    let f := lashGetFqn p.directory projectInfoFile
    if ¬ fs.lashFileExists f then none
    else
      match fs.xmlParseFile f with
      | none => none
      | some doc =>
        match rootNode doc with
        | none => none
        | some root => some (root.children.foldl headerNode { p with doc := some doc })

/-- The loop of `server_project_restore` over the lost clients: those that depend on nothing are
launched. -/
def restoreClients (p : Project) (g : Globals) : List Client → Option (Globals × List Client)
  | [] => some (g, [])
  | c :: rest =>
    let c := clientDependencyInitUnsatisfied (clientDependencyListSanityCheck p.lostClients c)
    if c.unsatisfiedDeps ≠ [] then
      (restoreClients p g rest).map (fun r => (r.1, c :: r.2))
    else
      match projectLaunchClient g p c with
      | none => none
      | some (g, c) => (restoreClients p g rest).map (fun r => (r.1, c :: r.2))

/-! ## Moving, renaming and unloading a project -/

/-- Close the stores of all clients. -/
def closeStores (fs : Fs) : List Client → List Client × Fs
  | [] => ([], fs)
  | c :: rest =>
    let (_, c, fs) := clientStoreClose fs c
    let (rest, fs) := closeStores fs rest
    (c :: rest, fs)

/-- Open the stores of all clients, below the directory of the project. -/
def openStores (p : Project) (fs : Fs) : List Client → List Client × Fs
  | [] => ([], fs)
  | c :: rest =>
    let (_, c, fs) := clientStoreOpen fs c (projectGetClientConfigDir p c)
    let (rest, fs) := openStores p fs rest
    (c :: rest, fs)

/-- `project_move` from the closing of the stores on. -/
def moveProject (s : Session) (newDir : CStr) : Session :=
  let (clients, fs) := closeStores s.g.fs s.p.clients
  let (ok, fs) := fs.rename s.p.directory newDir
  if ¬ ok then { s with p := { s.p with clients := clients } }.setFs fs
  else
    let p := { s.p with directory := newDir }
    let (clients, fs) := openStores p fs clients
    ({ s with p := { p with clients := clients } }.setFs fs).emit
      (.projectPathChanged s.p.addr s.p.name newDir)

/-- `project_move`: nothing happens if `opendir` finds something at the target. -/
def projectMove (s : Session) (newDir : CStr) : Session :=
  if newDir = [] ∨ newDir = s.p.directory then s
  else
    let (found, fs) := s.g.fs.opendir newDir
    match found with
    | .opened | .notDir => s.setFs fs
    | .missing | .failed => moveProject (s.setFs fs) newDir

/-- `project_move` gets as far as the closing of the stores. -/
def Session.TriesMove (s : Session) (newDir : CStr) : Prop :=
  newDir ≠ [] ∧ newDir ≠ s.p.directory ∧
    (s.g.fs.opendir newDir).1 ≠ .opened ∧ (s.g.fs.opendir newDir).1 ≠ .notDir

instance (s : Session) (newDir : CStr) : Decidable (s.TriesMove newDir) :=
  inferInstanceAs (Decidable (_ ∧ _ ∧ _ ∧ _))

/-- What `project_move` comes to. -/
theorem projectMove_cases (s : Session) (newDir : CStr) :
    ¬ s.TriesMove newDir ∧
        (projectMove s newDir = s ∨ projectMove s newDir = s.setFs s.g.fs.next) ∨
      s.TriesMove newDir ∧ projectMove s newDir = moveProject (s.setFs s.g.fs.next) newDir := by
  unfold projectMove Session.TriesMove
  have hnext : (s.g.fs.opendir newDir).2 = s.g.fs.next := rfl
  by_cases hsame : newDir = [] ∨ newDir = s.p.directory
  · rw [if_pos hsame]
    exact Or.inl ⟨fun h => hsame.elim h.1 h.2.1, Or.inl rfl⟩
  · rw [if_neg hsame]
    rw [not_or] at hsame
    rcases hopen : s.g.fs.opendir newDir with ⟨found, fs⟩
    rw [hopen] at hnext
    cases hnext
    cases found with
    | opened => exact Or.inl ⟨fun h => h.2.2.1 rfl, Or.inr rfl⟩
    | notDir => exact Or.inl ⟨fun h => h.2.2.2 rfl, Or.inr rfl⟩
    | missing => exact Or.inr ⟨⟨hsame.1, hsame.2, by simp, by simp⟩, rfl⟩
    | failed => exact Or.inr ⟨⟨hsame.1, hsame.2, by simp, by simp⟩, rfl⟩

/-- A project that is moved is what it was, except for its clients and where it is. -/
theorem projectMove_fields (s : Session) (newDir : CStr) :
    ∃ d l, (d = s.p.directory ∨ d = newDir) ∧
      (projectMove s newDir).p = { s.p with directory := d, clients := l } := by
  rcases projectMove_cases s newDir with ⟨-, h | h⟩ | ⟨-, h⟩
  · rw [h]
    exact ⟨_, _, Or.inl rfl, rfl⟩
  · rw [h]
    exact ⟨_, _, Or.inl rfl, rfl⟩
  · rw [h]
    unfold moveProject
    dsimp only
    split
    · exact ⟨_, _, Or.inl rfl, rfl⟩
    · exact ⟨_, _, Or.inr rfl, rfl⟩

/-- `project_rename` -/
def projectRename (s : Session) (newName : CStr) : Session :=
  let s' : Session := { s with p := { s.p with
    moveOnClose := if s.p.name ≠ newName then true else s.p.moveOnClose
    name := newName } }
  projectSetModifiedStatus (s'.emit (.projectNameChanged s.p.addr s.p.name newName)) true

/-- `project_set_description` -/
def projectSetDescription (s : Session) (description : CStr) : Session :=
  projectSetModifiedStatus
    ({ s with p := { s.p with description := some description } }.emit
      (.projectDescriptionChanged s.p.addr s.p.name description)) true

/-- `project_set_notes` -/
def projectSetNotes (s : Session) (notes : CStr) : Session :=
  projectSetModifiedStatus
    ({ s with p := { s.p with notes := some notes } }.emit
      (.projectNotesChanged s.p.addr s.p.name notes)) true

/-- Where `project_unload` moves a renamed project: slashes in the name become blanks. -/
def moveOnCloseTarget (projectsDir name : CStr) : CStr :=
  lashGetFqn projectsDir (name.map (fun b => if b = slash then 32 else b))

/-- The move of `project_unload`. -/
def unloadMove (s : Session) : Session :=
  if s.p.moveOnClose then projectMove s (moveOnCloseTarget s.g.projectsDir s.p.name) else s

/-- A project that was never saved leaves no directory behind. -/
def unloadRemove (s : Session) : Session :=
  if s.p.doc.isNone ∧ s.g.fs.lashDirExists s.p.directory then
    s.setFs (s.g.fs.lashRemoveDir s.p.directory)
  else s

/-- `project_unload`, apart from unlinking the project from `loaded_projects`. -/
def projectUnload (s : Session) : Session :=
  let s := s.emit (.quit s.p.addr s.p.name)
  unloadRemove (unloadMove { s with p := { s.p with clients := [], lostClients := [] } })

end Lash
