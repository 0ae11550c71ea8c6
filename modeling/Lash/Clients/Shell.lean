import Lash.Liblash.Args
import Lash.Liblash.Controller
import Lash.Board

/-!
# The shell

The interactive shell under `clients/shell`, a controller with a command line. It keeps a list of
projects with their clients, which `lash_control_cb` changes as the daemon announces what it does,
and one of the projects is selected. The commands of the user are about the selected project.

What is printed is left out.
-/

namespace Lash

/-! ## What the shell knows -/

/-- `client_t` of the shell -/
structure ShellClient where
  id : Uuid
  name : Option CStr
  jackClientName : Option CStr
  alsaClientId : UInt8

/-- `project_t` of the shell -/
structure ShellProject where
  addr : Addr
  name : CStr
  /-- NULL until the project moves. -/
  dir : Option CStr
  clients : List ShellClient

/-- `lash_control_t` -/
structure LashControl where
  projects : List ShellProject
  /-- A pointer into the list. -/
  curProject : Option Addr
  nextAddr : Addr

/-- `lash_control_init` -/
def lashControlInit : LashControl where
  projects := []
  curProject := none
  nextAddr := 0

/-- `client_new` of the shell -/
def shellClientNew (id : Uuid) : ShellClient where
  id := id
  name := none
  jackClientName := none
  alsaClientId := 0

/-- `project_new` of the shell -/
def shellProjectNew (addr : Addr) (name : CStr) : ShellProject where
  addr := addr
  name := name
  dir := none
  clients := []

/-- `lash_str_get_alsa_client_id` -/
def lashStrGetAlsaClientId (str : CStr) : UInt8 := str.headD 0

namespace LashControl

/-- `find_project_by_name` -/
def findProjectByName (c : LashControl) (name : CStr) : Option ShellProject :=
  c.projects.find? (fun p => p.name = name)

/-- Change the project that `find_project_by_name` finds, if it finds one. -/
def changeProject (c : LashControl) (name : CStr) (f : ShellProject → ShellProject) :
    LashControl :=
  { c with projects := First.modifyFirst (fun p => p.name = name) f c.projects }

/-- Change the client that `find_client_by_id` finds, if it finds one. -/
def changeClient (c : LashControl) (id : Uuid) (f : ShellClient → ShellClient) : LashControl :=
  let change (p : ShellProject) : ShellProject :=
    { p with clients := First.modifyFirst (fun x => x.id = id) f p.clients }
  { c with
    projects := First.modifyFirst (fun p => p.clients.any (fun x => x.id = id)) change c.projects }

end LashControl

/-- `lash_control_cb` -/
def lashControlCb (c : LashControl) (e : ControlEvent) : LashControl :=
  match e.type with
  | .projectDir => c.changeProject e.string1 (fun p => { p with dir := some e.string2 })
  | .projectName => c.changeProject e.string1 (fun p => { p with name := e.string2 })
  | .projectAdd =>
    { projects := c.projects ++ [shellProjectNew c.nextAddr e.string1]
      -- set the current project if it is the only one
      curProject := if c.projects.length + 1 = 1 then some c.nextAddr else c.curProject
      nextAddr := c.nextAddr + 1 }
  | .projectRemove =>
    match c.findProjectByName e.string1 with
    | none => c
    | some project => { c with
        projects := c.projects.eraseP (fun p => p.name = e.string1)
        curProject := if c.curProject = some project.addr then none else c.curProject }
  | .clientAdd =>
    c.changeProject e.string1 (fun p => { p with
      clients := p.clients ++ [shellClientNew e.clientId] })
  | .clientRemove =>
    if e.clientId = 0 then c
    else c.changeProject e.string1 (fun p => { p with
      clients := p.clients.eraseP (fun x => x.id = e.clientId) })
  | .clientName =>
    if e.clientId = 0 then c
    else c.changeClient e.clientId (fun x => { x with name := some e.string1 })
  | .jackClientName =>
    if e.clientId = 0 then c
    else c.changeClient e.clientId (fun x => { x with jackClientName := some e.string1 })
  | .alsaClientId =>
    if e.clientId = 0 then c
    else c.changeClient e.clientId (fun x => { x with
      alsaClientId := lashStrGetAlsaClientId e.string1 })
  | .percentage => c

/-- The shell hears a signal. -/
def LashControl.hear (c : LashControl) (m : SignalMessage) : LashControl :=
  match controlEvent m with
  | none => c
  | some e => lashControlCb c e

/-! ## Commands -/

/-- What comes of a command: the list, perhaps a request, and whether the shell is left. -/
structure Dealt where
  control : LashControl
  request : Option ControlRequest
  done : Bool

namespace LashControl

/-- A command that does nothing but print. -/
def prints (c : LashControl) : Dealt := ⟨c, none, false⟩

/-- A command that tells the daemon something. -/
def tells (c : LashControl) (r : Option ControlRequest) : Dealt := ⟨c, r, false⟩

/-- The project behind a pointer: `none` where it has been freed. -/
def deref (c : LashControl) (a : Addr) : Option ShellProject :=
  c.projects.find? (fun p => p.addr = a)

/-- A command about the selected project. Here and below `none` is a read of freed memory. -/
def withCurProject (c : LashControl) (f : ShellProject → Dealt) : Option Dealt :=
  match c.curProject with
  | none => some c.prints
  | some a => (c.deref a).map f

/-- `command_project` -/
def commandProject (c : LashControl) (arg : Option CStr) : Option Dealt :=
  match arg with
  | none => c.withCurProject (fun _ => c.prints)
  | some arg =>
    match c.findProjectByName arg with
    | none => some c.prints
    | some p => some { c with curProject := some p.addr }.prints

/-- `command_dir` -/
def commandDir (c : LashControl) (arg : Option CStr) : Option Dealt :=
  c.withCurProject (fun p =>
    match arg with
    | none => c.prints
    | some arg =>
      let arg := if arg.getLast? = some 47 then arg.dropLast else arg
      c.tells (lashControlMoveProject p.name arg))

/-- `command_restore` -/
def commandRestore (c : LashControl) (arg : Option CStr) : Option Dealt :=
  match arg with
  | none => some c.prints
  | some arg => some (c.tells (lashControlLoadProjectPath arg))

/-- `command_name` -/
def commandName (c : LashControl) (arg : Option CStr) : Option Dealt :=
  c.withCurProject (fun p =>
    match arg with
    | none => c.prints
    | some arg => c.tells (lashControlNameProject p.name arg))

/-- `command_save` -/
def commandSave (c : LashControl) : Option Dealt :=
  c.withCurProject (fun p => c.tells (lashControlSaveProject p.name))

/-- `command_close` -/
def commandClose (c : LashControl) : Option Dealt :=
  c.withCurProject (fun p => c.tells (lashControlCloseProject p.name))

end LashControl

/-- The argument of a command, what stands behind the first blank. -/
def commandArg (command : CStr) : Option CStr :=
  match (command.dropWhile (fun b => b ≠ 32)).dropWhile isSpace with
  | [] => none
  | arg => some arg

/-- `deal_with_command` -/
def dealWithCommand (c : LashControl) (line : CStr) : Option Dealt :=
  let command := line.dropWhile isSpace
  let arg := commandArg command
  if strncasecmpEq command (cstr "help") 1 then some c.prints
  else if strncasecmpEq command (cstr "list") 1 then some c.prints
  else if strncasecmpEq command (cstr "project") 1 then c.commandProject arg
  else if strncasecmpEq command (cstr "dir") 1 then c.commandDir arg
  else if strncasecmpEq command (cstr "name") 1 then c.commandName arg
  -- `command_remove` does nothing
  else if strncasecmpEq command (cstr "remove") 3 then some c.prints
  else if strncasecmpEq command (cstr "save") 1 then c.commandSave
  else if strncasecmpEq command (cstr "restore") 3 then c.commandRestore arg
  else if strncasecmpEq command (cstr "close") 1 then c.commandClose
  else if strncasecmpEq command (cstr "quit") 1 then some ⟨c, none, true⟩
  else some c.prints

/-! ## Pointers -/

/-- Every project has an address of its own, and the selected one is in the list. -/
structure LashControl.Wf (c : LashControl) : Prop where
  nodup : (c.projects.map ShellProject.addr).Nodup
  bound : ∀ a ∈ c.projects.map ShellProject.addr, a < c.nextAddr
  listed : ∀ a ∈ c.curProject, a ∈ c.projects.map ShellProject.addr

namespace LashControl

variable {c c' : LashControl} {f : ShellProject → ShellProject}

theorem wf_init : lashControlInit.Wf where
  nodup := List.nodup_nil
  bound := fun a ha => absurd ha List.not_mem_nil
  listed := fun a ha => absurd ha (by simp [lashControlInit])

theorem Wf.of_addrs (h : c.Wf)
    (haddr : c'.projects.map ShellProject.addr = c.projects.map ShellProject.addr)
    (hcur : c'.curProject = c.curProject) (hnext : c'.nextAddr = c.nextAddr) : c'.Wf where
  nodup := haddr ▸ h.nodup
  bound := by
    rw [haddr, hnext]
    exact h.bound
  listed := by
    rw [haddr, hcur]
    exact h.listed

theorem Wf.changeProject (h : c.Wf) (name : CStr) (hf : ∀ p, (f p).addr = p.addr) :
    (c.changeProject name f).Wf :=
  h.of_addrs (First.map_modifyFirst (fun p _ => hf p)) rfl rfl

theorem Wf.changeClient (h : c.Wf) (id : Uuid) (f : ShellClient → ShellClient) :
    (c.changeClient id f).Wf :=
  h.of_addrs (First.map_modifyFirst (fun _ _ => rfl)) rfl rfl

theorem Wf.projectAdd (h : c.Wf) (name : CStr) :
    Wf { projects := c.projects ++ [shellProjectNew c.nextAddr name]
         curProject := if c.projects.length + 1 = 1 then some c.nextAddr else c.curProject
         nextAddr := c.nextAddr + 1 } where
  nodup := by
    rw [List.map_append]
    refine h.nodup.append (List.nodup_singleton _) ?_
    intro a ha hnew
    obtain rfl := List.mem_singleton.mp hnew
    exact Nat.lt_irrefl _ (h.bound _ ha)
  bound := by
    intro a ha
    rw [List.map_append, List.mem_append] at ha
    rcases ha with ha | ha
    · exact Nat.lt_succ_of_lt (h.bound a ha)
    · obtain rfl := List.mem_singleton.mp ha
      exact Nat.lt_succ_self _
  listed := by
    intro a ha
    rw [List.map_append, List.mem_append]
    dsimp only at ha
    split at ha
    · obtain rfl := Option.some.inj ha
      exact Or.inr (List.mem_singleton_self _)
    · exact Or.inl (h.listed a ha)

/-- The project that is removed is not selected any more. -/
theorem Wf.projectRemove (h : c.Wf) {name : CStr} {project : ShellProject}
    (hfind : c.findProjectByName name = some project) :
    Wf { c with
      projects := c.projects.eraseP (fun p => p.name = name)
      curProject := if c.curProject = some project.addr then none else c.curProject } where
  nodup := h.nodup.sublist (List.eraseP_sublist.map _)
  bound := fun a ha => h.bound a ((List.eraseP_sublist.map _).subset ha)
  listed := by
    intro a ha
    dsimp only at ha
    split at ha
    · exact absurd ha (by simp)
    · next hne =>
        have hold := (((First.perm_eraseP hfind).map ShellProject.addr).mem_iff).mpr (h.listed a ha)
        rcases List.mem_cons.mp hold with rfl | hmem
        · exact absurd ha hne
        · exact hmem

theorem Wf.cb (h : c.Wf) (e : ControlEvent) : (lashControlCb c e).Wf := by
  obtain ⟨type, str1, str2, id⟩ := e
  -- nothing is said about the client with the null id
  have hclient : ∀ c', c'.Wf → (if id = 0 then c else c').Wf := by
    intro c' hc'
    split
    · exact h
    · exact hc'
  cases type with
  | projectDir => exact h.changeProject str1 (fun _ => rfl)
  | projectName => exact h.changeProject str1 (fun _ => rfl)
  | projectAdd => exact h.projectAdd str1
  | projectRemove =>
      unfold lashControlCb
      dsimp only
      split
      · exact h
      · next project hfind => exact h.projectRemove hfind
  | clientAdd => exact h.changeProject str1 (fun _ => rfl)
  | clientRemove => exact hclient _ (h.changeProject str1 (fun _ => rfl))
  | clientName => exact hclient _ (h.changeClient id _)
  | jackClientName => exact hclient _ (h.changeClient id _)
  | alsaClientId => exact hclient _ (h.changeClient id _)
  | percentage => exact h

theorem Wf.hear (h : c.Wf) (m : SignalMessage) : (c.hear m).Wf := by
  unfold LashControl.hear
  split
  · exact h
  · exact h.cb _

/-! ## What a command is about -/

/-- A command is dealt with: the list stays, and a request that names a project names the selected
one. -/
structure Deals (c : LashControl) (r : Dealt) : Prop where
  wf : r.control.Wf
  projects : r.control.projects = c.projects
  selected : ∀ q ∈ r.request, ∀ name ∈ q.project,
    ∃ p ∈ c.projects, c.curProject = some p.addr ∧ p.name = name

theorem Wf.prints (h : c.Wf) : c.Deals c.prints :=
  ⟨h, rfl, fun q hq => absurd hq (by simp [LashControl.prints])⟩

theorem Wf.tells (h : c.Wf) {p : ShellProject} (hp : p ∈ c.projects)
    (hcur : c.curProject = some p.addr) {r : Option ControlRequest}
    (hr : ∀ q ∈ r, ∃ n : DbusString, n.1 = p.name ∧ q.project = some n.1) :
    c.Deals (c.tells r) := by
  refine ⟨h, rfl, ?_⟩
  intro q hq name hname
  obtain ⟨n, hn, hproject⟩ := hr q hq
  refine ⟨p, hp, hcur, ?_⟩
  rw [hproject, hn] at hname
  exact Option.some.inj hname

/-- The selected project is there. -/
theorem Wf.withCurProject (h : c.Wf) {g : ShellProject → Dealt}
    (hg : ∀ p ∈ c.projects, c.curProject = some p.addr → c.Deals (g p)) :
    ∃ r, c.withCurProject g = some r ∧ c.Deals r := by
  unfold LashControl.withCurProject
  cases hcur : c.curProject with
  | none => exact ⟨_, rfl, h.prints⟩
  | some a =>
      obtain ⟨p, hp, rfl⟩ := List.mem_map.mp (h.listed a hcur)
      refine ⟨g p, ?_, hg p hp hcur⟩
      have hfind : c.deref p.addr = some p := Keyed.find_key h.nodup hp
      dsimp only
      rw [hfind]
      rfl

theorem Wf.commandProject (h : c.Wf) (arg : Option CStr) :
    ∃ r, c.commandProject arg = some r ∧ c.Deals r := by
  unfold LashControl.commandProject
  cases arg with
  | none => exact h.withCurProject (fun _ _ _ => h.prints)
  | some arg =>
      dsimp only
      split
      · exact ⟨_, rfl, h.prints⟩
      · next p hfind =>
          refine ⟨_, rfl, ⟨h.nodup, h.bound, ?_⟩, rfl, ?_⟩
          · intro a ha
            obtain rfl := Option.some.inj ha
            exact List.mem_map_of_mem (List.mem_of_find?_eq_some hfind)
          · exact fun q hq => absurd hq (by simp [LashControl.prints])

/-- **Every line is dealt with**: no project is used that is gone. -/
theorem Wf.dealWithCommand (h : c.Wf) (line : CStr) :
    ∃ r, dealWithCommand c line = some r ∧ c.Deals r := by
  have hprints : ∃ r, some c.prints = some r ∧ c.Deals r := ⟨_, rfl, h.prints⟩
  unfold Lash.dealWithCommand
  dsimp only
  generalize line.dropWhile isSpace = command
  generalize commandArg command = arg
  split_ifs
  · exact hprints
  · exact hprints
  · exact h.commandProject arg
  · refine h.withCurProject (fun p hp hcur => ?_)
    cases arg with
    | none => exact h.prints
    | some arg =>
        refine h.tells hp hcur (fun q hq => ?_)
        obtain ⟨n, _, hn, -, rfl⟩ := controlRequest2_some hq
        exact ⟨n, hn, rfl⟩
  · refine h.withCurProject (fun p hp hcur => ?_)
    cases arg with
    | none => exact h.prints
    | some arg =>
        refine h.tells hp hcur (fun q hq => ?_)
        obtain ⟨n, _, hn, -, rfl⟩ := controlRequest2_some hq
        exact ⟨n, hn, rfl⟩
  · exact hprints
  · refine h.withCurProject (fun p hp hcur => h.tells hp hcur (fun q hq => ?_))
    obtain ⟨n, hn, rfl⟩ := controlRequest_some hq
    exact ⟨n, hn, rfl⟩
  · cases arg with
    | none => exact hprints
    | some arg =>
        refine ⟨_, rfl, h, rfl, ?_⟩
        intro q hq name hname
        obtain ⟨path, -, rfl⟩ := controlRequest_some hq
        exact absurd hname (by simp [ControlRequest.project])
  · refine h.withCurProject (fun p hp hcur => h.tells hp hcur (fun q hq => ?_))
    obtain ⟨n, hn, rfl⟩ := controlRequest_some hq
    exact ⟨n, hn, rfl⟩
  · exact ⟨_, rfl, h, rfl, fun q hq => absurd hq (by simp)⟩
  · exact hprints

end LashControl

end Lash
