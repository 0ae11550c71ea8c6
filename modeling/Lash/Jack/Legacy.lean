import Lash.Jack.Patch
import Lash.Lib.First
import Lash.Lib.Runs

/-!
# The legacy JACK manager

`lashd/jack_mgr.c`, `lashd/jack_fport.c` and the parts of `lashd/jack_mgr_client.c` and
`lashd/jack_patch.c` that are built without jackdbus. The daemon's main thread adds and removes
clients, the manager's own thread handles what the callbacks of JACK have written to its socket;
both hold the lock of the manager while they do it.

What JACK says about the connections of a client (`jack_mgr_get_patches`) is an input. `none` is a
crash: a NULL string is compared.
-/

namespace Lash

open First

namespace Legacy

/-! ## The state -/

/-- `jack_mgr_client_t` -/
structure JackMgrClient where
  name : CStr
  id : Uuid
  patches : List JackPatch
  oldPatches : List JackPatch
  backupPatches : List JackPatch
  deriving DecidableEq

/-- `jack_fport_t`, without its full name, which is only logged. -/
structure JackFport where
  id : Nat
  clientName : CStr
  portName : CStr
  deriving DecidableEq

/-- `jack_mgr_t` -/
structure JackMgr where
  clients : List JackMgrClient
  foreignPorts : List JackFport
  deriving DecidableEq

/-- The JACK server, as far as it is asked: its ports, with their ids, and the connections. -/
structure JackServer where
  ports : List (Nat × CStr)
  connections : List (CStr × CStr)
  deriving DecidableEq

/-- JACK and the manager, with the ports it was notified of and the connections it made. -/
structure JackSystem where
  jack : JackServer
  mgr : JackMgr
  notified : List CStr
  resumed : List (CStr × CStr)
  deriving DecidableEq

/-! ## Names -/

/-- `':'` -/
abbrev colon : UInt8 := 58

/-- The client name and the port name in the full name of a port. -/
def splitName (name : CStr) : Option (CStr × CStr) :=
  if colon ∈ name then some (name.takeWhile (· ≠ colon), (name.dropWhile (· ≠ colon)).tail)
  else none

/-- The name is split at its first colon. -/
theorem splitName_append {client : CStr} (h : colon ∉ client) (port : CStr) :
    splitName (client ++ colon :: port) = some (client, port) := by
  have hfree : ∀ b ∈ client, decide (b ≠ colon) = true := by
    intro b hb
    refine decide_eq_true ?_
    rintro rfl
    exact h hb
  have htake : (client ++ colon :: port).takeWhile (· ≠ colon) = client := by
    rw [List.takeWhile_append_of_pos hfree, List.takeWhile_cons_of_neg (by simp), List.append_nil]
  have hdrop : (client ++ colon :: port).dropWhile (· ≠ colon) = colon :: port := by
    rw [List.dropWhile_append_of_pos hfree, List.dropWhile_cons_of_neg (by simp)]
  rw [splitName, if_pos (by simp), htake, hdrop, List.tail_cons]

/-- A name that can be split can be put together again. -/
theorem splitName_join {name : CStr} (h : colon ∈ name) :
    ∃ client port, splitName name = some (client, port) ∧ client ++ colon :: port = name := by
  obtain ⟨client, port, rfl, hfirst⟩ := List.eq_append_cons_of_mem h
  exact ⟨client, port, splitName_append hfirst port, rfl⟩

/-- `jack_patch_set_src_desc`, `jack_patch_set_dest_desc` -/
def patchDesc (client : Option CStr) (id : Uuid) (port : CStr) : CStr :=
  client.getD (uuidUnparse id) ++ colon :: port

/-! ## Patches and clients -/

/-- `jack_patch_set_client_id`: the id of the first client with the name, else the id that was
there. -/
def jackPatchSetClientId (clients : List JackMgrClient) (name : CStr) (id : Uuid) : Uuid :=
  ((clients.find? (fun c => c.name = name)).map JackMgrClient.id).getD id

/-- `jack_patch_set`, for a patch that has both names. -/
def jackPatchSet (clients : List JackMgrClient) (patch : JackPatch) : JackPatch :=
  { patch with
    srcClientId := jackPatchSetClientId clients (patch.srcClient.getD []) patch.srcClientId
    destClientId := jackPatchSetClientId clients (patch.destClient.getD []) patch.destClientId }

/-- `jack_patch_unset_client_id`, for one end of a patch. The test after the loop is for a NULL
list: where no client has the id, the name of the last one is taken. -/
def jackPatchUnsetClientId (clients : List JackMgrClient) (id : Uuid) (name : Option CStr) :
    Option CStr :=
  if id = 0 then name
  else ((clients.find? (fun c => c.id = id)).or clients.getLast?).map JackMgrClient.name

/-- `jack_patch_unset` -/
def jackPatchUnset (clients : List JackMgrClient) (patch : JackPatch) : JackPatch :=
  { patch with
    srcClient := jackPatchUnsetClientId clients patch.srcClientId patch.srcClient
    destClient := jackPatchUnsetClientId clients patch.destClientId patch.destClient }

/-- Whether a port of a client is one of the ends of a patch. -/
def portMatches (name port : CStr) (patch : JackPatch) : Option Bool :=
  match patch.srcClient with
  | none => none
  | some src =>
    if name = src ∧ port = patch.srcPort then some true
    else patch.destClient.map (fun dest => name = dest && port = patch.destPort)

namespace JackSystem

variable (s : JackSystem)

/-- `jack_mgr_resume_patch`: whether the connection was made. JACK makes it if both ports exist. -/
def resumePatch (patch : JackPatch) : JackSystem × Bool :=
  let src := patchDesc patch.srcClient patch.srcClientId patch.srcPort
  let dest := patchDesc patch.destClient patch.destClientId patch.destPort
  if src ∈ s.jack.ports.map Prod.snd ∧ dest ∈ s.jack.ports.map Prod.snd then
    ({ s with
        jack := { s.jack with connections := s.jack.connections ++ [(src, dest)] }
        resumed := s.resumed ++ [(src, dest)] }, true)
  else (s, false)

/-- `jack_mgr_new_client_port`, for a client with this name and these old patches: the ones that are
left. `jack_patch_unset` always succeeds. -/
def newClientPort (name port : CStr) :
    JackSystem → List JackPatch → Option (JackSystem × List JackPatch)
  | s, [] => some (s, [])
  | s, patch :: rest =>
    let unset := jackPatchUnset s.mgr.clients patch
    match portMatches name port unset with
    | none => none
    | some false => (newClientPort name port s rest).map (fun t => (t.1, patch :: t.2))
    | some true =>
      let r := s.resumePatch unset
      (newClientPort name port r.1 rest).map (fun t => if r.2 then t else (t.1, patch :: t.2))

/-! ## Ports -/

/-- `jack_mgr_port_notification` -/
def portNotification (id : Nat) : Option JackSystem :=
  match s.jack.ports.find? (fun port => port.1 = id) with
  | none => some s
  | some (_, name) =>
    let s := { s with notified := s.notified ++ [name] }
    match splitName name with
    | none => some s
    | some (clientName, portName) =>
      match s.mgr.clients.find? (fun c => c.name = clientName) with
      | some c => (newClientPort clientName portName s c.oldPatches).map (fun t =>
          { t.1 with mgr := { s.mgr with
              clients := modifyFirst (fun d => d.name = clientName)
                (fun d => { d with oldPatches := t.2 }) s.mgr.clients } })
      | none => some { s with mgr := { s.mgr with
          foreignPorts := s.mgr.foreignPorts ++ [{ id, clientName, portName }] } }

/-- `jack_mgr_remove_foreign_port` -/
def removeForeignPort (id : Nat) : JackSystem :=
  { s with mgr :=
    { s.mgr with foreignPorts := s.mgr.foreignPorts.eraseP (fun port => port.id = id) } }

/-- `jack_mgr_check_foreign_ports` -/
def checkForeignPorts : JackSystem :=
  { s with mgr := { s.mgr with
      foreignPorts := s.mgr.foreignPorts.filter (fun port =>
        s.jack.ports.any (fun p => p.1 = port.id)) } }

/-! ## Clients -/

/-- `jack_mgr_client_new`, with what `jack_mgr_add_client` puts into it. -/
def jackMgrClientNew (id : Uuid) (name : CStr) (patches : List JackPatch) : JackMgrClient where
  name := name
  id := id
  patches := []
  oldPatches := patches
  backupPatches := []

/-- The loop of `jack_mgr_check_client_ports`, over the foreign ports of the client. -/
def checkClientPorts (name : CStr) (patches : List JackPatch) (fports : List JackFport) :
    Option (JackSystem × List JackPatch) :=
  fports.foldlM (fun t fport => newClientPort name fport.portName t.1 t.2) (s, patches)

/-- `jack_mgr_add_client` -/
def addClient (id : Uuid) (name : CStr) (patches : List JackPatch) : Option JackSystem :=
  let s' := { s with mgr := { s.mgr with
    clients := s.mgr.clients ++ [jackMgrClientNew id name patches] } }
  (s'.checkClientPorts name patches
    (s.mgr.foreignPorts.filter (fun fport => name = fport.clientName))).map (fun t =>
      { t.1 with mgr := {
          clients := s.mgr.clients ++ [jackMgrClientNew id name t.2]
          foreignPorts := s.mgr.foreignPorts.filter (fun fport => name ≠ fport.clientName) } })

/-- `jack_mgr_remove_client`: the system and the backup. -/
def removeClient (id : Uuid) : JackSystem × List JackPatch :=
  match s.mgr.clients.find? (fun c => c.id = id) with
  | none => (s, [])
  | some client =>
    ({ s with mgr := { s.mgr with clients := s.mgr.clients.eraseP (fun c => c.id = id) } },
      client.backupPatches)

/-! ## Taking stock -/

/-- `jack_mgr_graph_reorder_notification`, with the patches that JACK has for a client name. -/
def graphReorder (patches : CStr → List JackPatch) : JackSystem :=
  checkForeignPorts { s with mgr := { s.mgr with
    clients := s.mgr.clients.map (fun c => { c with patches := patches c.name }) } }

/-- `jack_mgr_backup_patches`, when it is due. -/
def backupPatches : JackSystem :=
  { s with mgr := { s.mgr with
      clients := s.mgr.clients.map (fun c =>
        { c with backupPatches := c.patches.map (jackPatchSet s.mgr.clients) }) } }

end JackSystem

/-! ## Steps -/

/-- Something that happens: to the JACK server, to the thread of the manager, or to the clients. -/
inductive JackInput where
  | registerPort (id : Nat) (name : CStr)
  | unregisterPort (id : Nat)
  | connect (connection : CStr × CStr)
  | disconnect (connection : CStr × CStr)
  /-- A port was registered. -/
  | portRegistered (id : Nat)
  /-- A port was unregistered. -/
  | portUnregistered (id : Nat)
  | graphReorder (patches : CStr → List JackPatch)
  | backup
  | addClient (id : Uuid) (name : CStr) (patches : List JackPatch)
  | removeClient (id : Uuid)

namespace JackSystem

def step (s : JackSystem) : JackInput → Option JackSystem
  | .registerPort id name =>
    some { s with jack := { s.jack with ports := s.jack.ports ++ [(id, name)] } }
  | .unregisterPort id =>
    some { s with jack := { s.jack with ports := s.jack.ports.filter (fun port => port.1 ≠ id) } }
  | .connect c => some { s with jack := { s.jack with connections := s.jack.connections ++ [c] } }
  | .disconnect c =>
    some { s with jack := { s.jack with connections := s.jack.connections.erase c } }
  | .portRegistered id => s.portNotification id
  | .portUnregistered id => some (s.removeForeignPort id)
  | .graphReorder patches => some (s.graphReorder patches)
  | .backup => some s.backupPatches
  | .addClient id name patches => s.addClient id name patches
  | .removeClient id => some (s.removeClient id).1

/-- The manager as `jack_mgr_new` makes it, for a server that may have ports already. -/
def initial (jack : JackServer) : JackSystem where
  jack := jack
  mgr := { clients := [], foreignPorts := [] }
  notified := []
  resumed := []

end JackSystem

/-! ## What the operations change -/

/-- What registering fixes. -/
def JackMgrClient.key (c : JackMgrClient) : Uuid × CStr := (c.id, c.name)

namespace JackSystem

variable {s t u : JackSystem} {name port : CStr} {patches kept : List JackPatch}

/-- The manager stays as it is, and so do the ports. -/
structure Asks (s t : JackSystem) : Prop where
  mgr : t.mgr = s.mgr
  ports : t.jack.ports = s.jack.ports
  notified : t.notified = s.notified
  resumed : ∀ c ∈ s.resumed, c ∈ t.resumed

theorem Asks.refl (s : JackSystem) : Asks s s := ⟨rfl, rfl, rfl, fun _ h => h⟩

theorem Asks.trans (h : Asks s t) (h' : Asks t u) : Asks s u :=
  ⟨h'.mgr.trans h.mgr, h'.ports.trans h.ports, h'.notified.trans h.notified,
    fun c hc => h'.resumed c (h.resumed c hc)⟩

theorem resumePatch_asks (s : JackSystem) (patch : JackPatch) : Asks s (s.resumePatch patch).1 := by
  unfold resumePatch
  dsimp only
  split
  · exact ⟨rfl, rfl, rfl, fun _ hc => List.mem_append_left _ hc⟩
  · exact .refl s

theorem newClientPort_asks (h : newClientPort name port s patches = some (t, kept)) : Asks s t := by
  induction patches generalizing s t kept with
  | nil =>
      obtain ⟨rfl, -⟩ := Prod.mk.inj (Option.some.inj h)
      exact .refl s
  | cons patch rest ih =>
      rw [newClientPort] at h
      dsimp only at h
      split at h
      · exact absurd h (by simp)
      · obtain ⟨⟨u, k⟩, hu, heq⟩ := Option.map_eq_some_iff.mp h
        obtain ⟨rfl, -⟩ := Prod.mk.inj heq
        exact ih hu
      · obtain ⟨⟨u, k⟩, hu, heq⟩ := Option.map_eq_some_iff.mp h
        have hut : u = t := by
          dsimp only at heq
          split at heq <;> exact (Prod.mk.inj heq).1
        rw [← hut]
        exact (resumePatch_asks _ _).trans (ih hu)

theorem checkClientPorts_asks {fports : List JackFport}
    (h : s.checkClientPorts name patches fports = some (t, kept)) : Asks s t := by
  unfold checkClientPorts at h
  refine Runs.foldlM_invariant (I := fun r : JackSystem × List JackPatch => Asks s r.1)
    (.refl s) ?_ h
  intro r fport r' _ hr hr'
  obtain ⟨u, k⟩ := r'
  exact hr.trans (newClientPort_asks hr')

/-- Adding a client adds an entry with its id and its name. -/
theorem addClient_keys {id : Uuid} (h : s.addClient id name patches = some t) :
    t.mgr.clients.map JackMgrClient.key = s.mgr.clients.map JackMgrClient.key ++ [(id, name)] := by
  unfold addClient at h
  dsimp only at h
  obtain ⟨⟨u, kept⟩, -, rfl⟩ := Option.map_eq_some_iff.mp h
  dsimp only
  rw [List.map_append]
  rfl

/-- Removing one takes the first entry with its id out. -/
theorem removeClient_clients (s : JackSystem) (id : Uuid) :
    (s.removeClient id).1.mgr.clients = s.mgr.clients.eraseP (fun c => c.id = id) := by
  unfold removeClient
  split
  · next hnone =>
      rw [List.eraseP_of_forall_not]
      intro c hc
      exact List.find?_eq_none.mp hnone c hc
  · rfl

/-- JACK and the manager's own thread leave the ids and the names of the entries alone. -/
theorem step_keys {i : JackInput} (hadd : ∀ id name patches, i ≠ .addClient id name patches)
    (hremove : ∀ id, i ≠ .removeClient id) (h : s.step i = some t) :
    t.mgr.clients.map JackMgrClient.key = s.mgr.clients.map JackMgrClient.key := by
  cases i with
  | registerPort id name => rw [← Option.some.inj h]
  | unregisterPort id => rw [← Option.some.inj h]
  | connect c => rw [← Option.some.inj h]
  | disconnect c => rw [← Option.some.inj h]
  | portRegistered id =>
      have h : s.portNotification id = some t := h
      unfold portNotification at h
      split at h
      · rw [← Option.some.inj h]
      · dsimp only at h
        split at h
        · rw [← Option.some.inj h]
        · split at h
          · obtain ⟨r, -, rfl⟩ := Option.map_eq_some_iff.mp h
            exact map_modifyFirst (fun _ _ => rfl)
          · rw [← Option.some.inj h]
  | portUnregistered id =>
      rw [← Option.some.inj h]
      rfl
  | graphReorder patches =>
      rw [← Option.some.inj h, graphReorder, checkForeignPorts]
      dsimp only
      rw [List.map_map]
      rfl
  | backup =>
      rw [← Option.some.inj h, backupPatches]
      dsimp only
      rw [List.map_map]
      rfl
  | addClient id name patches => exact absurd rfl (hadd id name patches)
  | removeClient id => exact absurd rfl (hremove id)

end JackSystem

end Legacy

end Lash
