import Lash.Jack.Patch
import Lash.Lib.First
import Lash.Lib.Keyed
import Lash.Lib.Runs

/-!
# The jackdbus manager

`lashd/jackdbus_mgr.c` and `lashd/jack_mgr_client.c`, and what the functions of `server.c` and
`project.c` do to the patches of a client and to the manager: `server_add_client`,
`project_lose_client`, `project_save` and `project_unload`.

The LASH clients of all loaded projects are two lists here, the live ones and the lost ones, with
the fields the manager works on. Where in these lists a client is linked in depends on its
project, which is not modelled, so it may be anywhere.

`none` is a crash of the daemon: a NULL pointer or one to freed memory is followed.
-/

namespace Lash

open First

/-! ## The state -/

/-- `jack_mgr_client_t`. Its memory may have been given back while it is still linked. -/
structure JackMgrClient where
  name : CStr
  id : Uuid
  oldPatches : List JackPatch
  backupPatches : List JackPatch
  jackdbusId : Nat
  pid : Int
  freed : Bool
  deriving DecidableEq

/-- `lashd_jackdbus_mgr_t` -/
structure JackDbusMgr where
  clients : List JackMgrClient
  unknownClients : List JackMgrClient
  graph : Option Graph
  graphVersion : Nat
  deriving DecidableEq

/-- The fields of a LASH client that have to do with JACK. -/
structure SessionClient where
  addr : Nat
  id : Uuid
  pid : Int
  jackPatches : List JackPatch
  jackClientName : Option CStr
  deriving DecidableEq

/-- What the daemon did. -/
inductive JackEvent where
  /-- A `ConnectPortsByName` request. -/
  | request (client1 port1 client2 port2 : CStr)
  /-- A JACK client was bound to the LASH client at this address, and given these old patches. -/
  | bound (client : Nat) (patches : List JackPatch)
  /-- The patches of this client were read from a project file or taken for one. -/
  | recorded (client : Nat) (patches : List JackPatch)
  deriving DecidableEq

structure JackSession where
  jack : JackServer
  mgr : JackDbusMgr
  live : List SessionClient
  lost : List SessionClient
  nextAddr : Nat
  log : List JackEvent

/-! ## Finding -/

/-- `jack_mgr_client_find_by_id` -/
def jackMgrClientFindById (l : List JackMgrClient) (id : Uuid) : Option JackMgrClient :=
  l.find? (fun c => c.id = id)

/-- `jack_mgr_client_find_by_jackdbus_id` -/
def jackMgrClientFindByJackdbusId (l : List JackMgrClient) (id : Nat) : Option JackMgrClient :=
  l.find? (fun c => c.jackdbusId = id)

/-- Walk the list of unknown clients, in which there may be freed ones, to the first one with a
property. -/
def walkUnknown (q : JackMgrClient → Bool) : List JackMgrClient → Option (Option JackMgrClient)
  | [] => some none
  | c :: cs => if c.freed then none else if q c then some (some c) else walkUnknown q cs

/-- `list_add_tail` writes to the last element of the list. -/
def addUnknown (l : List JackMgrClient) (c : JackMgrClient) : Option (List JackMgrClient) :=
  if l.getLast?.any JackMgrClient.freed then none else some (l ++ [c])

/-! ## The graph -/

namespace JackDbusMgr

variable (m : JackDbusMgr)

/-- `lashd_jackdbus_mgr_get_graph`: the reply is dropped if the manager has this version already. -/
def getGraph (j : JackServer) : JackDbusMgr :=
  if ¬ j.running ∨ j.graph.version = m.graphVersion then m
  else { m with graph := some j.graph, graphVersion := j.graph.version }

/-- `lashd_jackdbus_mgr_graph_free` -/
def graphFree : JackDbusMgr := { m with graph := none, graphVersion := 0 }

end JackDbusMgr

/-- `lashd_jackdbus_get_client_pid`: 0 if there is no such client. -/
def getClientPid (j : JackServer) (id : Nat) : Int :=
  if j.running ∧ j.graph.clients.any (fun c => c.id = id) then j.pid id else 0

/-! ## Patches -/

/-- The name of the other end of a patch: what the patch says, else the name of the JACK client that
has the id. -/
def otherEnd (clients : List JackMgrClient) (name : Option CStr) (id : Uuid) : CStr :=
  match name with
  | some n => n
  | none => ((jackMgrClientFindById clients id).map JackMgrClient.name).getD []

/-- `lashd_jackdbus_mgr_new_client_port`: the requests it sends. -/
def newClientPort (clients : List JackMgrClient) (c : JackMgrClient) (clientName portName : CStr) :
    List JackEvent :=
  c.oldPatches.filterMap (fun patch =>
    if patch.srcClientId = c.id ∧ patch.srcPort = portName then
      some (.request clientName portName (otherEnd clients patch.destClient patch.destClientId)
        patch.destPort)
    else if patch.destClientId = c.id ∧ patch.destPort = portName then
      some (.request (otherEnd clients patch.srcClient patch.srcClientId) patch.srcPort clientName
        portName)
    else none)

/-- `lashd_jackdbus_mgr_new_foreign_port`: the requests it sends. -/
def newForeignPort (clients : List JackMgrClient) (clientName portName : CStr) : List JackEvent :=
  clients.flatMap (fun c => c.oldPatches.filterMap (fun patch =>
    if patch.srcClientId = c.id then
      if patch.destClient = some clientName ∧ patch.destPort = portName then
        some (.request c.name patch.srcPort clientName portName)
      else none
    else if patch.srcClient = some clientName ∧ patch.srcPort = portName then
      some (.request clientName portName c.name patch.destPort)
    else none))

/-- `lashd_jackdbus_mgr_get_patch_uuids`, for one end of a patch of a client. -/
def patchUuid (clients : List JackMgrClient) (c : JackMgrClient) (id : Nat) : Option Uuid :=
  if id = c.jackdbusId then some c.id
  else (jackMgrClientFindByJackdbusId clients id).map JackMgrClient.id

/-- A connection has an end at a client. -/
def GraphPatch.touches (p : GraphPatch) (c : JackMgrClient) : Bool :=
  p.srcId = c.jackdbusId || p.destId = c.jackdbusId

/-- `lashd_jackdbus_mgr_del_old_patch`: the client afterwards. -/
def delOldPatch (clients : List JackMgrClient) (c : JackMgrClient) (p : GraphPatch) :
    Option JackMgrClient :=
  if p.touches c then
    (delFitting (patchUuid clients c p.srcId) (patchUuid clients c p.destId) p c.oldPatches).map
      (fun l => { c with oldPatches := l })
  else some c

/-- `lashd_jackdbus_mgr_get_client_data`, for a client that comes after the clients of the manager:
the manager, the client and the requests. -/
def getClientData (m : JackDbusMgr) (c : JackMgrClient) :
    Option (JackDbusMgr × JackMgrClient × List JackEvent) :=
  match m.graph with
  | none => some (m, c, [])
  | some g =>
    match g.clients.find? (fun gc => gc.name = c.name) with
    | none => some (m.graphFree, { c with jackdbusId := 0 }, [])
    | some gc =>
      let c := { c with jackdbusId := gc.id }
      if gc.id = 0 then some (m.graphFree, c, [])
      else if c.oldPatches = [] then some (m, c, [])
      else
        let requests := gc.ports.flatMap (newClientPort (m.clients ++ [c]) c gc.name)
        (g.patches.foldlM (delOldPatch (m.clients ++ [c])) c).map (fun c => (m, c, requests))

/-! ## Binding -/

/-- A JACK client, with the id and the patches of a LASH client. -/
def JackMgrClient.take (jc : JackMgrClient) (lc : SessionClient) : JackMgrClient :=
  { jc with
    id := lc.id
    oldPatches := lc.jackPatches
    backupPatches := jc.backupPatches ++ lc.jackPatches }

/-- The LASH client, without them. -/
def SessionClient.give (lc : SessionClient) (jc : JackMgrClient) : SessionClient :=
  { lc with jackPatches := [], jackClientName := some jc.name }

namespace JackSession

variable (s : JackSession)

/-- Write a LASH client back. -/
def put (lc : SessionClient) : JackSession :=
  { s with
    live := Keyed.put SessionClient.addr lc s.live
    lost := Keyed.put SessionClient.addr lc s.lost }

/-- `lashd_jackdbus_mgr_bind_client`, for a JACK client that is in no list. -/
def bind (jc : JackMgrClient) (lc : SessionClient) : Option JackSession :=
  (getClientData (s.mgr.getGraph s.jack) (jc.take lc)).map (fun r =>
    { s.put (lc.give jc) with
      mgr := { r.1 with clients := r.1.clients ++ [r.2.1] }
      log := s.log ++ .bound lc.addr lc.jackPatches :: r.2.2 })

/-- `server_find_client_by_pid`, then `server_find_lost_client_by_pid` -/
def findByPid (pid : Int) : Option SessionClient :=
  (s.live.find? (fun c => c.pid = pid)).or (s.lost.find? (fun c => c.pid = pid))

/-- `jack_mgr_client_new`, with what the callers put into it. -/
def jackMgrClientNew (name : CStr) (id : Nat) (pid : Int) : JackMgrClient where
  name := name
  id := 0
  oldPatches := []
  backupPatches := []
  jackdbusId := id
  pid := pid
  freed := false

/-- `lashd_jackdbus_on_client_appeared` -/
def onClientAppeared (name : CStr) (id : Nat) : Option JackSession :=
  let pid := getClientPid s.jack id
  if pid ≤ 0 then some s
  else
    let jc := jackMgrClientNew name id pid
    match s.findByPid pid with
    | some lc => s.bind jc lc
    | none => (addUnknown s.mgr.unknownClients jc).map (fun l =>
        { s with mgr := { s.mgr with unknownClients := l } })

/-- `lashd_jackdbus_on_client_disappeared` -/
def onClientDisappeared (id : Nat) : Option JackSession :=
  (walkUnknown (fun c => c.jackdbusId = id) s.mgr.unknownClients).map (fun _ =>
    { s with mgr := { s.mgr with
        unknownClients := s.mgr.unknownClients.eraseP (fun c => c.jackdbusId = id) } })

/-! ## Ports -/

/-- `lashd_jackdbus_handle_patchbay_signal`, `PortAppeared` -/
def onPortAppeared (id : Nat) (name port : CStr) : JackSession :=
  match jackMgrClientFindByJackdbusId s.mgr.clients id with
  | some c =>
    if c.oldPatches = [] then s
    else { s with log := s.log ++ newClientPort s.mgr.clients c name port }
  | none => { s with log := s.log ++ newForeignPort s.mgr.clients name port }

/-- The client with a JACK id loses the old patch that is connected now. -/
def dropOldPatch (id : Nat) (p : GraphPatch) : Option JackSession :=
  match jackMgrClientFindByJackdbusId s.mgr.clients id with
  | none => some s
  | some c => (delOldPatch s.mgr.clients c p).map (fun c' =>
      { s with mgr := { s.mgr with
          clients := modifyFirst (fun d => d.jackdbusId = id) (fun _ => c') s.mgr.clients } })

/-- `lashd_jackdbus_mgr_ports_connected` -/
def portsConnected (p : GraphPatch) : Option JackSession :=
  (s.dropOldPatch p.srcId p).bind (fun t =>
    if (jackMgrClientFindByJackdbusId s.mgr.clients p.srcId).isSome ∧ p.srcId = p.destId then some t
    else t.dropOldPatch p.destId p)

/-! ## The server starts and stops -/

/-- The loop of `lashd_jackdbus_mgr_get_unknown_clients`. -/
def addUnknownClients (j : JackServer) (l : List JackMgrClient) :
    List GraphClient → Option (List JackMgrClient)
  | [] => some l
  | gc :: rest =>
    if getClientPid j gc.id ≠ 0 then
      (addUnknown l (jackMgrClientNew gc.name gc.id (getClientPid j gc.id))).bind
        (fun l => addUnknownClients j l rest)
    else addUnknownClients j l rest

/-- `lashd_jackdbus_mgr_get_unknown_clients` -/
def getUnknownClients : Option JackSession :=
  match s.mgr.graph with
  | none => some s
  | some g => (addUnknownClients s.jack s.mgr.unknownClients g.clients).map (fun l =>
      { s with mgr := { s.mgr with unknownClients := l } })

/-- `ServerStarted` -/
def onServerStarted : Option JackSession :=
  let m : JackDbusMgr := { s.mgr with graphVersion := 0 }
  { s with mgr := m.getGraph s.jack }.getUnknownClients

/-- `lashd_jackdbus_mgr_clear`: the clients are destroyed where they are. -/
def clear : Option JackSession :=
  if s.mgr.unknownClients.any JackMgrClient.freed then none
  else
    let m : JackDbusMgr := { s.mgr with
      unknownClients := s.mgr.unknownClients.map (fun c => { c with freed := true }) }
    some { s with mgr := m.graphFree }

/-! ## The patches of a LASH client -/

/-- `lashd_jackdbus_mgr_remove_client`: the manager and the backup, if the client is known. -/
def removeClient (m : JackDbusMgr) (id : Uuid) : Option (JackDbusMgr × List JackPatch) :=
  (jackMgrClientFindById m.clients id).map (fun c =>
    ({ m with clients := m.clients.eraseP (fun d => d.id = id) }, c.backupPatches))

/-- `lashd_jackdbus_mgr_get_client_patches`: the manager, with a new backup, and the patches. -/
def getClientPatches (m : JackDbusMgr) (id : Uuid) : Option (JackDbusMgr × List JackPatch) :=
  match m.graph, jackMgrClientFindById m.clients id with
  | some g, some c =>
    let patches := (g.patches.filter (fun p => p.touches c)).map (fun p =>
      jackPatchNewWithAll (patchUuid m.clients c p.srcId) (patchUuid m.clients c p.destId)
        p.srcName p.destName p.srcPort p.destPort)
    let clients := modifyFirst (fun d => d.id = id) (fun d => { d with backupPatches := patches })
      m.clients
    some ({ m with clients := clients }, patches)
  | _, _ => none

/-- `project_create_client_jack_patch_xml`, if the client has a JACK client name. -/
def writePatches (lc : SessionClient) : JackSession :=
  if lc.jackClientName = none then s
  else
    match getClientPatches s.mgr lc.id with
    | none => s
    | some (m, patches) => { s with mgr := m, log := s.log ++ [.recorded lc.addr patches] }

/-- `project_create_xml`, for the project that has these clients. -/
def writeInfo (addrs : List Nat) : JackSession :=
  (s.live.filter (fun c => c.addr ∈ addrs)).foldl writePatches s

/-! ## LASH clients -/

/-- A client of a project that is loaded, with the patches in its file. -/
def restoreClient (r : Uuid × List JackPatch) : JackSession :=
  let lc : SessionClient :=
    { addr := s.nextAddr, id := r.1, pid := 0, jackPatches := r.2, jackClientName := none }
  { s with
    lost := lc :: s.lost
    nextAddr := s.nextAddr + 1
    log := s.log ++ [.recorded lc.addr r.2] }

/-- `loader_execute`, for a lost client: it gets the pid of the child, or 0. -/
def launch (addr : Nat) (pid : Int) : JackSession :=
  { s with lost := s.lost.map (fun c => if c.addr = addr then { c with pid := pid } else c) }

/-- The client of a `Connect` call, and the session with it: the lost client with the pid, or a new
one. -/
def connected (pid : Int) (id : Uuid) (place : Nat) : JackSession × SessionClient :=
  match (if pid = 0 then none else s.lost.find? (fun c => c.pid = pid)) with
  | some lc =>
    ({ s with
        lost := Keyed.del SessionClient.addr lc.addr s.lost
        live := s.live.insertIdx (min place s.live.length) lc }, lc)
  | none =>
    let lc : SessionClient :=
      { addr := s.nextAddr, id := id, pid := pid, jackPatches := [], jackClientName := none }
    ({ s with
        live := s.live.insertIdx (min place s.live.length) lc
        nextAddr := s.nextAddr + 1 }, lc)

/-- `server_add_client` -/
def serverAddClient (pid : Int) (id : Uuid) (place : Nat) : Option JackSession :=
  let (t, lc) := s.connected pid id place
  match walkUnknown (fun c => c.pid = pid) t.mgr.unknownClients with
  | none => none
  | some none => some t
  | some (some jc) =>
    { t with mgr := { t.mgr with
        unknownClients := t.mgr.unknownClients.eraseP (fun c => c.pid = pid) } }.bind jc lc

/-- What `project_lose_client` does with the patches of a client that has a JACK client name: the
backup comes back. -/
def takeBack (lc : SessionClient) : JackDbusMgr × SessionClient :=
  if lc.jackClientName = none then (s.mgr, lc)
  else
    match removeClient s.mgr lc.id with
    | none => (s.mgr, lc)
    | some (m, patches) => (m, { lc with jackPatches := patches ++ lc.jackPatches })

/-- `project_lose_client` -/
def loseClient (lc : SessionClient) (place : Nat) : JackSession :=
  let r := s.takeBack lc
  { s with
    mgr := r.1
    live := Keyed.del SessionClient.addr lc.addr s.live
    lost := s.lost.insertIdx (min place s.lost.length) { r.2 with pid := 0 } }

/-- `project_unload`, for the project that has these clients. -/
def unload (addrs : List Nat) : JackSession :=
  { s with
    mgr := (s.live.filter (fun c => c.addr ∈ addrs ∧ c.jackClientName ≠ none)).foldl
      (fun m c => ((removeClient m c.id).map Prod.fst).getD m) s.mgr
    live := s.live.filter (fun c => c.addr ∉ addrs)
    lost := s.lost.filter (fun c => c.addr ∉ addrs) }

end JackSession

/-! ## Steps -/

/-- Something that happens: to the JACK server, which sends a signal, or to the LASH clients. -/
inductive JackInput where
  | clientAppeared (id : Nat) (name : CStr) (pid : Int)
  | clientDisappeared (id : Nat)
  | portAppeared (id : Nat) (port : CStr)
  /-- The daemon does not listen to the signal. -/
  | portDisappeared (id : Nat) (port : CStr)
  | portsConnected (p : GraphPatch)
  | portsDisconnected (p : GraphPatch)
  | serverStarted (graph : Graph) (pid : Nat → Int)
  | serverStopped
  /-- A project is loaded. -/
  | load (clients : List (Uuid × List JackPatch))
  | launch (addr : Nat) (pid : Int)
  | connect (pid : Int) (id : Uuid) (place : Nat)
  | lose (addr : Nat) (place : Nat)
  /-- The beginning of `project_save`. -/
  | save
  /-- The lost clients of a project that is saved are forgotten. -/
  | clearLost (addrs : List Nat)
  /-- The end of a save. -/
  | writeInfo (addrs : List Nat)
  | unload (addrs : List Nat)

namespace JackSession

/-- The session after the JACK server changed and the daemon handled the signal. -/
def step (s : JackSession) : JackInput → Option JackSession
  | .clientAppeared id name pid =>
    { s with jack := s.jack.addClient id name pid }.onClientAppeared name id
  | .clientDisappeared id => { s with jack := s.jack.delClient id }.onClientDisappeared id
  | .portAppeared id port =>
    some ({ s with jack := s.jack.addPort id port }.onPortAppeared id
      ((s.jack.clientName id).getD []) port)
  | .portDisappeared id port => some { s with jack := s.jack.delPort id port }
  | .portsConnected p => { s with jack := s.jack.connect p }.portsConnected p
  | .portsDisconnected p => some { s with jack := s.jack.disconnect p }
  | .serverStarted graph pid => { s with jack := { running := true, graph, pid } }.onServerStarted
  | .serverStopped => { s with jack := { s.jack with running := false } }.clear
  | .load clients => some (clients.foldl restoreClient s)
  | .launch addr pid => some (s.launch addr pid)
  | .connect pid id place => s.serverAddClient pid id place
  | .lose addr place =>
    match s.live.find? (fun c => c.addr = addr) with
    | none => some s
    | some lc => some (s.loseClient lc place)
  | .save => some { s with mgr := s.mgr.getGraph s.jack }
  | .clearLost addrs => some { s with lost := s.lost.filter (fun c => c.addr ∉ addrs) }
  | .writeInfo addrs => some (s.writeInfo addrs)
  | .unload addrs => some (s.unload addrs)

/-- The manager as `lashd_jackdbus_mgr_new` makes it while no JACK server is running. One that is
running already is one that starts at once. -/
def initial : JackSession where
  jack := { running := false, graph := { version := 0, clients := [], patches := [] }, pid :=
    fun _ => 0 }
  mgr := { clients := [], unknownClients := [], graph := none, graphVersion := 0 }
  live := []
  lost := []
  nextAddr := 0
  log := []

/-- The ids of all LASH clients. -/
def ids (s : JackSession) : List Uuid := (s.live ++ s.lost).map SessionClient.id

/-- What the JACK server and `uuid_generate` promise: ids and names are not used twice, a client
that does something is there, and graph versions count from 1. -/
def Promised (s : JackSession) : JackInput → Prop
  | .clientAppeared id name _ => s.jack.running = true ∧ id ≠ 0 ∧
      ∀ c ∈ s.jack.graph.clients, c.id ≠ id ∧ c.name ≠ name
  | .clientDisappeared id => s.jack.running = true ∧ ∃ c ∈ s.jack.graph.clients, c.id = id
  | .portAppeared id port => s.jack.running = true ∧
      ∃ c ∈ s.jack.graph.clients, c.id = id ∧ port ∉ c.ports
  | .portDisappeared id port => s.jack.running = true ∧ s.jack.HasPort id port
  | .portsConnected p => s.jack.running = true ∧ s.jack.HasPort p.srcId p.srcPort ∧
      s.jack.HasPort p.destId p.destPort ∧ s.jack.clientName p.srcId = some p.srcName ∧
        s.jack.clientName p.destId = some p.destName
  | .portsDisconnected p => s.jack.running = true ∧ p ∈ s.jack.graph.patches
  | .serverStarted g _ => s.jack.running = false ∧ g.version ≠ 0 ∧
      (g.clients.map GraphClient.id).Nodup ∧ (g.clients.map GraphClient.name).Nodup ∧
        ∀ c ∈ g.clients, c.id ≠ 0
  | .serverStopped => s.jack.running = true
  | .load clients => (s.ids ++ clients.map Prod.fst).Nodup
  | .connect _ id _ => id ∉ s.ids ∧ ∀ e ∈ s.mgr.clients, e.id ≠ id
  | _ => True

instance (id : Nat) (port : CStr) (j : JackServer) : Decidable (j.HasPort id port) :=
  inferInstanceAs (Decidable (∃ c ∈ j.graph.clients, _))

instance (s : JackSession) (i : JackInput) : Decidable (s.Promised i) := by
  rcases i <;> unfold Promised <;> infer_instance

end JackSession

end Lash
