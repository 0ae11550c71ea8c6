import Lash.Types
import Lash.Lib.First
import Lash.Lib.Runs

/-!
# The ALSA manager

`lashd/alsa_mgr.c`, `lashd/alsa_client.c` and `lashd/alsa_patch.c`. The daemon's main thread adds
and removes clients, the manager's own thread handles the announcements of the sequencer; both
hold the lock of the manager while they do it, so they take turns.

Of a subscription only the two addresses are modelled: the queue, the time stamps and the
exclusive flag are copied along and never looked at. The `printf` of `alsa_mgr_resume_patch` is
the list `resumed`.
-/

namespace Lash

open First

/-! ## Patches -/

/-- `snd_seq_addr_t` -/
structure AlsaAddr where
  client : UInt8
  port : UInt8
  deriving DecidableEq

/-- `alsa_patch_t` -/
structure AlsaPatch where
  sender : AlsaAddr
  dest : AlsaAddr
  srcId : Uuid
  destId : Uuid
  deriving DecidableEq

/-- `alsa_client_t` -/
structure AlsaClient where
  clientId : UInt8
  id : Uuid
  patches : List AlsaPatch
  oldPatches : List AlsaPatch
  backupPatches : List AlsaPatch
  deriving DecidableEq

/-- `alsa_mgr_t`; a foreign port is the address of a port of a client that has not registered. -/
structure AlsaMgr where
  clients : List AlsaClient
  foreignPorts : List AlsaAddr
  deriving DecidableEq

/-- The sequencer: its ports and the subscriptions between them. -/
structure Sequencer where
  ports : List AlsaAddr
  subs : List (AlsaAddr × AlsaAddr)
  deriving DecidableEq

/-- The sequencer and the manager, with the ports that were announced to it and the subscriptions it
made. -/
structure AlsaSystem where
  seq : Sequencer
  mgr : AlsaMgr
  announced : List AlsaAddr
  resumed : List (AlsaAddr × AlsaAddr)
  deriving DecidableEq

/-- `alsa_mgr_get_client` -/
def alsaMgrGetClient (clients : List AlsaClient) (id : Uuid) : Option AlsaClient :=
  clients.find? (fun c => c.id = id)

/-- `alsa_client_new`, with what `alsa_mgr_add_client` puts into it. -/
def alsaClientNew (id : Uuid) (clientId : UInt8) (patches : List AlsaPatch) : AlsaClient where
  clientId := clientId
  id := id
  patches := []
  oldPatches := patches
  backupPatches := []

/-- `alsa_patch_set_client_id`: the id of the first client that has the ALSA id, else the id that
was there. -/
def alsaPatchSetClientId (clients : List AlsaClient) (clientId : UInt8) (id : Uuid) : Uuid :=
  ((clients.find? (fun c => c.clientId = clientId)).map AlsaClient.id).getD id

/-- `alsa_patch_set` -/
def alsaPatchSet (clients : List AlsaClient) (patch : AlsaPatch) : AlsaPatch :=
  { patch with
    srcId := alsaPatchSetClientId clients patch.sender.client patch.srcId
    destId := alsaPatchSetClientId clients patch.dest.client patch.destId }

/-- `alsa_patch_unset_client_id`, for the address of one end, which is left alone if the patch has
no id there. -/
def alsaPatchUnsetClientId (clients : List AlsaClient) (id : Uuid) (addr : AlsaAddr) :
    Option AlsaAddr :=
  if id = 0 then some addr
  else (alsaMgrGetClient clients id).map (fun c => { addr with client := c.clientId })

/-- `alsa_patch_unset`: `none` if a client was not found. -/
def alsaPatchUnset (clients : List AlsaClient) (patch : AlsaPatch) : Option AlsaPatch :=
  match alsaPatchUnsetClientId clients patch.srcId patch.sender,
    alsaPatchUnsetClientId clients patch.destId patch.dest with
  | some sender, some dest => some { patch with sender, dest }
  | _, _ => none

/-! ## Resuming -/

namespace AlsaSystem

variable (s : AlsaSystem)

/-- `alsa_mgr_resume_patch`: whether the subscription was made. The sequencer makes it if both ports
exist. -/
def resumePatch (patch : AlsaPatch) : AlsaSystem × Bool :=
  if patch.sender ∈ s.seq.ports ∧ patch.dest ∈ s.seq.ports then
    ({ s with
        seq := { s.seq with subs := s.seq.subs ++ [(patch.sender, patch.dest)] }
        resumed := s.resumed ++ [(patch.sender, patch.dest)] }, true)
  else (s, false)

/-- The loop of `alsa_mgr_new_client_port` over the old patches of a client: the ones that are
left. -/
def resumePatches (client : AlsaClient) (port : UInt8) :
    AlsaSystem → List AlsaPatch → AlsaSystem × List AlsaPatch
  | s, [] => (s, [])
  | s, patch :: rest =>
    match alsaPatchUnset s.mgr.clients patch with
    | none => resumePatches client port s rest
    | some unset =>
      if (client.clientId = unset.sender.client ∧ port = unset.sender.port) ∨
          (client.clientId = unset.dest.client ∧ port = unset.dest.port) then
        let r := s.resumePatch unset
        let t := resumePatches client port r.1 rest
        if r.2 then t else (t.1, patch :: t.2)
      else
        let t := resumePatches client port s rest
        (t.1, patch :: t.2)

/-- `alsa_mgr_new_client_port` -/
def newClientPort (id : Uuid) (port : UInt8) : AlsaSystem :=
  match alsaMgrGetClient s.mgr.clients id with
  | none => s
  | some client =>
    let r := resumePatches client port s client.oldPatches
    { r.1 with mgr := { s.mgr with
        clients := modifyFirst (fun c => c.id = id) (fun c => { c with oldPatches := r.2 })
          s.mgr.clients } }

/-! ## Ports -/

/-- `alsa_mgr_new_port` -/
def newPort (addr : AlsaAddr) : AlsaSystem :=
  match s.mgr.clients.find? (fun c => c.clientId = addr.client) with
  | some c => s.newClientPort c.id addr.port
  | none => { s with mgr := { s.mgr with foreignPorts := s.mgr.foreignPorts ++ [addr] } }

/-- `alsa_mgr_port_removed` -/
def portRemoved (addr : AlsaAddr) : AlsaSystem :=
  { s with mgr := { s.mgr with foreignPorts := s.mgr.foreignPorts.erase addr } }

/-! ## Clients -/

/-- `alsa_mgr_check_client_fports` -/
def checkClientFports (id : Uuid) : AlsaSystem :=
  match alsaMgrGetClient s.mgr.clients id with
  | none => s
  | some client =>
    let t := (s.mgr.foreignPorts.filter (fun fport => fport.client = client.clientId)).foldl
      (fun t fport => t.newClientPort id fport.port) s
    { t with mgr := { t.mgr with
        foreignPorts := s.mgr.foreignPorts.filter (fun fport => fport.client ≠ client.clientId) } }

/-- `alsa_mgr_add_client` -/
def addClient (id : Uuid) (clientId : UInt8) (patches : List AlsaPatch) : AlsaSystem :=
  { s with mgr := { s.mgr with
      clients := s.mgr.clients ++ [alsaClientNew id clientId patches] } }.checkClientFports id

/-- `alsa_mgr_remove_client`: the system and the backup. -/
def removeClient (id : Uuid) : AlsaSystem × List AlsaPatch :=
  match alsaMgrGetClient s.mgr.clients id with
  | none => (s, [])
  | some client =>
    ({ s with mgr := { s.mgr with clients := s.mgr.clients.eraseP (fun c => c.id = id) } },
      client.backupPatches)

/-! ## Taking stock -/

/-- `alsa_mgr_redo_client_patches`: the subscriptions of every port of the client, the outgoing ones
first. -/
def clientPatches (clientId : UInt8) : List AlsaPatch :=
  (s.seq.ports.filter (fun addr => addr.client = clientId)).flatMap (fun addr =>
    (s.seq.subs.filter (fun sub => sub.1 = addr) ++ s.seq.subs.filter (fun sub => sub.2 = addr)).map
      (fun sub => { sender := sub.1, dest := sub.2, srcId := 0, destId := 0 }))

/-- `alsa_mgr_redo_patches` -/
def redoPatches : AlsaSystem :=
  { s with mgr := { s.mgr with
      clients := s.mgr.clients.map (fun c => { c with patches := s.clientPatches c.clientId }) } }

/-- `alsa_mgr_backup_patches`, which is due every 30 seconds. -/
def backupPatches (due : Bool) : AlsaSystem :=
  if due then
    { s with mgr := { s.mgr with
        clients := s.mgr.clients.map (fun c =>
          { c with backupPatches := c.patches.map (alsaPatchSet s.mgr.clients) }) } }
  else s

end AlsaSystem

/-! ## Steps -/

/-- Something that happens: to the sequencer, to the thread of the manager, which handles the
announcements, or to the clients. -/
inductive AlsaInput where
  | createPort (addr : AlsaAddr)
  | deletePort (addr : AlsaAddr)
  | subscribe (sub : AlsaAddr × AlsaAddr)
  | unsubscribe (sub : AlsaAddr × AlsaAddr)
  /-- `SND_SEQ_EVENT_PORT_START` -/
  | portStart (addr : AlsaAddr) (due : Bool)
  /-- `SND_SEQ_EVENT_PORT_EXIT` -/
  | portExit (addr : AlsaAddr) (due : Bool)
  /-- `SND_SEQ_EVENT_PORT_SUBSCRIBED` or `SND_SEQ_EVENT_PORT_UNSUBSCRIBED` -/
  | portSubscribed (due : Bool)
  | addClient (id : Uuid) (clientId : UInt8) (patches : List AlsaPatch)
  | removeClient (id : Uuid)

namespace AlsaSystem

def step (s : AlsaSystem) : AlsaInput → Option AlsaSystem
  | .createPort addr => some { s with seq := { s.seq with ports := s.seq.ports ++ [addr] } }
  | .deletePort addr => some { s with seq := { s.seq with ports := s.seq.ports.erase addr } }
  | .subscribe sub => some { s with seq := { s.seq with subs := s.seq.subs ++ [sub] } }
  | .unsubscribe sub => some { s with seq := { s.seq with subs := s.seq.subs.erase sub } }
  | .portStart addr due =>
    some ({ s with announced := s.announced ++ [addr] }.newPort addr |>.backupPatches due)
  | .portExit addr due => some ((s.portRemoved addr).backupPatches due)
  | .portSubscribed due => some (s.redoPatches.backupPatches due)
  | .addClient id clientId patches => some (s.addClient id clientId patches)
  | .removeClient id => some (s.removeClient id).1

/-- The manager as `alsa_mgr_new` makes it, in a sequencer that may have ports already. -/
def initial (seq : Sequencer) : AlsaSystem where
  seq := seq
  mgr := { clients := [], foreignPorts := [] }
  announced := []
  resumed := []

end AlsaSystem

/-! ## What the operations change -/

/-- What registering fixes. -/
def AlsaClient.key (c : AlsaClient) : Uuid × UInt8 := (c.id, c.clientId)

namespace AlsaSystem

/-- The ports, the announcements, the foreign ports and the two ids of every client stay. -/
structure Visits (s t : AlsaSystem) : Prop where
  ports : t.seq.ports = s.seq.ports
  announced : t.announced = s.announced
  foreign : t.mgr.foreignPorts = s.mgr.foreignPorts
  keys : t.mgr.clients.map AlsaClient.key = s.mgr.clients.map AlsaClient.key
  resumed : ∀ sub ∈ s.resumed, sub ∈ t.resumed

variable {s t u : AlsaSystem} {client : AlsaClient} {id id' : Uuid} {port : UInt8}
  {patches : List AlsaPatch}

theorem Visits.refl (s : AlsaSystem) : Visits s s := ⟨rfl, rfl, rfl, rfl, fun _ h => h⟩

theorem Visits.trans (h : Visits s t) (h' : Visits t u) : Visits s u :=
  ⟨h'.ports.trans h.ports, h'.announced.trans h.announced, h'.foreign.trans h.foreign,
    h'.keys.trans h.keys, fun sub hsub => h'.resumed sub (h.resumed sub hsub)⟩

theorem resumePatch_frame (s : AlsaSystem) (patch : AlsaPatch) :
    Visits s (s.resumePatch patch).1 ∧ (s.resumePatch patch).1.mgr = s.mgr := by
  unfold resumePatch
  split
  · exact ⟨⟨rfl, rfl, rfl, rfl, fun sub h => List.mem_append_left _ h⟩, rfl⟩
  · exact ⟨.refl s, rfl⟩

theorem resumePatches_frame (s : AlsaSystem) (client : AlsaClient) (port : UInt8)
    (patches : List AlsaPatch) :
    Visits s (resumePatches client port s patches).1 ∧
      (resumePatches client port s patches).1.mgr = s.mgr := by
  induction patches generalizing s with
  | nil => exact ⟨.refl s, rfl⟩
  | cons patch rest ih =>
      rw [resumePatches]
      split
      · exact ih s
      · next unset _ =>
          split_ifs
          · obtain ⟨hfirst, hmgr⟩ := s.resumePatch_frame unset
            obtain ⟨hrest, hmgr'⟩ := ih (s.resumePatch unset).1
            dsimp only
            split <;> exact ⟨hfirst.trans hrest, hmgr'.trans hmgr⟩
          · exact ih s

/-- `alsa_mgr_new_client_port` changes the old patches of the client with the id. -/
theorem newClientPort_frame (s : AlsaSystem) (id : Uuid) (port : UInt8) :
    Visits s (s.newClientPort id port) ∧ ∀ id', id' ≠ id →
      alsaMgrGetClient (s.newClientPort id port).mgr.clients id'
        = alsaMgrGetClient s.mgr.clients id' := by
  unfold newClientPort
  split
  · exact ⟨.refl s, fun _ _ => rfl⟩
  · next client _ =>
      obtain ⟨hvisits, -⟩ := s.resumePatches_frame client port client.oldPatches
      refine ⟨⟨hvisits.ports, hvisits.announced, rfl, map_modifyFirst (fun _ _ => rfl),
        hvisits.resumed⟩, fun id' hne => ?_⟩
      exact find?_modifyFirst (fun c hc => by
        have hid : c.id = id := by simpa using hc
        simpa [hid] using hne.symm)

theorem getClient_newClientPort (port : UInt8)
    (h : alsaMgrGetClient s.mgr.clients id = some client) :
    alsaMgrGetClient (s.newClientPort id port).mgr.clients id
        = some { client with oldPatches := (resumePatches client port s client.oldPatches).2 } ∧
      (s.newClientPort id port).resumed =
      (resumePatches client port s client.oldPatches).1.resumed := by
  unfold newClientPort
  rw [h]
  exact ⟨find?_modifyFirst_self h (by simpa using List.find?_some h), rfl⟩

/-- `alsa_mgr_add_client`: the foreign ports of the client are its own now. -/
theorem addClient_eq (s : AlsaSystem) (id : Uuid) (clientId : UInt8) (patches : List AlsaPatch) :
    ∃ u e t, u = { s with mgr := { s.mgr with
          clients := s.mgr.clients ++ [alsaClientNew id clientId patches] } } ∧
      alsaMgrGetClient u.mgr.clients id = some e ∧
      t = (s.mgr.foreignPorts.filter (fun fport => fport.client = e.clientId)).foldl
        (fun t fport => t.newClientPort id fport.port) u ∧
      s.addClient id clientId patches = { t with mgr := { t.mgr with
        foreignPorts := s.mgr.foreignPorts.filter (fun fport => fport.client ≠ e.clientId) } } := by
  have hregistered : ∃ e, alsaMgrGetClient (s.mgr.clients ++ [alsaClientNew id clientId patches]) id
      = some e := by
    cases hfind : alsaMgrGetClient (s.mgr.clients ++ [alsaClientNew id clientId patches]) id with
    | some e => exact ⟨e, rfl⟩
    | none =>
        refine absurd ?_ (List.find?_eq_none.mp hfind (alsaClientNew id clientId patches) (by simp))
        simp [alsaClientNew]
  obtain ⟨e, he⟩ := hregistered
  refine ⟨_, e, _, rfl, he, rfl, ?_⟩
  unfold AlsaSystem.addClient AlsaSystem.checkClientFports
  dsimp only
  rw [he]

/-- A run over some foreign ports of a client is like each of its steps. -/
theorem foldl_visits (s : AlsaSystem) (id : Uuid) (fports : List AlsaAddr) :
    Visits s (fports.foldl (fun t fport => t.newClientPort id fport.port) s) := by
  induction fports generalizing s with
  | nil => exact .refl s
  | cons first rest ih =>
      rw [List.foldl_cons]
      exact (s.newClientPort_frame id first.port).1.trans (ih _)

/-- Adding a client adds an entry with its ids. -/
theorem addClient_keys (s : AlsaSystem) (id : Uuid) (clientId : UInt8) (patches : List AlsaPatch) :
    (s.addClient id clientId patches).mgr.clients.map AlsaClient.key
      = s.mgr.clients.map AlsaClient.key ++ [(id, clientId)] := by
  obtain ⟨u, e, t, rfl, -, ht, heq⟩ := s.addClient_eq id clientId patches
  rw [heq]
  show t.mgr.clients.map AlsaClient.key = _
  rw [ht, (foldl_visits _ id _).keys]
  simp [alsaClientNew, AlsaClient.key]

/-- Removing one takes the first entry with its id out. -/
theorem removeClient_clients (s : AlsaSystem) (id : Uuid) :
    (s.removeClient id).1.mgr.clients = s.mgr.clients.eraseP (fun c => c.id = id) := by
  unfold removeClient
  split
  · next hnone =>
      rw [List.eraseP_of_forall_not]
      intro c hc
      exact List.find?_eq_none.mp hnone c hc
  · rfl

theorem backupPatches_keys (s : AlsaSystem) (due : Bool) :
    (s.backupPatches due).mgr.clients.map AlsaClient.key = s.mgr.clients.map AlsaClient.key := by
  unfold backupPatches
  split
  · dsimp only
    rw [List.map_map]
    rfl
  · rfl

/-- The sequencer and the manager's own thread leave the ids of the entries alone. -/
theorem step_keys {i : AlsaInput} (hadd : ∀ id c patches, i ≠ .addClient id c patches)
    (hremove : ∀ id, i ≠ .removeClient id) (h : s.step i = some t) :
    t.mgr.clients.map AlsaClient.key = s.mgr.clients.map AlsaClient.key := by
  cases i with
  | createPort addr => rw [← Option.some.inj h]
  | deletePort addr => rw [← Option.some.inj h]
  | subscribe sub => rw [← Option.some.inj h]
  | unsubscribe sub => rw [← Option.some.inj h]
  | portStart addr due =>
      rw [← Option.some.inj h, backupPatches_keys]
      unfold newPort
      split
      · exact (newClientPort_frame _ _ _).1.keys
      · rfl
  | portExit addr due =>
      rw [← Option.some.inj h, backupPatches_keys]
      rfl
  | portSubscribed due =>
      rw [← Option.some.inj h, backupPatches_keys, redoPatches]
      dsimp only
      rw [List.map_map]
      rfl
  | addClient id c patches => exact absurd rfl (hadd id c patches)
  | removeClient id => exact absurd rfl (hremove id)

end AlsaSystem

end Lash
