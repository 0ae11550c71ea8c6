import Lash.Alsa.Manager
import Lash.Jack.Legacy
import Lash.Lib.Keyed
import Lash.Lib.Register

/-!
# Registering with the patch managers

`lashd_dbus_jack_name` and `lashd_dbus_alsa_id` of `lashd/dbus_iface_server.c`, and what
`project_lose_client`, `client_resume_project` and `project_unload` do to the registration of a
client with the ALSA manager and, in a build without jackdbus, with the JACK manager.

A client struct and the two managers should agree on who has registered. A lost client is taken
out of the managers and keeps its ALSA id and its JACK name, so that it cannot register again when
it is resumed; as long as no such client is resumed they agree (`registrations_agree`).
-/

namespace Lash

open Legacy (JackSystem)

/-! ## The state -/

/-- The fields of a LASH client that have to do with ALSA and JACK. -/
structure PatchClient where
  addr : Nat
  id : Uuid
  pid : Int
  alsaClientId : UInt8
  alsaPatches : List AlsaPatch
  jackClientName : Option CStr
  jackPatches : List JackPatch
  deriving DecidableEq

/-- The managers, and the clients of all loaded projects: the live ones and the lost ones. -/
structure PatchSession where
  alsa : AlsaSystem
  jack : JackSystem
  live : List PatchClient
  lost : List PatchClient
  nextAddr : Nat

namespace PatchSession

variable (s : PatchSession)

/-- The live client at an address. -/
def client (addr : Nat) : Option PatchClient := s.live.find? (fun c => c.addr = addr)

/-! ## Registering -/

/-- `lashd_dbus_alsa_id`, for the client that sends the message. -/
def alsaId (addr : Nat) (alsaId : UInt8) : PatchSession :=
  match s.client addr with
  | none => s
  | some c =>
    -- "Can only set ALSA client ID once"
    if c.alsaClientId ≠ 0 then s
    else
      { s with
        alsa := s.alsa.addClient c.id alsaId c.alsaPatches
        live := Keyed.put PatchClient.addr
          { c with alsaClientId := alsaId, alsaPatches := [] } s.live }

/-- `lashd_dbus_jack_name`, for the client that sends the message. -/
def jackName (addr : Nat) (name : CStr) : Option PatchSession :=
  match s.client addr with
  | none => some s
  | some c =>
    -- "Can only set JACK client name once"
    if c.jackClientName ≠ none then some s
    else
      (s.jack.addClient c.id name c.jackPatches).map (fun jack =>
        { s with
          jack := jack
          live := Keyed.put PatchClient.addr
            { c with jackClientName := some name, jackPatches := [] } s.live })

/-! ## Clients come and go -/

/-- A client of a project that is loaded, with the patches in its file. -/
def restoreClient (r : Uuid × List AlsaPatch × List JackPatch) : PatchSession :=
  let c : PatchClient :=
    { addr := s.nextAddr, id := r.1, pid := 0, alsaClientId := 0, alsaPatches := r.2.1,
      jackClientName := none, jackPatches := r.2.2 }
  { s with lost := c :: s.lost, nextAddr := s.nextAddr + 1 }

/-- The lost client that a `Connect` call from a process resumes. -/
def resumes (pid : Int) : Option PatchClient :=
  if pid = 0 then none else s.lost.find? (fun c => c.pid = pid)

/-- `server_add_client`: `client_resume_project` for a lost client, else a new client. -/
def connect (pid : Int) (id : Uuid) (place : Nat) : PatchSession :=
  match s.resumes pid with
  | some c =>
    { s with
      lost := Keyed.del PatchClient.addr c.addr s.lost
      live := s.live.insertIdx (min place s.live.length) c }
  | none =>
    let c : PatchClient :=
      { addr := s.nextAddr, id := id, pid := pid, alsaClientId := 0, alsaPatches := [],
        jackClientName := none, jackPatches := [] }
    { s with
      live := s.live.insertIdx (min place s.live.length) c
      nextAddr := s.nextAddr + 1 }

/-- What `project_lose_client` and `project_unload` do with the registrations of a client: the
managers without it, and the client with its backups. -/
def takeBack (c : PatchClient) : PatchSession × PatchClient :=
  let j := if c.jackClientName = none then (s.jack, []) else s.jack.removeClient c.id
  let a := if c.alsaClientId = 0 then (s.alsa, []) else s.alsa.removeClient c.id
  ({ s with jack := j.1, alsa := a.1 },
    { c with jackPatches := j.2 ++ c.jackPatches, alsaPatches := a.2 ++ c.alsaPatches })

/-- No backup is handed over. One that is handed over is destroyed with the client of the manager,
and then what lies around the list it was to go to: `project_lose_client` does not survive it. -/
def NoBackup (c : PatchClient) : Prop :=
  (c.jackClientName ≠ none → (s.jack.removeClient c.id).2 = []) ∧
    (c.alsaClientId ≠ 0 → (s.alsa.removeClient c.id).2 = [])

instance (c : PatchClient) : Decidable (s.NoBackup c) :=
  inferInstanceAs (Decidable ((_ → _) ∧ (_ → _)))

/-- `project_lose_client` -/
def loseClient (c : PatchClient) (place : Nat) : PatchSession :=
  let (t, c') := s.takeBack c
  { t with
    live := Keyed.del PatchClient.addr c.addr s.live
    lost := s.lost.insertIdx (min place s.lost.length) { c' with pid := 0 } }

/-- One round of the first loop of `project_unload`. -/
def dismiss (c : PatchClient) : PatchSession :=
  { (s.takeBack c).1 with live := Keyed.del PatchClient.addr c.addr s.live }

/-- `project_unload`, for the project that has these clients. -/
def unload (addrs : List Nat) : PatchSession :=
  let t := (s.live.filter (fun c => c.addr ∈ addrs)).foldl dismiss s
  { t with lost := t.lost.filter (fun c => c.addr ∉ addrs) }

end PatchSession

/-! ## Steps -/

/-- Something that happens to the clients, or to the threads of the managers. -/
inductive PatchInput where
  | load (clients : List (Uuid × List AlsaPatch × List JackPatch))
  /-- `loader_execute`, for a lost client: it gets the pid of the child, or 0. -/
  | launch (addr : Nat) (pid : Int)
  | connect (pid : Int) (id : Uuid) (place : Nat)
  | alsaId (addr : Nat) (alsaId : UInt8)
  | jackName (addr : Nat) (name : CStr)
  | lose (addr : Nat) (place : Nat)
  /-- The lost clients of a project that is saved are forgotten. -/
  | clearLost (addrs : List Nat)
  | unload (addrs : List Nat)
  | alsa (i : AlsaInput)
  | jack (i : Legacy.JackInput)

namespace PatchSession

def step (s : PatchSession) : PatchInput → Option PatchSession
  | .load clients => some (clients.foldl restoreClient s)
  | .launch addr pid =>
    some { s with lost := s.lost.map (fun c => if c.addr = addr then { c with pid := pid } else c) }
  | .connect pid id place => some (s.connect pid id place)
  | .alsaId addr alsaId => some (s.alsaId addr alsaId)
  | .jackName addr name => s.jackName addr name
  | .lose addr place =>
    match s.client addr with
    | none => some s
    | some c => if s.NoBackup c then some (s.loseClient c place) else none
  | .clearLost addrs => some { s with lost := s.lost.filter (fun c => c.addr ∉ addrs) }
  | .unload addrs => some (s.unload addrs)
  | .alsa i => (s.alsa.step i).map (fun alsa => { s with alsa := alsa })
  | .jack i => (s.jack.step i).map (fun jack => { s with jack := jack })

/-- The daemon as it starts. -/
def initial (seq : Sequencer) (server : Legacy.JackServer) : PatchSession where
  alsa := .initial seq
  jack := .initial server
  live := []
  lost := []
  nextAddr := 0

/-- The ids of all clients. -/
def ids (s : PatchSession) : List Uuid := (s.live ++ s.lost).map PatchClient.id

/-- `uuid_generate` makes new ids, and the threads of the managers neither add nor remove clients.
-/
def Promised (s : PatchSession) : PatchInput → Prop
  | .load clients => (s.ids ++ clients.map Prod.fst).Nodup
  | .connect _ id _ => id ∉ s.ids
  | .alsa (.addClient _ _ _) | .alsa (.removeClient _) => False
  | .jack (.addClient _ _ _) | .jack (.removeClient _) => False
  | _ => True

/-- A step that resumes no client that had registered, and registers none under the ALSA id 0. -/
def Clean (s : PatchSession) : PatchInput → Prop
  | .connect pid _ _ => ∀ c ∈ s.resumes pid, c.alsaClientId = 0 ∧ c.jackClientName = none
  | .alsaId _ alsaId => alsaId ≠ 0
  | _ => True

instance (s : PatchSession) (i : PatchInput) : Decidable (s.Promised i) := by
  cases i with
  | alsa i => rcases i <;> unfold Promised <;> infer_instance
  | jack i => rcases i <;> unfold Promised <;> infer_instance
  | _ => unfold Promised; infer_instance

instance (s : PatchSession) (i : PatchInput) : Decidable (s.Clean i) := by
  rcases i <;> unfold Clean <;> infer_instance

/-! ## The registrations agree -/

/-- The fields of the live clients say who has an entry, no lost client has one, and a client
without an entry is let in with its saved patches. -/
structure Agrees (s : PatchSession) : Prop where
  alsa : ∀ c ∈ s.live, c.alsaClientId ≠ 0 ↔
    ∃ e ∈ s.alsa.mgr.clients, e.id = c.id ∧ e.clientId = c.alsaClientId
  jack : ∀ c ∈ s.live, c.jackClientName ≠ none ↔ ∃ e ∈ s.jack.mgr.clients, e.id = c.id
  lost : ∀ c ∈ s.lost, (∀ e ∈ s.alsa.mgr.clients, e.id ≠ c.id) ∧
    ∀ e ∈ s.jack.mgr.clients, e.id ≠ c.id
  letsInAlsa : ∀ c ∈ s.live, (∀ e ∈ s.alsa.mgr.clients, e.id ≠ c.id) → ∀ alsaId,
    (s.alsaId c.addr alsaId).alsa = s.alsa.addClient c.id alsaId c.alsaPatches
  letsInJack : ∀ c ∈ s.live, (∀ e ∈ s.jack.mgr.clients, e.id ≠ c.id) → ∀ name,
    (s.jackName c.addr name).map PatchSession.jack = s.jack.addClient c.id name c.jackPatches

/-- The ALSA id of a client that has registered. -/
def alsaBadge (c : PatchClient) : Option UInt8 :=
    if c.alsaClientId = 0 then none else some c.alsaClientId

/-- What carries `Agrees` from step to step. -/
structure Registered (s : PatchSession) : Prop where
  addrs : ((s.live ++ s.lost).map PatchClient.addr).Nodup
  ids : s.ids.Nodup
  old : ∀ c ∈ s.live ++ s.lost, c.addr < s.nextAddr
  alsa : Register.Matches PatchClient.id alsaBadge s.live (s.alsa.mgr.clients.map AlsaClient.key)
  jack : Register.Matches PatchClient.id PatchClient.jackClientName s.live
    (s.jack.mgr.clients.map Legacy.JackMgrClient.key)

variable {s t : PatchSession} {i : PatchInput} {c : PatchClient}

theorem Registered.live_addrs (h : s.Registered) : (s.live.map PatchClient.addr).Nodup := by
  have haddrs := h.addrs
  rw [List.map_append] at haddrs
  exact (List.nodup_append.mp haddrs).1

/-- No id is with a live client and with a lost one. -/
theorem Registered.lost_not_live (h : s.Registered) (hc : c ∈ s.lost) :
    c.id ∉ s.live.map PatchClient.id := by
  intro hmem
  have hids := h.ids
  rw [PatchSession.ids, List.map_append] at hids
  exact (List.nodup_append.mp hids).2.2 _ hmem _ (List.mem_map_of_mem hc) rfl

theorem Registered.agrees (h : s.Registered) : s.Agrees := by
  have halsa : ∀ id, (∀ k ∈ s.alsa.mgr.clients.map AlsaClient.key, k.1 ≠ id) ↔
      ∀ e ∈ s.alsa.mgr.clients, e.id ≠ id := by
    intro id
    simp [AlsaClient.key]
  have hjack : ∀ id, (∀ k ∈ s.jack.mgr.clients.map Legacy.JackMgrClient.key, k.1 ≠ id) ↔
      ∀ e ∈ s.jack.mgr.clients, e.id ≠ id := by
    intro id
    simp [Legacy.JackMgrClient.key]
  -- a client whose field is not set has no entry
  have hnoAlsa : ∀ c ∈ s.live, (∀ e ∈ s.alsa.mgr.clients, e.id ≠ c.id) ↔ c.alsaClientId = 0 := by
    intro c hc
    constructor
    · intro hnone
      apply Classical.byContradiction
      intro hset
      have hmem := h.alsa.listed c hc c.alsaClientId (if_neg hset)
      exact (halsa c.id).mpr hnone _ hmem rfl
    · intro hzero
      exact (halsa c.id).mp (h.alsa.not_listed hc (if_pos hzero))
  have hnoJack : ∀ c ∈ s.live, (∀ e ∈ s.jack.mgr.clients, e.id ≠ c.id) ↔
      c.jackClientName = none := by
    intro c hc
    constructor
    · intro hnone
      cases hname : c.jackClientName with
      | none => rfl
      | some name => exact absurd rfl ((hjack c.id).mpr hnone _ (h.jack.listed c hc name hname))
    · intro hnone
      exact (hjack c.id).mp (h.jack.not_listed hc hnone)
  refine ⟨fun c hc => ⟨fun hset => ?_, ?_⟩, fun c hc => ?_, fun c hc => ⟨?_, ?_⟩,
    fun c hc hnone b => ?_, fun c hc hnone name => ?_⟩
  · have hmem := h.alsa.listed c hc c.alsaClientId (if_neg hset)
    obtain ⟨e, he, hkey⟩ := List.mem_map.mp hmem
    obtain ⟨hid, hclient⟩ := Prod.mk.inj hkey
    exact ⟨e, he, hid, hclient⟩
  · rintro ⟨e, he, hid, -⟩ hzero
    exact (hnoAlsa c hc).mpr hzero e he hid
  · rw [ne_eq, ← hnoJack c hc]
    simp
  · exact (halsa c.id).mp (h.alsa.not_there (h.lost_not_live hc))
  · exact (hjack c.id).mp (h.jack.not_there (h.lost_not_live hc))
  · rw [alsaId, client, Keyed.find_key h.live_addrs hc]
    dsimp only
    rw [if_neg (by simpa using (hnoAlsa c hc).mp hnone)]
  · rw [jackName, client, Keyed.find_key h.live_addrs hc]
    dsimp only
    rw [if_neg (by simpa using (hnoJack c hc).mp hnone), Option.map_map]
    exact Option.map_id'

/-! ### One step -/

theorem initial_registered (seq : Sequencer) (server : Legacy.JackServer) :
    (initial seq server).Registered where
  addrs := List.nodup_nil
  ids := List.nodup_nil
  old _ hc := absurd hc (by simp [initial])
  alsa := Register.Matches.nil
  jack := Register.Matches.nil

/-- The clients change their pids or some of the lost ones go, and the managers keep their
entries. -/
theorem Registered.same (h : s.Registered) {f : PatchClient → PatchClient}
    (hf : ∀ c, (f c).addr = c.addr ∧ (f c).id = c.id) (hlive : t.live = s.live)
    (hlost : t.lost.Sublist (s.lost.map f)) (hnext : t.nextAddr = s.nextAddr)
    (halsa : t.alsa.mgr.clients.map AlsaClient.key = s.alsa.mgr.clients.map AlsaClient.key)
    (hjack : t.jack.mgr.clients.map Legacy.JackMgrClient.key
      = s.jack.mgr.clients.map Legacy.JackMgrClient.key) : t.Registered := by
  have hview : ∀ {β : Type} (g : PatchClient → β), (∀ c, g (f c) = g c) →
      ((t.live ++ t.lost).map g).Sublist ((s.live ++ s.lost).map g) := by
    intro β g hg
    have hmap : (s.lost.map f).map g = s.lost.map g := by
      rw [List.map_map]
      exact List.map_congr_left (fun c _ => hg c)
    rw [List.map_append, List.map_append, hlive, ← hmap]
    exact (List.Sublist.refl _).append (hlost.map g)
  refine ⟨h.addrs.sublist (hview _ fun c => (hf c).1), h.ids.sublist (hview _ fun c => (hf c).2),
    fun c hc => ?_, ?_, ?_⟩
  · obtain ⟨d, hd, hda⟩ := List.mem_map.mp
      ((hview PatchClient.addr fun c => (hf c).1).subset (List.mem_map_of_mem hc))
    rw [← hda, hnext]
    exact h.old d hd
  · rw [hlive, halsa]
    exact h.alsa
  · rw [hlive, hjack]
    exact h.jack

/-- A client is rewritten, and the managers stay in agreement with the live ones. -/
theorem Registered.rewrite (h : s.Registered) {d : PatchClient}
    (hlive : t.live = Keyed.put PatchClient.addr d s.live) (hc : c ∈ s.live)
    (haddr : d.addr = c.addr) (hid : d.id = c.id) (hlost : t.lost = s.lost)
    (hnext : t.nextAddr = s.nextAddr)
    (halsa : Register.Matches PatchClient.id alsaBadge t.live
    (t.alsa.mgr.clients.map AlsaClient.key))
    (hjack : Register.Matches PatchClient.id PatchClient.jackClientName t.live
      (t.jack.mgr.clients.map Legacy.JackMgrClient.key)) : t.Registered := by
  have haddrs := h.live_addrs
  have hperm : ∀ {β : Type} (g : PatchClient → β), g d = g c →
      ((t.live ++ t.lost).map g).Perm ((s.live ++ s.lost).map g) := by
    intro β g hg
    rw [List.map_append, List.map_append, hlost, hlive]
    refine List.Perm.append_right _ ?_
    refine ((Keyed.put_perm haddrs hc haddr).map g).trans ?_
    rw [List.map_cons, hg, ← List.map_cons]
    exact (Keyed.cons_del_perm haddrs hc).map g
  refine ⟨(hperm _ haddr).nodup_iff.mpr h.addrs, (hperm _ hid).nodup_iff.mpr h.ids, fun e he => ?_,
    halsa, hjack⟩
  obtain ⟨e', he', hea⟩ := List.mem_map.mp
    ((hperm PatchClient.addr haddr).subset (List.mem_map_of_mem he))
  rw [← hea, hnext]
  exact h.old e' he'

theorem mem_of_client {addr : Nat} (h : s.client addr = some c) : c ∈ s.live ∧ c.addr = addr :=
  ⟨List.mem_of_find?_eq_some h, by simpa using List.find?_some h⟩

/-- `lashd_dbus_alsa_id` -/
theorem Registered.alsaId (h : s.Registered) {addr : Nat} {alsaId : UInt8} (hid : alsaId ≠ 0) :
    (s.alsaId addr alsaId).Registered := by
  unfold PatchSession.alsaId
  split
  · exact h
  · next c hfind =>
      obtain ⟨hc, -⟩ := mem_of_client hfind
      split
      · exact h
      · next hzero =>
          have hzero : c.alsaClientId = 0 := by simpa using hzero
          have hsplit := (Keyed.cons_del_perm h.live_addrs hc)
          have hput := @Keyed.put_perm _ _ _ PatchClient.addr c
            { c with alsaClientId := alsaId, alsaPatches := [] } s.live h.live_addrs hc rfl
          refine h.rewrite rfl hc rfl rfl rfl rfl ?_ ?_
          · rw [AlsaSystem.addClient_keys]
            refine Register.Matches.perm ?_ hput
            exact (h.alsa.perm hsplit).enter (if_pos hzero) rfl (if_neg hid)
          · refine Register.Matches.perm ?_ hput
            exact (h.jack.perm hsplit).change rfl rfl

/-- `lashd_dbus_jack_name` -/
theorem Registered.jackName (h : s.Registered) {addr : Nat} {name : CStr}
    (ht : s.jackName addr name = some t) : t.Registered := by
  unfold PatchSession.jackName at ht
  split at ht
  · rw [← Option.some.inj ht]
    exact h
  · next c hfind =>
      obtain ⟨hc, -⟩ := mem_of_client hfind
      split at ht
      · rw [← Option.some.inj ht]
        exact h
      · next hnone =>
          have hnone : c.jackClientName = none := by simpa using hnone
          obtain ⟨jack, hjack, rfl⟩ := Option.map_eq_some_iff.mp ht
          have hsplit := (Keyed.cons_del_perm h.live_addrs hc)
          have hput := @Keyed.put_perm _ _ _ PatchClient.addr c
            { c with jackClientName := some name, jackPatches := [] } s.live h.live_addrs hc rfl
          refine h.rewrite rfl hc rfl rfl rfl rfl ?_ ?_
          · refine Register.Matches.perm ?_ hput
            exact (h.alsa.perm hsplit).change rfl rfl
          · rw [JackSystem.addClient_keys hjack]
            refine Register.Matches.perm ?_ hput
            exact (h.jack.perm hsplit).enter hnone rfl rfl

/-- A client that comes from outside, to the live ones or to the lost ones, has not registered. -/
theorem Registered.come (h : s.Registered) (ht : (t.live ++ t.lost).Perm (c :: (s.live ++ s.lost)))
    (haddr : c.addr = s.nextAddr) (hnext : t.nextAddr = s.nextAddr + 1) (hid : c.id ∉ s.ids)
    (halsa : Register.Matches PatchClient.id alsaBadge t.live
    (t.alsa.mgr.clients.map AlsaClient.key))
    (hjack : Register.Matches PatchClient.id PatchClient.jackClientName t.live
      (t.jack.mgr.clients.map Legacy.JackMgrClient.key)) : t.Registered := by
  refine ⟨?_, ?_, fun d hd => ?_, halsa, hjack⟩
  · rw [(ht.map PatchClient.addr).nodup_iff, List.map_cons, List.nodup_cons]
    refine ⟨fun hmem => ?_, h.addrs⟩
    obtain ⟨d, hd, hda⟩ := List.mem_map.mp hmem
    have hlt := h.old d hd
    omega
  · rw [PatchSession.ids, (ht.map PatchClient.id).nodup_iff, List.map_cons, List.nodup_cons]
    exact ⟨hid, h.ids⟩
  · rcases List.mem_cons.mp (ht.subset hd) with rfl | hd
    · omega
    · have hlt := h.old d hd
      omega

/-- The clients of a project that is loaded. -/
theorem Registered.load (h : s.Registered) {clients : List (Uuid × List AlsaPatch × List JackPatch)}
    (hids : (s.ids ++ clients.map Prod.fst).Nodup) :
    (clients.foldl restoreClient s).Registered := by
  induction clients generalizing s with
  | nil => exact h
  | cons r clients ih =>
      rw [List.map_cons, List.nodup_middle, List.nodup_cons, List.mem_append, not_or] at hids
      obtain ⟨⟨hnew, hrest⟩, hids⟩ := hids
      have hperm : ((s.restoreClient r).live ++ (s.restoreClient r).lost).Perm
          ({ addr := s.nextAddr, id := r.1, pid := 0, alsaClientId := 0, alsaPatches := r.2.1,
             jackClientName := none, jackPatches := r.2.2 } :: (s.live ++ s.lost)) :=
               List.perm_middle
      apply ih
      · exact h.come hperm rfl rfl hnew h.alsa h.jack
      · refine (((hperm.map PatchClient.id).append_right (clients.map Prod.fst)).nodup_iff).mpr ?_
        rw [List.map_cons, List.cons_append, List.nodup_cons, List.mem_append, not_or]
        exact ⟨⟨hnew, hrest⟩, hids⟩

/-- `server_add_client`, if the lost client that is resumed had not registered. -/
theorem Registered.connect (h : s.Registered) {pid : Int} {id : Uuid} {place : Nat}
    (hid : id ∉ s.ids)
    (hclean : ∀ c ∈ s.resumes pid, c.alsaClientId = 0 ∧ c.jackClientName = none) :
    (s.connect pid id place).Registered := by
  have hinsert : ∀ c : PatchClient, (s.live.insertIdx (min place s.live.length) c).Perm
      (c :: s.live) :=
    fun c => List.perm_insertIdx c s.live (Nat.min_le_right _ _)
  unfold PatchSession.connect
  split
  · next c hresumes =>
      obtain ⟨halsa, hjack⟩ := hclean c hresumes
      have hc : c ∈ s.lost := by
        unfold resumes at hresumes
        split at hresumes
        · exact absurd hresumes (by simp)
        · exact List.mem_of_find?_eq_some hresumes
      have hlost : (s.lost.map PatchClient.addr).Nodup := by
        have haddrs := h.addrs
        rw [List.map_append] at haddrs
        exact (List.nodup_append.mp haddrs).2.1
      have hperm : (s.live.insertIdx (min place s.live.length) c ++
          Keyed.del PatchClient.addr c.addr s.lost).Perm (s.live ++ s.lost) := by
        refine ((hinsert c).append_right _).trans (List.perm_middle.symm.trans ?_)
        exact (Keyed.cons_del_perm hlost hc).append_left s.live
      refine ⟨(hperm.map _).nodup_iff.mpr h.addrs, (hperm.map _).nodup_iff.mpr h.ids,
        fun d hd => h.old d (hperm.subset hd), ?_, ?_⟩
      · exact (h.alsa.come (h.lost_not_live hc) (if_pos halsa)).perm (hinsert c)
      · exact (h.jack.come (h.lost_not_live hc) hjack).perm (hinsert c)
  · have hlive : id ∉ s.live.map PatchClient.id := by
      intro hmem
      apply hid
      rw [PatchSession.ids, List.map_append]
      exact List.mem_append_left _ hmem
    refine h.come ((hinsert _).append_right s.lost) rfl rfl hid ?_ ?_
    · refine Register.Matches.perm ?_ (hinsert _)
      exact h.alsa.come hlive (if_pos rfl)
    · refine Register.Matches.perm ?_ (hinsert _)
      exact h.jack.come hlive rfl

/-- What taking the registrations back leaves in the managers. -/
theorem takeBack_keys (s : PatchSession) (c : PatchClient) :
    (s.takeBack c).1.alsa.mgr.clients.map AlsaClient.key
        = (if alsaBadge c = none then s.alsa.mgr.clients.map AlsaClient.key
          else (s.alsa.mgr.clients.map AlsaClient.key).eraseP (fun k => k.1 = c.id)) ∧
      (s.takeBack c).1.jack.mgr.clients.map Legacy.JackMgrClient.key
        = (if c.jackClientName = none then s.jack.mgr.clients.map Legacy.JackMgrClient.key
          else (s.jack.mgr.clients.map Legacy.JackMgrClient.key).eraseP (fun k => k.1 = c.id)) := by
  unfold takeBack
  dsimp only
  constructor
  · by_cases hzero : c.alsaClientId = 0
    · rw [if_pos hzero, if_pos (show alsaBadge c = none from if_pos hzero)]
    · have hbadge : alsaBadge c ≠ none := by
        rw [alsaBadge, if_neg hzero]
        simp
      rw [if_neg hzero, if_neg hbadge, AlsaSystem.removeClient_clients, List.eraseP_map]
      rfl
  · by_cases hnone : c.jackClientName = none
    · rw [if_pos hnone, if_pos hnone]
    · rw [if_neg hnone, if_neg hnone, JackSystem.removeClient_clients, List.eraseP_map]
      rfl

/-- A live client goes: it is forgotten, or it becomes a lost one. -/
theorem Registered.leave (h : s.Registered) (hc : c ∈ s.live)
    (hlive : t.live = Keyed.del PatchClient.addr c.addr s.live)
    (hlost : t.lost = s.lost ∨ ∃ d, d.addr = c.addr ∧ d.id = c.id ∧ t.lost.Perm (d :: s.lost))
    (hnext : t.nextAddr = s.nextAddr)
    (hmgrs : t.alsa = (s.takeBack c).1.alsa ∧ t.jack = (s.takeBack c).1.jack) : t.Registered := by
  have hsplit := Keyed.cons_del_perm h.live_addrs hc
  obtain ⟨halsa, hjack⟩ := s.takeBack_keys c
  have hview : ∀ {β : Type}
      (g : PatchClient → β), (∀ d, d.addr = c.addr → d.id = c.id → g d = g c) →
      ∃ l : List β, l.Perm ((t.live ++ t.lost).map g) ∧
        l.Sublist ((c :: (Keyed.del PatchClient.addr c.addr s.live ++ s.lost)).map g) := by
    intro β g hg
    rcases hlost with hlost | ⟨d, haddr, hid, hlost⟩
    · refine ⟨_, .refl _, ?_⟩
      rw [hlive, hlost, List.map_cons]
      exact List.sublist_cons_self _ _
    · refine ⟨_, ?_, List.Sublist.refl _⟩
      rw [hlive, List.map_cons, ← hg d haddr hid, ← List.map_cons]
      refine List.Perm.map g ?_
      exact ((hlost.append_left _).trans List.perm_middle).symm
  have hall : (c :: (Keyed.del PatchClient.addr c.addr s.live ++ s.lost)).Perm (s.live ++ s.lost) :=
    hsplit.append_right s.lost
  refine ⟨?_, ?_, fun d hd => ?_, ?_, ?_⟩
  · obtain ⟨l, hl, hsub⟩ := hview PatchClient.addr (fun d hd _ => hd)
    exact hl.nodup_iff.mp (((hall.map _).nodup_iff.mpr h.addrs).sublist hsub)
  · obtain ⟨l, hl, hsub⟩ := hview PatchClient.id (fun d _ hd => hd)
    exact hl.nodup_iff.mp (((hall.map _).nodup_iff.mpr h.ids).sublist hsub)
  · obtain ⟨l, hl, hsub⟩ := hview PatchClient.addr (fun d hd _ => hd)
    obtain ⟨e, he, hea⟩ := List.mem_map.mp
      ((hall.map PatchClient.addr).subset (hsub.subset (hl.symm.subset (List.mem_map_of_mem hd))))
    rw [← hea, hnext]
    exact h.old e he
  · rw [hlive, hmgrs.1, halsa]
    exact (h.alsa.perm hsplit).leave
  · rw [hlive, hmgrs.2, hjack]
    exact (h.jack.perm hsplit).leave

/-- `project_unload` -/
theorem Registered.unload (h : s.Registered) (addrs : List Nat) : (s.unload addrs).Registered := by
  have hfold : ∀ (l : List PatchClient) (u : PatchSession), u.Registered → (∀ c ∈ l, c ∈ u.live) →
      (l.map PatchClient.addr).Nodup → (l.foldl dismiss u).Registered := by
    intro l
    induction l with
    | nil => exact fun u hu _ _ => hu
    | cons c l ih =>
        intro u hu hl hnodup
        obtain ⟨hc, hnodup⟩ := List.nodup_cons.mp hnodup
        apply ih
        · exact hu.leave (hl c List.mem_cons_self) rfl (Or.inl rfl) rfl ⟨rfl, rfl⟩
        · intro d hd
          refine Keyed.mem_del.mpr ⟨hl d (List.mem_cons_of_mem _ hd), ?_⟩
          exact fun he => hc (he ▸ List.mem_map_of_mem hd)
        · exact hnodup
  have hleft := hfold (s.live.filter (fun c => c.addr ∈ addrs)) s h
    (fun c hc => List.mem_of_mem_filter hc) (h.live_addrs.sublist (List.filter_sublist.map _))
  refine hleft.same (f := fun c => c) (fun _ => ⟨rfl, rfl⟩) rfl ?_ rfl rfl rfl
  rw [List.map_id']
  exact List.filter_sublist

/-- **One step** keeps the registrations in agreement. -/
theorem Registered.step (h : s.Registered) (hok : s.Promised i) (hclean : s.Clean i)
    (ht : s.step i = some t) : t.Registered := by
  cases i with
  | load clients =>
      rw [← Option.some.inj ht]
      exact h.load hok
  | launch addr pid =>
      rw [← Option.some.inj ht]
      refine h.same (f := fun c => if c.addr = addr then { c with pid := pid } else c) ?_ rfl
        (.refl _) rfl rfl rfl
      intro c
      split_ifs <;> exact ⟨rfl, rfl⟩
  | connect pid id place =>
      rw [← Option.some.inj ht]
      exact h.connect hok hclean
  | alsaId addr alsaId =>
      rw [← Option.some.inj ht]
      exact h.alsaId hclean
  | jackName addr name => exact h.jackName ht
  | lose addr place =>
      rw [PatchSession.step] at ht
      split at ht
      · rw [← Option.some.inj ht]
        exact h
      · next c hfind =>
          by_cases hsurvives : s.NoBackup c
          · rw [if_pos hsurvives] at ht
            rw [← Option.some.inj ht]
            refine h.leave (mem_of_client hfind).1 rfl (Or.inr ⟨_, ?_, ?_,
              List.perm_insertIdx _ s.lost (Nat.min_le_right _ _)⟩) rfl ⟨rfl, rfl⟩ <;> rfl
          · rw [if_neg hsurvives] at ht
            exact absurd ht (by simp)
  | clearLost addrs =>
      rw [← Option.some.inj ht]
      refine h.same (f := fun c => c) (fun _ => ⟨rfl, rfl⟩) rfl ?_ rfl rfl rfl
      rw [List.map_id']
      exact List.filter_sublist
  | unload addrs =>
      rw [← Option.some.inj ht]
      exact h.unload addrs
  | alsa i =>
      obtain ⟨alsa, halsa, rfl⟩ := Option.map_eq_some_iff.mp ht
      refine h.same (f := fun c => c) (fun _ => ⟨rfl, rfl⟩) rfl (by rw [List.map_id']) rfl ?_ rfl
      refine AlsaSystem.step_keys ?_ ?_ halsa
      · rintro id clientId patches rfl
        exact hok
      · rintro id rfl
        exact hok
  | jack i =>
      obtain ⟨jack, hjack, rfl⟩ := Option.map_eq_some_iff.mp ht
      refine h.same (f := fun c => c) (fun _ => ⟨rfl, rfl⟩) rfl (by rw [List.map_id']) rfl rfl ?_
      refine JackSystem.step_keys ?_ ?_ hjack
      · rintro id name patches rfl
        exact hok
      · rintro id rfl
        exact hok

/-- A client of a loaded project is launched and registers with both managers. -/
def registeredRun : List PatchInput :=
  [.load [(5, [], [])], .launch 0 7, .connect 7 6 0, .alsaId 0 128, .jackName 0 (cstr "synth")]

end PatchSession

end Lash
