import Lash.Jack.Manager
import Mathlib.Data.List.InsertIdx
import Mathlib.Data.List.Nodup

/-!
# What the manager's operations do

For each operation of the jackdbus manager: what it does to the entries, to the list of unknown
clients, to the saved graph and to the log, and what it leaves alone.
-/

namespace Lash

open First

theorem nodup_append_one {α : Type*} {l : List α} {a : α} (h : l.Nodup) (ha : a ∉ l) :
    (l ++ [a]).Nodup := by
  rw [List.nodup_append]
  refine ⟨h, List.nodup_singleton a, ?_⟩
  rintro x hx y hy rfl
  rw [List.mem_singleton.mp hy] at hx
  exact ha hx

/-! ## What stays the same of an entry -/

/-- What binding fixes: the two ids. -/
def JackMgrClient.key (c : JackMgrClient) : Uuid × Nat := (c.id, c.jackdbusId)

/-- An entry without its backup and its process id. -/
def JackMgrClient.core (c : JackMgrClient) : Uuid × Nat × CStr × List JackPatch :=
  (c.id, c.jackdbusId, c.name, c.oldPatches)

theorem JackMgrClient.core_eq {c d : JackMgrClient} (h : c.core = d.core) :
    c.id = d.id ∧ c.jackdbusId = d.jackdbusId ∧ c.name = d.name ∧ c.oldPatches = d.oldPatches := by
  simpa [core] using h

/-- Two versions of an entry that differ in their old patches only. -/
structure JackMgrClient.SameEntry (c d : JackMgrClient) : Prop where
  id : d.id = c.id
  jackdbusId : d.jackdbusId = c.jackdbusId
  name : d.name = c.name
  backup : d.backupPatches = c.backupPatches

theorem JackMgrClient.SameEntry.refl (c : JackMgrClient) : c.SameEntry c := ⟨rfl, rfl, rfl, rfl⟩

theorem JackMgrClient.SameEntry.trans {c d e : JackMgrClient} (h : c.SameEntry d)
    (h' : d.SameEntry e) : c.SameEntry e :=
  ⟨h'.id.trans h.id, h'.jackdbusId.trans h.jackdbusId, h'.name.trans h.name,
    h'.backup.trans h.backup⟩

theorem JackMgrClient.SameEntry.key {c d : JackMgrClient} (h : c.SameEntry d) : d.key = c.key :=
  Prod.ext h.id h.jackdbusId

/-- A patch that is taken out of the list fits the connection. -/
theorem mem_delFitting {srcUuid destUuid : Option Uuid} {g : GraphPatch} {l l' : List JackPatch}
    {patch : JackPatch} (hmem : patch ∈ l) (h : delFitting srcUuid destUuid g l = some l') :
    patch ∈ l' ∨ patch.fits srcUuid destUuid g = some true := by
  induction l generalizing l' with
  | nil => exact absurd hmem (by simp)
  | cons first rest ih =>
      rw [delFitting] at h
      split at h
      · exact absurd h (by simp)
      · next hfits =>
          rcases List.mem_cons.mp hmem with rfl | hmem
          · exact Or.inr hfits
          · rw [← Option.some.inj h]
            exact Or.inl hmem
      · obtain ⟨kept, hkept, rfl⟩ := Option.map_eq_some_iff.mp h
        rcases List.mem_cons.mp hmem with rfl | hmem
        · exact Or.inl List.mem_cons_self
        · exact (ih hmem hkept).imp_left (List.mem_cons_of_mem _)

theorem delOldPatch_same {clients : List JackMgrClient} {c d : JackMgrClient} {p : GraphPatch}
    (h : delOldPatch clients c p = some d) : c.SameEntry d := by
  unfold delOldPatch at h
  split at h
  · obtain ⟨l, _, rfl⟩ := Option.map_eq_some_iff.mp h
    exact ⟨rfl, rfl, rfl, rfl⟩
  · rw [← Option.some.inj h]
    exact .refl c

theorem foldlM_delOldPatch_same {clients : List JackMgrClient} {c d : JackMgrClient}
    {l : List GraphPatch} (h : l.foldlM (delOldPatch clients) c = some d) : c.SameEntry d := by
  refine Runs.foldlM_invariant (I := c.SameEntry) (.refl c) ?_ h
  intro e p f _ he hf
  exact he.trans (delOldPatch_same hf)

/-! ## The saved graph -/

/-- The saved graph is the current one if it has the current version. -/
structure JackDbusMgr.Synced (m : JackDbusMgr) (j : JackServer) : Prop where
  older : j.running = true → m.graphVersion ≤ j.graph.version
  current : m.graphVersion = j.graph.version → j.running = true → m.graph = some j.graph
  counted : j.running = true → j.graph.version ≠ 0

section

variable {m m' : JackDbusMgr} {j : JackServer}

theorem getGraph_synced (hsync : m.Synced j) : (m.getGraph j).Synced j := by
  unfold JackDbusMgr.getGraph
  split
  · exact hsync
  · exact ⟨fun _ => le_refl _, fun _ _ => rfl, hsync.counted⟩

/-- After it was asked for, the graph is the current one. -/
theorem getGraph_graph (hsync : m.Synced j) (hrun : j.running = true) :
    (m.getGraph j).graph = some j.graph := by
  unfold JackDbusMgr.getGraph
  split
  · next h =>
      rcases h with h | h
      · exact absurd hrun h
      · exact hsync.current h.symm hrun
  · rfl

@[simp] theorem getGraph_clients (m : JackDbusMgr) (j : JackServer) :
    (m.getGraph j).clients = m.clients := by
  unfold JackDbusMgr.getGraph
  split <;> rfl

@[simp] theorem getGraph_unknownClients (m : JackDbusMgr) (j : JackServer) :
    (m.getGraph j).unknownClients = m.unknownClients := by
  unfold JackDbusMgr.getGraph
  split <;> rfl

theorem graphFree_synced (hsync : m.Synced j) : m.graphFree.Synced j where
  older _ := Nat.zero_le _
  current h hrun := absurd h.symm (hsync.counted hrun)
  counted := hsync.counted

/-- A change of the graph makes the saved one an old one. -/
theorem JackDbusMgr.Synced.change (hsync : m.Synced j) (cs : List GraphClient)
    (ps : List GraphPatch) : m.Synced (j.change cs ps) where
  older hrun := Nat.le_succ_of_le (hsync.older hrun)
  current h hrun := by
    have hle := hsync.older hrun
    have h : m.graphVersion = j.graph.version + 1 := h
    omega
  counted _ := Nat.succ_ne_zero _

theorem JackDbusMgr.Synced.congr (hsync : m.Synced j) (hgraph : m'.graph = m.graph)
    (hversion : m'.graphVersion = m.graphVersion) : m'.Synced j where
  older hrun := hversion ▸ hsync.older hrun
  current h hrun := hgraph ▸ hsync.current (hversion ▸ h) hrun
  counted := hsync.counted

end

/-! ## Requests -/

def JackEvent.isRequest : JackEvent → Bool
  | .request _ _ _ _ => true
  | _ => false

theorem newClientPort_requests {clients : List JackMgrClient} {c : JackMgrClient} {name port : CStr}
    {e : JackEvent} (h : e ∈ newClientPort clients c name port) : e.isRequest = true := by
  obtain ⟨patch, _, he⟩ := List.mem_filterMap.mp h
  split_ifs at he <;> rw [← Option.some.inj he] <;> rfl

theorem newForeignPort_requests {clients : List JackMgrClient} {name port : CStr} {e : JackEvent}
    (h : e ∈ newForeignPort clients name port) : e.isRequest = true := by
  obtain ⟨c, _, he⟩ := List.mem_flatMap.mp h
  obtain ⟨patch, _, he⟩ := List.mem_filterMap.mp he
  split_ifs at he <;> rw [← Option.some.inj he] <;> rfl

/-! ## Binding -/

section

variable {m m' : JackDbusMgr} {j : JackServer} {c d : JackMgrClient} {events : List JackEvent}

/-- `lashd_jackdbus_mgr_get_client_data` leaves the other entries alone, and of the client it
changes the JACK id and the old patches. -/
theorem getClientData_frame (h : getClientData m c = some (m', d, events)) :
    m'.clients = m.clients ∧ m'.unknownClients = m.unknownClients ∧
      (m' = m ∨ m' = m.graphFree) ∧ d.id = c.id ∧ d.name = c.name ∧
        d.backupPatches = c.backupPatches ∧ ∀ e ∈ events, e.isRequest = true := by
  unfold getClientData at h
  split at h
  · simp only [Option.some.injEq, Prod.mk.injEq] at h
    obtain ⟨rfl, rfl, rfl⟩ := h
    exact ⟨rfl, rfl, Or.inl rfl, rfl, rfl, rfl, by simp⟩
  · split at h
    · simp only [Option.some.injEq, Prod.mk.injEq] at h
      obtain ⟨rfl, rfl, rfl⟩ := h
      exact ⟨rfl, rfl, Or.inr rfl, rfl, rfl, rfl, by simp⟩
    · dsimp only at h
      split_ifs at h
      · simp only [Option.some.injEq, Prod.mk.injEq] at h
        obtain ⟨rfl, rfl, rfl⟩ := h
        exact ⟨rfl, rfl, Or.inr rfl, rfl, rfl, rfl, by simp⟩
      · simp only [Option.some.injEq, Prod.mk.injEq] at h
        obtain ⟨rfl, rfl, rfl⟩ := h
        exact ⟨rfl, rfl, Or.inl rfl, rfl, rfl, rfl, by simp⟩
      · obtain ⟨e, he, h⟩ := Option.map_eq_some_iff.mp h
        simp only [Prod.mk.injEq] at h
        obtain ⟨rfl, rfl, rfl⟩ := h
        have hsame := foldlM_delOldPatch_same he
        refine ⟨rfl, rfl, Or.inl rfl, hsame.id, hsame.name, hsame.backup, ?_⟩
        intro e he
        obtain ⟨port, _, he⟩ := List.mem_flatMap.mp he
        exact newClientPort_requests he

/-- Where the graph has a client with the name, the entry gets its id, the patches at its ports are
asked for, and the old patches that are connected are taken out. -/
theorem getClientData_found {g : Graph} {gc : GraphClient} (hgraph : m.graph = some g)
    (hfind : g.clients.find? (fun gc => gc.name = c.name) = some gc) (hid : gc.id ≠ 0)
    (h : getClientData m c = some (m', d, events)) :
    m' = m ∧ d.jackdbusId = gc.id ∧
      events = gc.ports.flatMap (newClientPort (m.clients ++ [{ c with jackdbusId := gc.id }])
        { c with jackdbusId := gc.id } gc.name) ∧
      (c.oldPatches = [] ∨
      g.patches.foldlM (delOldPatch (m.clients ++ [{ c with jackdbusId := gc.id }]))
        { c with jackdbusId := gc.id } = some d) := by
  unfold getClientData at h
  rw [hgraph] at h
  dsimp only at h
  rw [hfind] at h
  dsimp only at h
  rw [if_neg hid] at h
  split_ifs at h with hnil
  · simp only [Option.some.injEq, Prod.mk.injEq] at h
    obtain ⟨rfl, rfl, rfl⟩ := h
    refine ⟨rfl, rfl, ?_, Or.inl hnil⟩
    rw [List.flatMap_eq_nil_iff.mpr]
    intro port _
    rw [newClientPort, hnil]
    rfl
  · obtain ⟨e, he, h⟩ := Option.map_eq_some_iff.mp h
    simp only [Prod.mk.injEq] at h
    obtain ⟨rfl, rfl, rfl⟩ := h
    exact ⟨rfl, (foldlM_delOldPatch_same he).jackdbusId, rfl, Or.inr he⟩

end

namespace JackSession

variable {s t : JackSession} {i : JackInput} {jc : JackMgrClient} {lc : SessionClient}

/-- Binding adds an entry with the id and the patches of the LASH client. -/
theorem bind_frame (h : s.bind jc lc = some t) :
    ∃ e requests, t.mgr.clients = s.mgr.clients ++ [e] ∧ e.id = lc.id ∧ e.name = jc.name ∧
      e.backupPatches = jc.backupPatches ++ lc.jackPatches ∧
      t.mgr.unknownClients = s.mgr.unknownClients ∧ t.jack = s.jack ∧
      t.live = (s.put (lc.give jc)).live ∧ t.lost = (s.put (lc.give jc)).lost ∧
      t.nextAddr = s.nextAddr ∧ t.log = s.log ++ .bound lc.addr lc.jackPatches :: requests ∧
      (s.mgr.Synced s.jack → t.mgr.Synced s.jack) ∧ ∀ r ∈ requests, r.isRequest = true := by
  obtain ⟨⟨m, e, requests⟩, hdata, rfl⟩ := Option.map_eq_some_iff.mp h
  obtain ⟨hclients, hunknown, hm, hid, hname, hbackup, hrequests⟩ := getClientData_frame hdata
  rw [getGraph_clients] at hclients
  rw [getGraph_unknownClients] at hunknown
  refine ⟨e, requests, ?_, hid, hname, hbackup, hunknown, rfl, rfl, rfl, rfl, rfl, ?_, hrequests⟩
  · show m.clients ++ [e] = s.mgr.clients ++ [e]
    rw [hclients]
  · intro hsync
    have hsync' := getGraph_synced hsync
    rcases hm with rfl | rfl
    · exact hsync'.congr rfl rfl
    · exact (graphFree_synced hsync').congr rfl rfl

/-- Where the graph is known and has the client, the entry has its JACK id. -/
theorem bind_found {gc : GraphClient} (hsync : s.mgr.Synced s.jack) (hrun : s.jack.running = true)
    (hfind : s.jack.graph.clients.find? (fun gc => gc.name = jc.name) = some gc) (hid : gc.id ≠ 0)
    (h : s.bind jc lc = some t) :
    ∃ e, t.mgr.clients = s.mgr.clients ++ [e] ∧ e.id = lc.id ∧ e.name = jc.name ∧
      e.jackdbusId = gc.id ∧ t.log = s.log ++ .bound lc.addr lc.jackPatches ::
        gc.ports.flatMap (newClientPort (s.mgr.clients ++ [{ jc.take lc with jackdbusId := gc.id }])
          { jc.take lc with jackdbusId := gc.id } gc.name) ∧
      (lc.jackPatches = [] ∨
        s.jack.graph.patches.foldlM
          (delOldPatch (s.mgr.clients ++ [{ jc.take lc with jackdbusId := gc.id }]))
          { jc.take lc with jackdbusId := gc.id } = some e) := by
  obtain ⟨⟨m, e, requests⟩, hdata, rfl⟩ := Option.map_eq_some_iff.mp h
  obtain ⟨hclients, -, -, hid', hname, -⟩ := getClientData_frame hdata
  have hfind' : s.jack.graph.clients.find? (fun gc => gc.name = (jc.take lc).name) = some gc :=
    hfind
  obtain ⟨-, hjack, hevents, hfold⟩ :=
    getClientData_found (getGraph_graph hsync hrun) hfind' hid hdata
  rw [getGraph_clients] at hclients hevents hfold
  refine ⟨e, ?_, hid', hname, hjack, ?_, hfold⟩
  · show m.clients ++ [e] = s.mgr.clients ++ [e]
    rw [hclients]
  · rw [← hevents]

/-! ## The other operations -/

/-- What a step may do to the entries that adds none: the list of unknown clients and the ids of the
others become shorter at most. -/
structure Shrinks (m m' : JackDbusMgr) : Prop where
  clients : (m'.clients.map JackMgrClient.key).Sublist (m.clients.map JackMgrClient.key)
  unknown : m'.unknownClients.Sublist m.unknownClients
  synced : ∀ j, m.Synced j → m'.Synced j

theorem Shrinks.refl (m : JackDbusMgr) : Shrinks m m :=
  ⟨List.Sublist.refl _, List.Sublist.refl _, fun _ h => h⟩

theorem Shrinks.trans {m m' m'' : JackDbusMgr} (h : Shrinks m m') (h' : Shrinks m' m'') :
    Shrinks m m'' :=
  ⟨h'.clients.trans h.clients, h'.unknown.trans h.unknown, fun j hj => h'.synced j (h.synced j hj)⟩

theorem onClientDisappeared_mgr {id : Nat} (h : s.onClientDisappeared id = some t) :
    t = { s with mgr := { s.mgr with
        unknownClients := s.mgr.unknownClients.eraseP (fun c => c.jackdbusId = id) } } := by
  obtain ⟨r, _, rfl⟩ := Option.map_eq_some_iff.mp h
  rfl

/-- `PortAppeared` sends requests and does nothing else. -/
theorem onPortAppeared_frame (s : JackSession) (id : Nat) (name port : CStr) :
    ∃ requests, s.onPortAppeared id name port = { s with log := s.log ++ requests } ∧
      ∀ e ∈ requests, e.isRequest = true := by
  unfold onPortAppeared
  split
  · next c _ =>
      split
      · exact ⟨[], by rw [List.append_nil], by simp⟩
      · exact ⟨_, rfl, fun e he => newClientPort_requests he⟩
  · exact ⟨_, rfl, fun e he => newForeignPort_requests he⟩

theorem dropOldPatch_frame {id : Nat} {p : GraphPatch} (h : s.dropOldPatch id p = some t) :
    ∃ clients, t = { s with mgr := { s.mgr with clients := clients } } ∧
      clients.map JackMgrClient.key = s.mgr.clients.map JackMgrClient.key ∧
      clients.map JackMgrClient.backupPatches = s.mgr.clients.map JackMgrClient.backupPatches ∧
      clients.map JackMgrClient.name = s.mgr.clients.map JackMgrClient.name := by
  unfold dropOldPatch at h
  split at h
  · rw [← Option.some.inj h]
    exact ⟨s.mgr.clients, rfl, rfl, rfl, rfl⟩
  · next c hc =>
      obtain ⟨d, hd, rfl⟩ := Option.map_eq_some_iff.mp h
      have hsame := delOldPatch_same hd
      have hfirst : ∀ x, s.mgr.clients.find? (fun e => e.jackdbusId = id) = some x → x = c :=
        fun x hx => Option.some.inj (hx.symm.trans hc)
      refine ⟨_, rfl, ?_, ?_, ?_⟩
      · apply map_modifyFirst
        intro x hx
        rw [hfirst x hx]
        exact hsame.key
      · apply map_modifyFirst
        intro x hx
        rw [hfirst x hx]
        exact hsame.backup
      · apply map_modifyFirst
        intro x hx
        rw [hfirst x hx]
        exact hsame.name

theorem portsConnected_frame {p : GraphPatch} (h : s.portsConnected p = some t) :
    ∃ clients, t = { s with mgr := { s.mgr with clients := clients } } ∧
      clients.map JackMgrClient.key = s.mgr.clients.map JackMgrClient.key ∧
      clients.map JackMgrClient.backupPatches = s.mgr.clients.map JackMgrClient.backupPatches ∧
      clients.map JackMgrClient.name = s.mgr.clients.map JackMgrClient.name := by
  obtain ⟨u, hu, h⟩ := Option.bind_eq_some_iff.mp h
  obtain ⟨clients, rfl, hkey, hbackup, hname⟩ := dropOldPatch_frame hu
  split at h
  · rw [← Option.some.inj h]
    exact ⟨clients, rfl, hkey, hbackup, hname⟩
  · obtain ⟨clients', rfl, hkey', hbackup', hname'⟩ := dropOldPatch_frame h
    exact ⟨clients', rfl, hkey'.trans hkey, hbackup'.trans hbackup, hname'.trans hname⟩

theorem removeClient_eq {m m' : JackDbusMgr} {id : Uuid} {patches : List JackPatch}
    (h : removeClient m id = some (m', patches)) :
    ∃ c, jackMgrClientFindById m.clients id = some c ∧ patches = c.backupPatches ∧
      m' = { m with clients := m.clients.eraseP (fun d => d.id = id) } := by
  obtain ⟨c, hc, h⟩ := Option.map_eq_some_iff.mp h
  obtain ⟨rfl, rfl⟩ := Prod.mk.inj h
  exact ⟨c, hc, rfl, rfl⟩

theorem shrinks_removeClient {m m' : JackDbusMgr} {id : Uuid} {patches : List JackPatch}
    (h : removeClient m id = some (m', patches)) : Shrinks m m' := by
  obtain ⟨c, -, -, rfl⟩ := removeClient_eq h
  exact ⟨List.eraseP_sublist.map _, List.Sublist.refl _, fun _ hj => hj.congr rfl rfl⟩

/-- The entry that is removed has the id. -/
theorem mem_removeClient {m m' : JackDbusMgr} {id : Uuid} {patches : List JackPatch}
    (h : removeClient m id = some (m', patches)) :
    (∀ e ∈ m'.clients, e ∈ m.clients) ∧ ∀ e ∈ m.clients, e.id ≠ id → e ∈ m'.clients := by
  obtain ⟨c, -, -, rfl⟩ := removeClient_eq h
  refine ⟨fun e he => List.eraseP_sublist.subset he, fun e he hne => ?_⟩
  exact (List.mem_eraseP_of_neg (by simpa using hne)).mpr he

theorem mem_takeBack (s : JackSession) (lc : SessionClient) :
    (∀ e ∈ (s.takeBack lc).1.clients, e ∈ s.mgr.clients) ∧
      (∀ e ∈ s.mgr.clients, e.id ≠ lc.id → e ∈ (s.takeBack lc).1.clients) ∧
        (s.takeBack lc).2.id = lc.id := by
  unfold takeBack
  split
  · exact ⟨fun _ h => h, fun _ h _ => h, rfl⟩
  · split
    · exact ⟨fun _ h => h, fun _ h _ => h, rfl⟩
    · next h => exact ⟨(mem_removeClient h).1, (mem_removeClient h).2, rfl⟩

/-- A project that is unloaded takes only the entries of its own clients with it. -/
theorem mem_unload (s : JackSession) (addrs : List Nat) :
    (∀ e ∈ (s.unload addrs).mgr.clients, e ∈ s.mgr.clients) ∧
      ∀ e ∈ s.mgr.clients, (∀ c ∈ s.live, c.addr ∈ addrs → e.id ≠ c.id) →
        e ∈ (s.unload addrs).mgr.clients := by
  have hfold : ∀ (l : List SessionClient) (m : JackDbusMgr),
      (∀ e ∈ (l.foldl (fun m c => ((removeClient m c.id).map Prod.fst).getD m) m).clients,
        e ∈ m.clients) ∧
      ∀ e ∈ m.clients, (∀ c ∈ l, e.id ≠ c.id) →
        e ∈ (l.foldl (fun m c => ((removeClient m c.id).map Prod.fst).getD m) m).clients := by
    intro l
    induction l with
    | nil => exact fun m => ⟨fun _ h => h, fun _ h _ => h⟩
    | cons c l ih =>
        intro m
        rw [List.foldl_cons]
        obtain ⟨hold, hkeep⟩ := ih (((removeClient m c.id).map Prod.fst).getD m)
        cases h : removeClient m c.id with
        | none =>
            rw [h] at hold hkeep
            exact ⟨hold, fun e he hne => hkeep e he (fun d hd => hne d (List.mem_cons_of_mem _ hd))⟩
        | some r =>
            rw [h] at hold hkeep
            obtain ⟨hold', hkeep'⟩ := @mem_removeClient m r.1 c.id r.2 h
            refine ⟨fun e he => hold' e (hold e he), fun e he hne => ?_⟩
            apply hkeep e (hkeep' e he (hne c List.mem_cons_self))
            exact fun d hd => hne d (List.mem_cons_of_mem _ hd)
  obtain ⟨hold, hkeep⟩ :=
    hfold (s.live.filter (fun c => c.addr ∈ addrs ∧ c.jackClientName ≠ none)) s.mgr
  refine ⟨hold, fun e he hne => hkeep e he ?_⟩
  intro c hc
  obtain ⟨hc, hleaves⟩ := List.mem_filter.mp hc
  exact hne c hc (of_decide_eq_true hleaves).1

theorem shrinks_takeBack (s : JackSession)
    (lc : SessionClient) : Shrinks s.mgr (s.takeBack lc).1 := by
  unfold takeBack
  split
  · exact .refl _
  · split
    · exact .refl _
    · next h => exact shrinks_removeClient h

theorem shrinks_unload (s : JackSession)
    (addrs : List Nat) : Shrinks s.mgr (s.unload addrs).mgr := by
  have hfold : ∀ (l : List SessionClient) (m : JackDbusMgr),
      Shrinks m (l.foldl (fun m c => ((removeClient m c.id).map Prod.fst).getD m) m) := by
    intro l
    induction l with
    | nil => exact fun m => .refl m
    | cons c l ih =>
        intro m
        rw [List.foldl_cons]
        refine Shrinks.trans ?_ (ih _)
        cases h : removeClient m c.id with
        | none => exact .refl m
        | some r => exact shrinks_removeClient h
  exact hfold _ _

/-- A save refreshes the backup of a client and leaves everything else of the manager as it is. -/
theorem getClientPatches_frame {m m' : JackDbusMgr} {id : Uuid} {patches : List JackPatch}
    (h : getClientPatches m id = some (m', patches)) :
    (∃ c, jackMgrClientFindById m.clients id = some c) ∧
      ∃ clients, m' = { m with clients := clients } ∧ clients
        = modifyFirst (fun d => d.id = id) (fun d => { d with backupPatches := patches })
          m.clients := by
  unfold getClientPatches at h
  split at h
  · next c _ hc =>
      simp only [Option.some.injEq, Prod.mk.injEq] at h
      obtain ⟨rfl, rfl⟩ := h
      exact ⟨⟨c, hc⟩, _, rfl, rfl⟩
  · exact absurd h (by simp)

theorem shrinks_writePatches (s : JackSession) (lc : SessionClient) :
    Shrinks s.mgr (s.writePatches lc).mgr ∧ (s.writePatches lc).jack = s.jack := by
  unfold writePatches
  split
  · exact ⟨.refl _, rfl⟩
  · split
    · exact ⟨.refl _, rfl⟩
    · next m patches h =>
        obtain ⟨-, clients, rfl, hclients⟩ := getClientPatches_frame h
        have hkeys : clients.map JackMgrClient.key = s.mgr.clients.map JackMgrClient.key := by
          rw [hclients]
          exact map_modifyFirst (fun _ _ => rfl)
        refine ⟨⟨?_, List.Sublist.refl _, fun _ hj => hj.congr rfl rfl⟩, rfl⟩
        dsimp only
        rw [hkeys]

theorem shrinks_writeInfo (s : JackSession) (addrs : List Nat) :
    Shrinks s.mgr (s.writeInfo addrs).mgr ∧ (s.writeInfo addrs).jack = s.jack := by
  have hfold : ∀ (l : List SessionClient) (s : JackSession),
      Shrinks s.mgr (l.foldl writePatches s).mgr ∧ (l.foldl writePatches s).jack = s.jack := by
    intro l
    induction l with
    | nil => exact fun s => ⟨.refl _, rfl⟩
    | cons lc l ih =>
        intro s
        obtain ⟨hfirst, hjack⟩ := shrinks_writePatches s lc
        obtain ⟨hrest, hjack'⟩ := ih (s.writePatches lc)
        exact ⟨hfirst.trans hrest, hjack'.trans hjack⟩
  exact hfold _ s

/-- A save changes nothing of the entries but the backups, and none of the clients. -/
theorem writeInfo_frame (s : JackSession) (addrs : List Nat) :
    (s.writeInfo addrs).mgr.clients.map JackMgrClient.core = s.mgr.clients.map JackMgrClient.core ∧
      (s.writeInfo addrs).live = s.live ∧ (s.writeInfo addrs).lost = s.lost := by
  have hfold : ∀ (l : List SessionClient) (u : JackSession),
      (l.foldl writePatches u).mgr.clients.map JackMgrClient.core
          = u.mgr.clients.map JackMgrClient.core ∧
        (l.foldl writePatches u).live = u.live ∧ (l.foldl writePatches u).lost = u.lost := by
    intro l
    induction l with
    | nil => exact fun u => ⟨rfl, rfl, rfl⟩
    | cons lc l ih =>
        intro u
        obtain ⟨hcores, hlive, hlost⟩ := ih (u.writePatches lc)
        have hone : (u.writePatches lc).mgr.clients.map JackMgrClient.core
              = u.mgr.clients.map JackMgrClient.core ∧
            (u.writePatches lc).live = u.live ∧ (u.writePatches lc).lost = u.lost := by
          unfold writePatches
          split
          · exact ⟨rfl, rfl, rfl⟩
          · split
            · exact ⟨rfl, rfl, rfl⟩
            · next h =>
                obtain ⟨-, clients, rfl, hclients⟩ := getClientPatches_frame h
                refine ⟨?_, rfl, rfl⟩
                rw [hclients]
                exact map_modifyFirst (fun _ _ => rfl)
        exact ⟨hcores.trans hone.1, hlive.trans hone.2.1, hlost.trans hone.2.2⟩
  exact hfold _ s

/-- The clients of a project that is loaded are lost ones. -/
theorem mem_load {clients : List (Uuid × List JackPatch)} {c : SessionClient}
    (h : c ∈ (clients.foldl restoreClient s).live ++ (clients.foldl restoreClient s).lost) :
    c ∈ s.live ++ s.lost ∨ (c.id, c.jackPatches) ∈ clients := by
  induction clients generalizing s with
  | nil => exact Or.inl h
  | cons r clients ih =>
      rcases ih h with hc | hc
      · have hc : c ∈ s.live ++ (_ :: s.lost) := hc
        rcases List.mem_append.mp hc with hc | hc
        · exact Or.inl (List.mem_append_left _ hc)
        · rcases List.mem_cons.mp hc with rfl | hc
          · exact Or.inr List.mem_cons_self
          · exact Or.inl (List.mem_append_right _ hc)
      · exact Or.inr (List.mem_cons_of_mem _ hc)

theorem load_frame (clients : List (Uuid × List JackPatch)) (s : JackSession) :
    (clients.foldl restoreClient s).mgr = s.mgr ∧ (clients.foldl restoreClient s).jack =
    s.jack := by
  induction clients generalizing s with
  | nil => exact ⟨rfl, rfl⟩
  | cons r clients ih => exact ih (s.restoreClient r)

theorem walkUnknown_find {q : JackMgrClient → Bool} {l : List JackMgrClient}
    {r : Option JackMgrClient} (h : walkUnknown q l = some r) : l.find? q = r := by
  induction l with
  | nil => exact Option.some.inj h
  | cons c l ih =>
      rw [walkUnknown] at h
      split at h
      · exact absurd h (by simp)
      · split at h
        · next hq => rw [List.find?_cons_of_pos hq, Option.some.inj h]
        · next hq => rw [List.find?_cons_of_neg hq, ih h]

/-- The client of a `Connect` call is a lost one or a new one; the manager is not touched. -/
theorem connected_frame (s : JackSession) (pid : Int) (id : Uuid) (place : Nat) :
    (s.connected pid id place).1.mgr = s.mgr ∧ (s.connected pid id place).1.jack = s.jack ∧
      ((s.lost.find? (fun c => c.pid = pid) = some (s.connected pid id place).2 ∧ pid ≠ 0) ∨
        (s.connected pid id place).2.id = id) := by
  unfold connected
  split
  · next lc h =>
      split at h
      · exact absurd h (by simp)
      · next hpid => exact ⟨rfl, rfl, Or.inl ⟨h, hpid⟩⟩
  · exact ⟨rfl, rfl, Or.inr rfl⟩

theorem mem_of_findByPid {pid : Int} (h : s.findByPid pid = some lc) : lc ∈ s.live ++ s.lost := by
  rcases Option.or_eq_some_iff.mp h with h | ⟨-, h⟩
  · exact List.mem_append_left _ (List.mem_of_find?_eq_some h)
  · exact List.mem_append_right _ (List.mem_of_find?_eq_some h)

/-- The other clients are where they were. -/
theorem mem_connected {pid : Int} {id : Uuid} {place : Nat} {c : SessionClient}
    (h : c ∈ (s.connected pid id place).1.live ++ (s.connected pid id place).1.lost) :
    c ∈ s.live ++ s.lost ∨ c.id = id := by
  unfold connected at h
  split at h
  · next lc hlc =>
      split at hlc
      · exact absurd hlc (by simp)
      · rcases List.mem_append.mp h with h | h
        · rcases List.eq_or_mem_of_mem_insertIdx h with rfl | h
          · exact Or.inl (List.mem_append_right _ (List.mem_of_find?_eq_some hlc))
          · exact Or.inl (List.mem_append_left _ h)
        · exact Or.inl (List.mem_append_right _ (Keyed.mem_of_mem_del h))
  · rcases List.mem_append.mp h with h | h
    · rcases List.eq_or_mem_of_mem_insertIdx h with rfl | h
      · exact Or.inr rfl
      · exact Or.inl (List.mem_append_left _ h)
    · exact Or.inl (List.mem_append_right _ h)

/-! ## What a step can do -/

/-- A new JACK client is ignored, bound to the LASH client with its process id, or unknown. -/
theorem onClientAppeared_cases {id : Nat} {name : CStr} (ht : s.onClientAppeared name id = some t) :
    t = s ∨
      (0 < getClientPid s.jack id ∧ ∃ lc, s.findByPid (getClientPid s.jack id) = some lc ∧
        s.bind (jackMgrClientNew name id (getClientPid s.jack id)) lc = some t) ∨
      t = { s with mgr := { s.mgr with unknownClients :=
        s.mgr.unknownClients ++ [jackMgrClientNew name id (getClientPid s.jack id)] } } := by
  unfold onClientAppeared at ht
  dsimp only at ht
  split at ht
  · exact Or.inl (Option.some.inj ht).symm
  · next hpid =>
      right
      split at ht
      · next lc hlc => exact Or.inl ⟨by omega, lc, hlc, ht⟩
      · obtain ⟨l, hl, rfl⟩ := Option.map_eq_some_iff.mp ht
        unfold addUnknown at hl
        split at hl
        · exact absurd hl (by simp)
        · rw [← Option.some.inj hl]
          exact Or.inr rfl

/-- The client of a `Connect` call stays as it is or is bound to the unknown JACK client with its
process id. -/
theorem serverAddClient_cases {pid : Int} {id : Uuid} {place : Nat}
    (ht : s.serverAddClient pid id place = some t) :
    t = (s.connected pid id place).1 ∨
      ∃ jc, s.mgr.unknownClients.find? (fun c => c.pid = pid) = some jc ∧
        JackSession.bind { (s.connected pid id place).1 with
          mgr := { s.mgr with
            unknownClients := s.mgr.unknownClients.eraseP (fun c => c.pid = pid) } }
          jc (s.connected pid id place).2 = some t := by
  obtain ⟨hmgr, -, -⟩ := s.connected_frame pid id place
  unfold serverAddClient at ht
  dsimp only at ht
  split at ht
  · exact absurd ht (by simp)
  · exact Or.inl (Option.some.inj ht).symm
  · next jc hwalk =>
      rw [hmgr] at hwalk ht
      exact Or.inr ⟨jc, walkUnknown_find hwalk, ht⟩

/-- The JACK server after something happened. -/
def after (j : JackServer) : JackInput → JackServer
  | .clientAppeared id name pid => j.addClient id name pid
  | .clientDisappeared id => j.delClient id
  | .portAppeared id port => j.addPort id port
  | .portDisappeared id port => j.delPort id port
  | .portsConnected p => j.connect p
  | .portsDisconnected p => j.disconnect p
  | .serverStarted graph pid => { running := true, graph, pid }
  | .serverStopped => { j with running := false }
  | _ => j

/-- The JACK server does not depend on the daemon, and the daemon's log only grows. -/
theorem step_server (ht : s.step i = some t) :
    t.jack = after s.jack i ∧ ∃ events, t.log = s.log ++ events := by
  have hbind : ∀ {s t : JackSession} {jc : JackMgrClient} {lc : SessionClient},
      s.bind jc lc = some t → t.jack = s.jack ∧ ∃ events, t.log = s.log ++ events := by
    intro s t jc lc hbind
    obtain ⟨_, _, -, -, -, -, -, hjack, -, -, -, hlog, -⟩ := bind_frame hbind
    exact ⟨hjack, _, hlog⟩
  have hquiet : ∃ events, s.log = s.log ++ events := ⟨[], (List.append_nil _).symm⟩
  cases i with
  | clientAppeared id name pid =>
      rcases onClientAppeared_cases ht with rfl | ⟨-, lc, -, hb⟩ | rfl
      · exact ⟨rfl, hquiet⟩
      · exact hbind hb
      · exact ⟨rfl, hquiet⟩
  | clientDisappeared id =>
      rw [onClientDisappeared_mgr ht]
      exact ⟨rfl, hquiet⟩
  | portAppeared id port =>
      obtain ⟨requests, hrequests, -⟩ := onPortAppeared_frame
        { s with jack := s.jack.addPort id port } id ((s.jack.clientName id).getD []) port
      rw [JackSession.step, hrequests] at ht
      rw [← Option.some.inj ht]
      exact ⟨rfl, requests, rfl⟩
  | portDisappeared id port =>
      rw [← Option.some.inj ht]
      exact ⟨rfl, hquiet⟩
  | portsConnected p =>
      obtain ⟨clients, rfl, -⟩ := portsConnected_frame ht
      exact ⟨rfl, hquiet⟩
  | portsDisconnected p =>
      rw [← Option.some.inj ht]
      exact ⟨rfl, hquiet⟩
  | serverStarted g pid =>
      rw [JackSession.step, onServerStarted, getUnknownClients] at ht
      dsimp only at ht
      split at ht
      · rw [← Option.some.inj ht]
        exact ⟨rfl, hquiet⟩
      · obtain ⟨l, -, rfl⟩ := Option.map_eq_some_iff.mp ht
        exact ⟨rfl, hquiet⟩
  | serverStopped =>
      rw [JackSession.step, clear] at ht
      split at ht
      · exact absurd ht (by simp)
      · rw [← Option.some.inj ht]
        exact ⟨rfl, hquiet⟩
  | load clients =>
      rw [← Option.some.inj ht]
      refine ⟨(load_frame clients s).2, ?_⟩
      have hfold : ∀ (l : List (Uuid × List JackPatch)) (u : JackSession),
          ∃ events, (l.foldl restoreClient u).log = u.log ++ events := by
        intro l
        induction l with
        | nil => exact fun u => ⟨[], (List.append_nil _).symm⟩
        | cons r l ih =>
            intro u
            obtain ⟨events, hevents⟩ := ih (u.restoreClient r)
            refine ⟨.recorded u.nextAddr r.2 :: events, hevents.trans ?_⟩
            exact (List.append_cons _ _ _).symm
      exact hfold clients s
  | launch addr pid =>
      rw [← Option.some.inj ht]
      exact ⟨rfl, hquiet⟩
  | connect pid id place =>
      have hlog : (s.connected pid id place).1.log = s.log := by
        unfold connected
        split <;> rfl
      obtain ⟨-, hjack, -⟩ := s.connected_frame pid id place
      rcases serverAddClient_cases ht with rfl | ⟨jc, -, hb⟩
      · rw [hlog]
        exact ⟨hjack, hquiet⟩
      · obtain ⟨hjack', events, hlog'⟩ := hbind hb
        exact ⟨hjack'.trans hjack, events, hlog'.trans (by rw [← hlog])⟩
  | lose addr place =>
      rw [JackSession.step] at ht
      split at ht <;> rw [← Option.some.inj ht] <;> exact ⟨rfl, hquiet⟩
  | save =>
      rw [← Option.some.inj ht]
      exact ⟨rfl, hquiet⟩
  | clearLost addrs =>
      rw [← Option.some.inj ht]
      exact ⟨rfl, hquiet⟩
  | writeInfo addrs =>
      rw [← Option.some.inj ht]
      refine ⟨(s.shrinks_writeInfo addrs).2, ?_⟩
      have hfold : ∀ (l : List SessionClient) (u : JackSession),
          ∃ events, (l.foldl writePatches u).log = u.log ++ events := by
        intro l
        induction l with
        | nil => exact fun u => ⟨[], (List.append_nil _).symm⟩
        | cons lc l ih =>
            intro u
            obtain ⟨events, hevents⟩ := ih (u.writePatches lc)
            have hone : ∃ first, (u.writePatches lc).log = u.log ++ first := by
              unfold writePatches
              split
              · exact ⟨[], (List.append_nil _).symm⟩
              · split
                · exact ⟨[], (List.append_nil _).symm⟩
                · exact ⟨_, rfl⟩
            obtain ⟨first, hfirst⟩ := hone
            refine ⟨first ++ events, hevents.trans ?_⟩
            rw [hfirst, List.append_assoc]
      exact hfold _ s
  | unload addrs =>
      rw [← Option.some.inj ht]
      exact ⟨rfl, hquiet⟩

end JackSession

end Lash
