import Lash.Jack.Frames
import Lash.Jack.Restart

/-!
# The roster

The clients of the graph, their ids and names, and what the manager knows of them whatever the
LASH clients do: ids and names are not used twice, the saved graph is the current one or is known
to be an old one, and every unknown client is a client of the graph, once (`Rostered`).
-/

namespace Lash

open First

/-! ## The roster -/

namespace JackServer

/-- The clients of the graph: ids and names. -/
def roster (j : JackServer) : List (Nat × CStr) := j.graph.clients.map (fun c => (c.id, c.name))

variable {j : JackServer}

theorem roster_addClient (id : Nat) (name : CStr) (pid : Int) :
    (j.addClient id name pid).roster = j.roster ++ [(id, name)] := by
  simp [roster, addClient, change]

theorem roster_delClient (id : Nat) :
    (j.delClient id).roster = j.roster.filter (fun c => c.1 ≠ id) := by
  rw [roster, roster, delClient, change, List.filter_map]
  rfl

theorem roster_addPort (id : Nat) (port : CStr) : (j.addPort id port).roster = j.roster := by
  rw [roster, addPort, change, List.map_map]
  apply List.map_congr_left
  intro c _
  by_cases h : c.id = id <;> simp [h]

theorem roster_delPort (id : Nat) (port : CStr) : (j.delPort id port).roster = j.roster := by
  rw [roster, delPort, change, List.map_map]
  apply List.map_congr_left
  intro c _
  by_cases h : c.id = id <;> simp [h]

/-- The server knows the process of a client that has come up. -/
theorem getClientPid_addClient {id : Nat} {name : CStr} {pid : Int} (hrun : j.running = true) :
    getClientPid (j.addClient id name pid) id = pid := by
  have hany : (j.addClient id name pid).graph.clients.any (fun c => c.id = id) = true := by
    rw [List.any_eq_true]
    exact ⟨{ id, name, ports := [] }, by simp [addClient, change], by simp⟩
  rw [getClientPid, if_pos ⟨hrun, hany⟩]
  simp [addClient]

/-- The graph finds a client under its name. -/
theorem find_of_roster {id : Nat} {name : CStr} (hnames : (j.roster.map Prod.snd).Nodup)
    (h : (id, name) ∈ j.roster) :
    ∃ gc, j.graph.clients.find? (fun gc => gc.name = name) = some gc ∧ gc.id = id ∧
      gc ∈ j.graph.clients ∧ gc.name = name := by
  obtain ⟨gc, hgc, he⟩ := List.mem_map.mp h
  obtain ⟨rfl, rfl⟩ := Prod.mk.inj he
  have hnames : (j.graph.clients.map GraphClient.name).Nodup := by
    rw [roster, List.map_map] at hnames
    exact hnames
  exact ⟨gc, Keyed.find_key hnames hgc, rfl, hgc, rfl⟩

end JackServer

/-! ## The unknown clients and the graph -/

namespace JackSession

variable {s t : JackSession} {i : JackInput} {jc : JackMgrClient} {lc : SessionClient}

theorem mem_roster_fst {id : Nat} :
    id ∈ s.jack.roster.map Prod.fst ↔ ∃ c ∈ s.jack.graph.clients, c.id = id := by
  rw [JackServer.roster, List.map_map, List.mem_map]
  rfl

/-- What holds of the graph and the unknown clients as long as no server stops while there are
unknown clients. -/
structure Rostered (s : JackSession) : Prop where
  ids : (s.jack.roster.map Prod.fst).Nodup
  names : (s.jack.roster.map Prod.snd).Nodup
  nonzero : 0 ∉ s.jack.roster.map Prod.fst
  synced : s.mgr.Synced s.jack
  unknownIds : (s.mgr.unknownClients.map JackMgrClient.jackdbusId).Nodup
  unknown : ∀ e ∈ s.mgr.unknownClients, (e.jackdbusId, e.name) ∈ s.jack.roster
  stopped : s.jack.running = false → s.mgr.unknownClients = []

namespace Rostered

/-- Unknown clients may go away, and the clients of the graph may change their ports. -/
theorem shrink (h : s.Rostered) (hunknown : t.mgr.unknownClients.Sublist s.mgr.unknownClients)
    (hsync : t.mgr.Synced t.jack) (hroster : t.jack.roster = s.jack.roster)
    (hrun : t.jack.running = s.jack.running) : t.Rostered where
  ids := hroster ▸ h.ids
  names := hroster ▸ h.names
  nonzero := hroster ▸ h.nonzero
  synced := hsync
  unknownIds := h.unknownIds.sublist (hunknown.map _)
  unknown e he := hroster ▸ h.unknown e (hunknown.subset he)
  stopped hstop := by
    rw [h.stopped (hrun ▸ hstop)] at hunknown
    exact List.sublist_nil.mp hunknown

/-- The graph of the JACK server changes, and its clients stay. -/
theorem change {j : JackServer} (h : s.Rostered) (hroster : j.roster = s.jack.roster)
    (hrun : j.running = s.jack.running) (hsync : s.mgr.Synced j) :
    ({ s with jack := j } : JackSession).Rostered :=
  h.shrink (.refl _) hsync hroster hrun

/-- Binding takes place in the list of entries. -/
theorem bind (h : s.Rostered) (ht : s.bind jc lc = some t) : t.Rostered := by
  obtain ⟨_, _, -, -, -, -, hunknown, hjack, -, -, -, -, hsync, -⟩ := bind_frame ht
  apply h.shrink
  · rw [hunknown]
  · rw [hjack]
    exact hsync h.synced
  · rw [hjack]
  · rw [hjack]

/-- The graph finds a client of the roster, under its id, which is not 0. -/
theorem find (h : s.Rostered) {id : Nat} {name : CStr} (hmem : (id, name) ∈ s.jack.roster) :
    ∃ gc, s.jack.graph.clients.find? (fun gc => gc.name = name) = some gc ∧ gc.id = id ∧
      gc.id ≠ 0 ∧ gc ∈ s.jack.graph.clients ∧ gc.name = name := by
  obtain ⟨gc, hfind, hid, hgc, hname⟩ := JackServer.find_of_roster h.names hmem
  refine ⟨gc, hfind, hid, ?_, hgc, hname⟩
  intro hzero
  apply h.nonzero
  rw [← hzero, hid]
  exact List.mem_map_of_mem hmem

/-- A new client of the graph, before the daemon hears of it. -/
theorem appear (h : s.Rostered) {id : Nat} {name : CStr} {pid : Int} (hid : id ≠ 0)
    (hnew : ∀ c ∈ s.jack.graph.clients, c.id ≠ id ∧ c.name ≠ name) (hrun : s.jack.running = true) :
    ({ s with jack := s.jack.addClient id name pid } : JackSession).Rostered ∧
      id ∉ s.jack.roster.map Prod.fst ∧ id ∉ s.mgr.unknownClients.map JackMgrClient.jackdbusId := by
  have hids : id ∉ s.jack.roster.map Prod.fst := by
    intro hmem
    obtain ⟨c, hc, hcid⟩ := mem_roster_fst.mp hmem
    exact (hnew c hc).1 hcid
  have hnames : name ∉ s.jack.roster.map Prod.snd := by
    intro hmem
    rw [JackServer.roster, List.map_map] at hmem
    obtain ⟨c, hc, hname⟩ := List.mem_map.mp hmem
    exact (hnew c hc).2 hname
  have hroster := @JackServer.roster_addClient s.jack id name pid
  refine ⟨⟨?_, ?_, ?_, ?_, h.unknownIds, ?_, ?_⟩, hids, ?_⟩
  · show ((s.jack.addClient id name pid).roster.map Prod.fst).Nodup
    rw [hroster, List.map_append]
    exact nodup_append_one h.ids hids
  · show ((s.jack.addClient id name pid).roster.map Prod.snd).Nodup
    rw [hroster, List.map_append]
    exact nodup_append_one h.names hnames
  · show 0 ∉ (s.jack.addClient id name pid).roster.map Prod.fst
    rw [hroster, List.map_append, List.mem_append, not_or]
    exact ⟨h.nonzero, fun hz => hid (List.mem_singleton.mp hz).symm⟩
  · exact ⟨(h.synced.change _ _).older, (h.synced.change _ _).current,
      (h.synced.change _ _).counted⟩
  · intro e he
    show (e.jackdbusId, e.name) ∈ (s.jack.addClient id name pid).roster
    rw [hroster]
    exact List.mem_append_left _ (h.unknown e he)
  · intro hstop
    have hstop : s.jack.running = false := hstop
    exact absurd hrun (by rw [hstop]; simp)
  · intro hmem
    obtain ⟨e, he, heid⟩ := List.mem_map.mp hmem
    exact hids (heid ▸ List.mem_map_of_mem (h.unknown e he))

/-- `lashd_jackdbus_on_client_appeared`: the new client is bound or unknown. -/
theorem clientAppeared (h : s.Rostered) {id : Nat} {name : CStr} (hrun : s.jack.running = true)
    (hroster : (id, name) ∈ s.jack.roster)
    (hfresh : id ∉ s.mgr.unknownClients.map JackMgrClient.jackdbusId)
    (ht : s.onClientAppeared name id = some t) : t.Rostered := by
  rcases onClientAppeared_cases ht with rfl | ⟨-, lc, -, hbind⟩ | rfl
  · exact h
  · exact h.bind hbind
  · refine ⟨h.ids, h.names, h.nonzero, h.synced.congr rfl rfl, ?_, ?_, ?_⟩
    · show ((s.mgr.unknownClients ++ [_]).map JackMgrClient.jackdbusId).Nodup
      rw [List.map_append, List.map_singleton]
      exact nodup_append_one h.unknownIds hfresh
    · intro e he
      rcases List.mem_append.mp he with he | he
      · exact h.unknown e he
      · rw [List.mem_singleton.mp he]
        exact hroster
    · intro hstop
      have hstop : s.jack.running = false := hstop
      exact absurd hrun (by rw [hstop]; simp)

/-- No unknown client that is left after `lashd_jackdbus_on_client_disappeared` has the id. -/
theorem gone (h : s.Rostered) {id : Nat} {e : JackMgrClient}
    (he : e ∈ s.mgr.unknownClients.eraseP (fun c => c.jackdbusId = id)) : e.jackdbusId ≠ id := by
  intro heid
  cases hfind : s.mgr.unknownClients.find? (fun c => c.jackdbusId = id) with
  | none =>
      have hnone := List.find?_eq_none.mp hfind e (List.eraseP_sublist.subset he)
      exact hnone (by simpa using heid)
  | some c =>
      have hperm := (perm_eraseP hfind).map JackMgrClient.jackdbusId
      have hnodup := hperm.nodup_iff.mpr h.unknownIds
      have hcid : c.jackdbusId = id := by simpa using List.find?_some hfind
      exact (List.nodup_cons.mp hnodup).1 (List.mem_map.mpr ⟨e, he, heid.trans hcid.symm⟩)

/-- `lashd_jackdbus_on_client_disappeared`: a client that is gone is not an unknown one. -/
theorem clientDisappeared (h : s.Rostered) {id : Nat} (hrun : s.jack.running = true)
    (ht : ({ s with jack := s.jack.delClient id } : JackSession).onClientDisappeared id = some t) :
    t.Rostered := by
  rw [onClientDisappeared_mgr ht]
  have hroster := @JackServer.roster_delClient s.jack id
  have hsub : (s.jack.delClient id).roster.Sublist s.jack.roster := by
    rw [hroster]
    exact List.filter_sublist
  refine ⟨h.ids.sublist (hsub.map _), h.names.sublist (hsub.map _),
    fun hz => h.nonzero ((hsub.map _).subset hz), (h.synced.change _ _).congr rfl rfl,
    h.unknownIds.sublist (List.eraseP_sublist.map _), ?_, ?_⟩
  · intro e he
    show (e.jackdbusId, e.name) ∈ (s.jack.delClient id).roster
    rw [hroster]
    exact List.mem_filter.mpr ⟨h.unknown e (List.eraseP_sublist.subset he),
      by simpa using h.gone he⟩
  · intro hstop
    have hstop : s.jack.running = false := hstop
    exact absurd hrun (by rw [hstop]; simp)

/-- The server starts: every client of its graph is new. -/
theorem serverStarted (h : s.Rostered) {g : Graph} {pid : Nat → Int}
    (hstop : s.jack.running = false) (hversion : g.version ≠ 0)
    (hids : (g.clients.map GraphClient.id).Nodup) (hnames : (g.clients.map GraphClient.name).Nodup)
    (hnonzero : ∀ c ∈ g.clients, c.id ≠ 0) (ht : s.step (.serverStarted g pid) = some t) :
    t.Rostered := by
  obtain ⟨u, hu, hjack, -, -, -, hunknown⟩ :=
    @step_serverStarted s g pid (h.stopped hstop) hversion
  obtain rfl : u = t := Option.some.inj (hu.symm.trans ht)
  have hget : u.mgr.graph = some g ∧ u.mgr.graphVersion = g.version := by
    rw [step, onServerStarted] at ht
    have hget : ({ s.mgr with graphVersion := 0 } : JackDbusMgr).getGraph
        { running := true, graph := g, pid := pid }
        = { s.mgr with graph := some g, graphVersion := g.version } :=
      if_neg (by simpa using hversion)
    dsimp only at ht
    rw [hget] at ht
    obtain ⟨l, _, rfl⟩ := Option.map_eq_some_iff.mp ht
    exact ⟨rfl, rfl⟩
  have hroster : u.jack.roster = g.clients.map (fun c => (c.id, c.name)) := by rw [hjack]; rfl
  refine ⟨?_, ?_, ?_, ?_, ?_, ?_, ?_⟩
  · rw [hroster, List.map_map]
    exact hids
  · rw [hroster, List.map_map]
    exact hnames
  · rw [hroster, List.map_map]
    intro hz
    obtain ⟨c, hc, hcz⟩ := List.mem_map.mp hz
    exact hnonzero c hc hcz
  · rw [hjack]
    exact ⟨fun _ => le_of_eq hget.2, fun _ _ => hget.1, fun _ => hversion⟩
  · rw [hunknown, map_jackdbusId_unknownEntry]
    exact hids.sublist (List.filter_sublist.map _)
  · intro e he
    rw [hunknown] at he
    obtain ⟨gc, hgc, rfl⟩ := List.mem_map.mp he
    rw [hroster]
    exact List.mem_map_of_mem (List.mem_of_mem_filter hgc)
  · intro hrun
    rw [hjack] at hrun
    exact absurd hrun (by simp)

/-- `server_add_client`: an unknown client may be bound. -/
theorem connect (h : s.Rostered) {pid : Int} {id : Uuid} {place : Nat}
    (ht : s.serverAddClient pid id place = some t) : t.Rostered := by
  obtain ⟨hmgr, hjack, -⟩ := s.connected_frame pid id place
  rcases serverAddClient_cases ht with rfl | ⟨jc, -, hbind⟩
  · apply h.shrink
    · rw [hmgr]
    · rw [hmgr, hjack]
      exact h.synced
    · rw [hjack]
    · rw [hjack]
  · refine Rostered.bind ?_ hbind
    apply h.shrink List.eraseP_sublist
    · dsimp only
      rw [hjack]
      exact h.synced.congr rfl rfl
    · dsimp only
      rw [hjack]
    · dsimp only
      rw [hjack]

/-- **One step** keeps the roster, unless the server stops while there are unknown clients. -/
theorem step (h : s.Rostered) (hok : s.Promised i)
    (hstop : i = .serverStopped → s.mgr.unknownClients = []) (ht : s.step i = some t) :
    t.Rostered := by
  cases i with
  | clientAppeared id name pid =>
      obtain ⟨hrun, hid, hnew⟩ := hok
      obtain ⟨h', -, hfresh⟩ := @Rostered.appear s h id name pid hid hnew hrun
      refine Rostered.clientAppeared h' hrun ?_ hfresh ht
      show (id, name) ∈ (s.jack.addClient id name pid).roster
      rw [JackServer.roster_addClient]
      simp
  | clientDisappeared id => exact h.clientDisappeared hok.1 ht
  | portAppeared id port =>
      have h' := h.change (JackServer.roster_addPort id port) rfl (h.synced.change _ _)
      obtain ⟨requests, hrequests, -⟩ := onPortAppeared_frame
        { s with jack := s.jack.addPort id port } id ((s.jack.clientName id).getD []) port
      rw [JackSession.step, hrequests] at ht
      rw [← Option.some.inj ht]
      exact h'.shrink (.refl _) h'.synced rfl rfl
  | portDisappeared id port =>
      rw [← Option.some.inj ht]
      exact h.change (JackServer.roster_delPort id port) rfl (h.synced.change _ _)
  | portsConnected p =>
      have h' := @Rostered.change s (s.jack.connect p) h rfl rfl (h.synced.change _ _)
      obtain ⟨clients, rfl, -⟩ := portsConnected_frame ht
      exact h'.shrink (.refl _) (h'.synced.congr rfl rfl) rfl rfl
  | portsDisconnected p =>
      rw [← Option.some.inj ht]
      exact h.change rfl rfl (h.synced.change _ _)
  | serverStarted g pid =>
      obtain ⟨hstopped, hversion, hids, hnames, hnonzero⟩ := hok
      exact h.serverStarted hstopped hversion hids hnames hnonzero ht
  | serverStopped =>
      have hunknown := hstop rfl
      rw [JackSession.step, clear] at ht
      split at ht
      · exact absurd ht (by simp)
      · rw [← Option.some.inj ht]
        refine ⟨h.ids, h.names, h.nonzero, ⟨?_, ?_, ?_⟩, ?_, ?_, ?_⟩
        · exact fun hrun => absurd hrun (by simp)
        · exact fun _ hrun => absurd hrun (by simp)
        · exact fun hrun => absurd hrun (by simp)
        · show ((s.mgr.unknownClients.map _).map JackMgrClient.jackdbusId).Nodup
          rw [hunknown]
          exact List.nodup_nil
        · intro e he
          obtain ⟨d, hd, rfl⟩ := List.mem_map.mp he
          exact h.unknown d hd
        · exact fun _ => List.map_eq_nil_iff.mpr hunknown
  | load clients =>
      rw [← Option.some.inj ht]
      obtain ⟨hmgr, hjack⟩ := load_frame clients s
      exact h.shrink (by rw [hmgr]) (by rw [hmgr, hjack]; exact h.synced) (by rw [hjack])
        (by rw [hjack])
  | launch addr pid =>
      rw [← Option.some.inj ht]
      exact h.shrink (.refl _) h.synced rfl rfl
  | connect pid id place => exact h.connect ht
  | lose addr place =>
      rw [JackSession.step] at ht
      split at ht
      · rw [← Option.some.inj ht]
        exact h
      · next lc _ =>
          rw [← Option.some.inj ht]
          have hmgr := s.shrinks_takeBack lc
          exact h.shrink hmgr.unknown (hmgr.synced _ h.synced) rfl rfl
  | save =>
      rw [← Option.some.inj ht]
      refine h.shrink ?_ (getGraph_synced h.synced) rfl rfl
      rw [getGraph_unknownClients]
  | clearLost addrs =>
      rw [← Option.some.inj ht]
      exact h.shrink (.refl _) h.synced rfl rfl
  | writeInfo addrs =>
      rw [← Option.some.inj ht]
      obtain ⟨hmgr, hjack⟩ := s.shrinks_writeInfo addrs
      apply h.shrink hmgr.unknown
      · rw [hjack]
        exact hmgr.synced _ h.synced
      · rw [hjack]
      · rw [hjack]
  | unload addrs =>
      rw [← Option.some.inj ht]
      have hmgr := s.shrinks_unload addrs
      exact h.shrink hmgr.unknown (hmgr.synced _ h.synced) rfl rfl

end Rostered

theorem initial_rostered : initial.Rostered where
  ids := List.nodup_nil
  names := List.nodup_nil
  nonzero := by simp [initial, JackServer.roster]
  synced := ⟨fun h => absurd h (by simp [initial]), fun _ h => absurd h (by simp [initial]),
    fun h => absurd h (by simp [initial])⟩
  unknownIds := List.nodup_nil
  unknown _ he := absurd he (by simp [initial])
  stopped _ := rfl

end JackSession

end Lash
