import Lash.Jack.Manager
import Mathlib.Data.List.Nodup

/-!
# The JACK server stops and starts

`lashd_jackdbus_mgr_clear` destroys the unknown clients without taking them out of the list, so the
list is in order after the server stopped only if there was nothing in it. And
`lashd_jackdbus_mgr_get_unknown_clients`, which fills it when the server starts, compares no process
ids, so it takes clients for unknown that are those of a LASH client
(`restart_is_clean`).
-/

namespace Lash

namespace JackSession

variable {s t : JackSession} {g : Graph} {pid : Nat → Int}

/-! ## The teardown -/

/-- The list of unknown clients is in order after the server stopped if and only if it was empty. -/
theorem step_serverStopped :
    (∃ t, s.step .serverStopped = some t ∧ t.mgr.unknownClients = []) ↔
    s.mgr.unknownClients = [] := by
  constructor
  · rintro ⟨t, ht, hnil⟩
    rw [step, clear] at ht
    split at ht
    · exact absurd ht (by simp)
    · rw [← Option.some.inj ht] at hnil
      exact List.map_eq_nil_iff.mp hnil
  · intro hnil
    rw [step, clear, if_neg (by simp [hnil])]
    exact ⟨_, rfl, List.map_eq_nil_iff.mpr hnil⟩

/-- What is left when the server stopped and there were no unknown clients. -/
theorem serverStopped_frame (h : s.step .serverStopped = some t) :
    t.live = s.live ∧ t.lost = s.lost ∧ t.mgr.clients = s.mgr.clients ∧ t.mgr.graph = none := by
  rw [step, clear] at h
  split at h
  · exact absurd h (by simp)
  · rw [← Option.some.inj h]
    exact ⟨rfl, rfl, rfl, rfl⟩

/-! ## The refill -/

/-- The entry for an unknown client of the graph. -/
def unknownEntry (j : JackServer) (gc : GraphClient) : JackMgrClient :=
  jackMgrClientNew gc.name gc.id (getClientPid j gc.id)

theorem addUnknown_of_live {l : List JackMgrClient} (h : ∀ c ∈ l, c.freed = false)
    (c : JackMgrClient) : addUnknown l c = some (l ++ [c]) := by
  apply if_neg
  intro hfreed
  obtain ⟨d, hd, hfreed⟩ := (Option.any_eq_true _ _).mp hfreed
  rw [h d (List.mem_of_getLast? hd)] at hfreed
  exact absurd hfreed (by simp)

/-- Every client of the graph that has a process id becomes an unknown one. -/
theorem addUnknownClients_eq (j : JackServer) {l : List JackMgrClient}
    (h : ∀ c ∈ l, c.freed = false)
    (gcs : List GraphClient) :
    addUnknownClients j l gcs
      = some (l ++ (gcs.filter (fun gc => getClientPid j gc.id ≠ 0)).map (unknownEntry j)) := by
  induction gcs generalizing l with
  | nil => simp [addUnknownClients]
  | cons gc gcs ih =>
      rw [addUnknownClients]
      by_cases hpid : getClientPid j gc.id ≠ 0
      · have hlive : ∀ c ∈ l ++ [unknownEntry j gc], c.freed = false := by
          intro c hc
          rcases List.mem_append.mp hc with hc | hc
          · exact h c hc
          · rw [List.mem_singleton.mp hc]
            rfl
        rw [if_pos hpid, addUnknown_of_live h, Option.bind_some,
          List.filter_cons_of_pos (by simpa using hpid), List.map_cons]
        refine (ih hlive).trans ?_
        rw [List.append_assoc]
        rfl
      · rw [if_neg hpid, ih h, List.filter_cons_of_neg (by simpa using hpid)]

theorem getClientPid_eq {j : JackServer} {gc : GraphClient} (hrun : j.running = true)
    (h : gc ∈ j.graph.clients) : getClientPid j gc.id = j.pid gc.id := by
  refine if_pos ⟨hrun, ?_⟩
  exact List.any_eq_true.mpr ⟨gc, h, by simp⟩

/-- The session after the server started again, where nothing was left of the unknown clients. -/
theorem step_serverStarted (hnil : s.mgr.unknownClients = []) (hversion : g.version ≠ 0) :
    ∃ t, s.step (.serverStarted g pid) = some t ∧
      t.jack = { running := true, graph := g, pid := pid } ∧
      t.live = s.live ∧ t.lost = s.lost ∧ t.mgr.clients = s.mgr.clients ∧
        t.mgr.unknownClients
          = (g.clients.filter (fun gc => pid gc.id ≠ 0)).map (unknownEntry t.jack) := by
  have hfilter : g.clients.filter
      (fun gc => getClientPid { running := true, graph := g, pid := pid } gc.id ≠ 0)
      = g.clients.filter (fun gc => pid gc.id ≠ 0) := by
    apply List.filter_congr
    intro gc hgc
    rw [getClientPid_eq rfl hgc]
  have hall := addUnknownClients_eq { running := true, graph := g, pid := pid } (l := [])
    (by simp) g.clients
  rw [hfilter, List.nil_append] at hall
  have hget : ({ s.mgr with graphVersion := 0 } : JackDbusMgr).getGraph
      { running := true, graph := g, pid := pid }
      = { s.mgr with graph := some g, graphVersion := g.version } :=
    if_neg (by simpa using hversion)
  rw [step, onServerStarted, hget, getUnknownClients]
  dsimp only
  rw [hnil, hall]
  exact ⟨_, rfl, rfl, rfl, rfl, rfl, rfl⟩

/-! ## A clean registry -/

/-- Every JACK client with a process id is where it belongs: bound, if it is the one of a LASH
client, and otherwise unknown, once. -/
structure Clean (s : JackSession) : Prop where
  live : ∀ e ∈ s.mgr.unknownClients, e.freed = false
  bound : ∀ gc ∈ s.jack.graph.clients, s.jack.pid gc.id ≠ 0 →
    ∀ lc, s.findByPid (s.jack.pid gc.id) = some lc →
      ∃ e ∈ s.mgr.clients, e.jackdbusId = gc.id ∧ e.id = lc.id
  once : ∀ gc ∈ s.jack.graph.clients, s.jack.pid gc.id ≠ 0 →
    s.findByPid (s.jack.pid gc.id) = none →
      (s.mgr.unknownClients.map JackMgrClient.jackdbusId).count gc.id = 1
  only : ∀ e ∈ s.mgr.unknownClients, ∃ gc ∈ s.jack.graph.clients,
    gc.id = e.jackdbusId ∧ s.jack.pid gc.id ≠ 0 ∧ s.findByPid (s.jack.pid gc.id) = none

theorem findByPid_congr (hlive : t.live = s.live) (hlost : t.lost = s.lost) (n : Int) :
    t.findByPid n = s.findByPid n := by
  rw [findByPid, findByPid, hlive, hlost]

theorem map_jackdbusId_unknownEntry (j : JackServer) (l : List GraphClient) :
    (l.map (unknownEntry j)).map JackMgrClient.jackdbusId = l.map GraphClient.id := by
  rw [List.map_map]
  rfl

/-- A refilled registry is clean if and only if none of the clients is the one of a LASH client. -/
theorem clean_iff (hids : (g.clients.map GraphClient.id).Nodup)
    (hjack : t.jack = { running := true, graph := g, pid := pid })
    (hunknown : t.mgr.unknownClients
      = (g.clients.filter (fun gc => pid gc.id ≠ 0)).map (unknownEntry t.jack)) :
    t.Clean ↔ ∀ gc ∈ g.clients, pid gc.id ≠ 0 → t.findByPid (pid gc.id) = none := by
  constructor
  · intro h gc hgc hpid
    have hmem : unknownEntry t.jack gc ∈ t.mgr.unknownClients := by
      rw [hunknown]
      exact List.mem_map_of_mem (List.mem_filter.mpr ⟨hgc, by simpa using hpid⟩)
    obtain ⟨gc', -, hid, -, hnone⟩ := h.only _ hmem
    have hid : gc'.id = gc.id := hid
    rwa [hjack, hid] at hnone
  · intro h
    refine ⟨?_, ?_, ?_, ?_⟩
    · intro e he
      rw [hunknown] at he
      obtain ⟨gc, _, rfl⟩ := List.mem_map.mp he
      rfl
    · intro gc hgc hpid lc hlc
      rw [hjack] at hgc hpid hlc
      exact absurd hlc (by rw [h gc hgc hpid]; simp)
    · intro gc hgc hpid _
      rw [hjack] at hgc hpid
      rw [hunknown, map_jackdbusId_unknownEntry]
      apply List.count_eq_one_of_mem
      · exact hids.sublist (List.filter_sublist.map _)
      · exact List.mem_map_of_mem (List.mem_filter.mpr ⟨hgc, by simpa using hpid⟩)
    · intro e he
      rw [hunknown] at he
      obtain ⟨gc, hgc, rfl⟩ := List.mem_map.mp he
      obtain ⟨hgc, hpid⟩ := List.mem_filter.mp hgc
      have hpid : pid gc.id ≠ 0 := by simpa using hpid
      refine ⟨gc, ?_, rfl, ?_, ?_⟩
      · rw [hjack]
        exact hgc
      · rw [hjack]
        exact hpid
      · rw [hjack]
        exact h gc hgc hpid

/-- **A stop and a start leave a clean registry** if and only if there was no unknown client before
and none of the clients of the new graph is the one of a LASH client. -/
theorem restart_is_clean (s : JackSession) (g : Graph) (pid : Nat → Int) (hversion : g.version ≠ 0)
    (hids : (g.clients.map GraphClient.id).Nodup) :
    (∃ t, s.step .serverStopped = some t ∧ t.mgr.unknownClients = [] ∧
      ∃ u, t.step (.serverStarted g pid) = some u ∧ u.Clean) ↔
    s.mgr.unknownClients = [] ∧
      ∀ gc ∈ g.clients, pid gc.id ≠ 0 → s.findByPid (pid gc.id) = none := by
  constructor
  · rintro ⟨t, ht, hnil, u, hu, hclean⟩
    obtain ⟨u', hu', hjack, hlive, hlost, -, hunknown⟩ := step_serverStarted hnil hversion
    obtain rfl : u' = u := Option.some.inj (hu'.symm.trans hu)
    obtain ⟨hlive', hlost', -, -⟩ := serverStopped_frame ht
    refine ⟨step_serverStopped.mp ⟨t, ht, hnil⟩, fun gc hgc hpid => ?_⟩
    rw [← findByPid_congr (hlive.trans hlive') (hlost.trans hlost')]
    exact (clean_iff hids hjack hunknown).mp hclean gc hgc hpid
  · rintro ⟨hnil, hnone⟩
    obtain ⟨t, ht, hnil'⟩ := step_serverStopped.mpr hnil
    obtain ⟨u, hu, hjack, hlive, hlost, -, hunknown⟩ := step_serverStarted hnil' hversion
    obtain ⟨hlive', hlost', -, -⟩ := serverStopped_frame ht
    refine ⟨t, ht, hnil', u, hu, (clean_iff hids hjack hunknown).mpr fun gc hgc hpid => ?_⟩
    rw [findByPid_congr (hlive.trans hlive') (hlost.trans hlost')]
    exact hnone gc hgc hpid

/-- Two clients that are there when the server is back. -/
def twoClients : Graph where
  version := 1
  clients := [{ id := 1, name := cstr "metro", ports := [] },
    { id := 2, name := cstr "drums", ports := [] }]
  patches := []

/-- A LASH client is live, its JACK client goes with the server, and two others come with it. -/
theorem restart_is_clean_two :
    ∃ s, Runs.Reach step Promised initial s ∧ s.live.length = 1 ∧ s.mgr.clients.length = 1 ∧
      ∃ t, s.step .serverStopped = some t ∧ t.mgr.unknownClients = [] ∧
        ∃ u, t.step (.serverStarted twoClients (fun id => 6 + id)) = some u ∧ u.Clean := by
  have hrun : (Runs.exec step Promised initial
      [.serverStarted { version := 1, clients := [], patches := [] } (fun _ => 0), .connect 9 1 0,
        .clientAppeared 1 (cstr "synth") 9]).any
      (fun s => (s.live.length = 1 ∧ s.mgr.clients.length = 1) ∧ s.mgr.unknownClients = [] ∧
        ∀ gc ∈ twoClients.clients, (6 + gc.id : Int) ≠ 0 → s.findByPid (6 + gc.id) = none) =
          true := by
    decide +kernel
  obtain ⟨s, hs, hgood⟩ := Runs.Reach.exists_of_exec hrun
  obtain ⟨⟨hlive, hbound⟩, hclean⟩ := of_decide_eq_true hgood
  refine ⟨s, hs, hlive, hbound, ?_⟩
  exact (restart_is_clean s twoClients (fun id => 6 + id) (by decide) (by decide)).mpr hclean

/-- An unknown client that is there when the server stops stays linked after it was destroyed; and a
client that comes with the server is taken for unknown although it is the one of a LASH client. -/
theorem restart_is_not_clean :
    (∃ s, Runs.Reach step Promised initial s ∧
      ¬ ∃ t, s.step .serverStopped = some t ∧ t.mgr.unknownClients = []) ∧
    ∃ s, Runs.Reach step Promised initial s ∧ s.mgr.unknownClients = [] ∧
      ¬ ∃ t, s.step .serverStopped = some t ∧ t.mgr.unknownClients = [] ∧
        ∃ u, t.step (.serverStarted
          { version := 1
            clients := [{ id := 1, name := cstr "synth", ports := [] }]
            patches := [] }
          (fun _ => 7)) = some u ∧ u.Clean := by
  constructor
  · have hrun : (Runs.exec step Promised initial
        [.serverStarted { version := 1, clients := [], patches := [] } (fun _ => 0),
          .clientAppeared 1 (cstr "metro") 7]).any
        (fun s => !s.mgr.unknownClients.isEmpty) = true := by
      decide +kernel
    obtain ⟨s, hs, hbad⟩ := Runs.Reach.exists_of_exec hrun
    refine ⟨s, hs, fun h => ?_⟩
    rw [step_serverStopped.mp h] at hbad
    exact absurd hbad (by simp)
  · have hrun : (Runs.exec step Promised initial [.connect 7 1 0]).any
        (fun s => s.mgr.unknownClients = [] ∧ s.findByPid 7 ≠ none) = true := by
      decide +kernel
    obtain ⟨s, hs, hbad⟩ := Runs.Reach.exists_of_exec hrun
    obtain ⟨hnil, hfind⟩ := of_decide_eq_true hbad
    refine ⟨s, hs, hnil, ?_⟩
    rintro ⟨t, ht, hnil', u, hu, hclean⟩
    obtain ⟨u', hu', hjack, hlive, hlost, -, hunknown⟩ :=
      @step_serverStarted t
        { version := 1, clients := [{ id := 1, name := cstr "synth", ports := [] }], patches := [] }
        (fun _ => 7) hnil' (by decide)
    obtain rfl : u' = u := Option.some.inj (hu'.symm.trans hu)
    obtain ⟨hlive', hlost', -, -⟩ := serverStopped_frame ht
    have hnone := (clean_iff (by decide) hjack hunknown).mp hclean _ (List.mem_singleton.mpr rfl)
      (by decide)
    rw [findByPid_congr (hlive.trans hlive') (hlost.trans hlost')] at hnone
    exact hfind hnone

end JackSession

end Lash
