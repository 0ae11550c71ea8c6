import Lash.Jack.Roster

/-!
# The registry and the graph

The entries of the manager should be in step with the graph: one for a LASH client at most, one
for a JACK client at most, and none for a client that is gone. A bound JACK client that disappears
is not taken out, and a second JACK client with the process id of a LASH client is bound beside
the first; as long as neither happens the registry mirrors the graph (`registry_mirrors`).
-/

namespace Lash

open First

/-! ## The registry mirrors the graph -/

namespace JackSession

variable {s t : JackSession} {i : JackInput} {jc : JackMgrClient} {lc : SessionClient}

/-- One entry for a LASH client, one entry for a JACK client, none for a client that is gone. -/
structure Mirrors (s : JackSession) : Prop where
  uuids : (s.mgr.clients.map JackMgrClient.id).Nodup
  jackIds : ((s.mgr.clients ++ s.mgr.unknownClients).map JackMgrClient.jackdbusId).Nodup
  present : ∀ e ∈ s.mgr.clients ++ s.mgr.unknownClients,
    ∃ gc ∈ s.jack.graph.clients, gc.id = e.jackdbusId

/-- The LASH client, known before, that a step binds a JACK client to. -/
def bindsTo (s : JackSession) : JackInput → Option SessionClient
  | .clientAppeared _ _ pid => if 0 < pid then s.findByPid pid else none
  | .connect pid _ _ => if s.mgr.unknownClients.any (fun jc => jc.pid = pid) then
      s.lost.find? (fun c => c.pid = pid) else none
  | _ => none

/-- A step that binds no JACK client to a LASH client that has an entry. -/
def BindsOnce (s : JackSession) (i : JackInput) : Prop :=
  ∀ lc ∈ s.bindsTo i, ∀ e ∈ s.mgr.clients, e.id ≠ lc.id

/-- A step after which the registry still mirrors the graph: moreover no bound JACK client
disappears, and the server stops only when no client is left. -/
def Tidy (s : JackSession) (i : JackInput) : Prop :=
  s.BindsOnce i ∧
    match i with
    | .clientDisappeared id => ∀ e ∈ s.mgr.clients, e.jackdbusId ≠ id
    | .serverStopped => s.mgr.clients = [] ∧ s.mgr.unknownClients = []
    | _ => True

instance (s : JackSession) (i : JackInput) : Decidable (s.BindsOnce i) :=
  inferInstanceAs (Decidable (∀ lc ∈ s.bindsTo i, ∀ e ∈ s.mgr.clients, e.id ≠ lc.id))

instance (s : JackSession) (i : JackInput) : Decidable (s.Tidy i) := by
  rcases i <;> unfold Tidy <;> infer_instance

/-- What carries `Mirrors` from step to step. -/
structure Tracked (s : JackSession) : Prop where
  ids : (s.jack.roster.map Prod.fst).Nodup
  names : (s.jack.roster.map Prod.snd).Nodup
  nonzero : 0 ∉ s.jack.roster.map Prod.fst
  synced : s.mgr.Synced s.jack
  uuids : ((s.mgr.clients.map JackMgrClient.key).map Prod.fst).Nodup
  jackIds : ((s.mgr.clients.map JackMgrClient.key).map Prod.snd
    ++ s.mgr.unknownClients.map JackMgrClient.jackdbusId).Nodup
  bound : ∀ k ∈ s.mgr.clients.map JackMgrClient.key, k.2 ∈ s.jack.roster.map Prod.fst
  unknown : ∀ e ∈ s.mgr.unknownClients, (e.jackdbusId, e.name) ∈ s.jack.roster
  stopped : s.jack.running = false → s.mgr.clients = [] ∧ s.mgr.unknownClients = []

namespace Tracked

theorem mirrors (h : s.Tracked) : s.Mirrors where
  uuids := by
    have h := h.uuids
    rw [List.map_map] at h
    exact h
  jackIds := by
    have h := h.jackIds
    rw [List.map_map] at h
    rw [List.map_append]
    exact h
  present e he := by
    have hfind : ∀ id, id ∈ s.jack.roster.map Prod.fst → ∃ gc ∈ s.jack.graph.clients,
        gc.id = id := by
      intro id hid
      exact mem_roster_fst.mp hid
    rcases List.mem_append.mp he with he | he
    · exact hfind _ (h.bound _ (List.mem_map_of_mem he))
    · exact hfind _ (List.mem_map_of_mem (h.unknown e he))

/-- The part that does not depend on the entries. -/
theorem rostered (h : s.Tracked) : s.Rostered where
  ids := h.ids
  names := h.names
  nonzero := h.nonzero
  synced := h.synced
  unknownIds := (List.nodup_append.mp h.jackIds).2.1
  unknown := h.unknown
  stopped hstop := (h.stopped hstop).2

/-- The part that does. -/
theorem of_rostered (h : s.Rostered)
    (huuids : ((s.mgr.clients.map JackMgrClient.key).map Prod.fst).Nodup)
    (hjackIds : ((s.mgr.clients.map JackMgrClient.key).map Prod.snd
      ++ s.mgr.unknownClients.map JackMgrClient.jackdbusId).Nodup)
    (hbound : ∀ k ∈ s.mgr.clients.map JackMgrClient.key, k.2 ∈ s.jack.roster.map Prod.fst)
    (hstop : s.jack.running = false → s.mgr.clients = []) : s.Tracked where
  ids := h.ids
  names := h.names
  nonzero := h.nonzero
  synced := h.synced
  uuids := huuids
  jackIds := hjackIds
  bound := hbound
  unknown := h.unknown
  stopped hs := ⟨hstop hs, h.stopped hs⟩

/-- Entries may go away, and the clients of the graph may change their ports. -/
theorem shrink (h : s.Tracked) (hr : t.Rostered)
    (hclients : (t.mgr.clients.map JackMgrClient.key).Sublist (s.mgr.clients.map JackMgrClient.key))
    (hunknown : t.mgr.unknownClients.Sublist s.mgr.unknownClients)
    (hroster : t.jack.roster = s.jack.roster) (hrun : t.jack.running = s.jack.running) :
    t.Tracked := by
  refine of_rostered hr (h.uuids.sublist (hclients.map _))
    (h.jackIds.sublist ((hclients.map _).append (hunknown.map _)))
    (fun k hk => hroster ▸ h.bound k (hclients.subset hk)) ?_
  intro hstop
  rw [(h.stopped (hrun ▸ hstop)).1] at hclients
  exact List.map_eq_nil_iff.mp (List.sublist_nil.mp hclients)

/-- A JACK client that has no entry is bound to a LASH client that has none. -/
theorem bind (h : s.Tracked) (hrun : s.jack.running = true)
    (hroster : (jc.jackdbusId, jc.name) ∈ s.jack.roster)
    (hfresh : jc.jackdbusId ∉ (s.mgr.clients.map JackMgrClient.key).map Prod.snd
      ++ s.mgr.unknownClients.map JackMgrClient.jackdbusId)
    (huuid : ∀ e ∈ s.mgr.clients, e.id ≠ lc.id) (ht : s.bind jc lc = some t) : t.Tracked := by
  obtain ⟨gc, hfind, hid, hzero, -⟩ := h.rostered.find hroster
  obtain ⟨e, hclients, heid, -, hejack, -⟩ := bind_found h.synced hrun hfind hzero ht
  obtain ⟨_, _, -, -, -, -, hunknown, hjack, -⟩ := bind_frame ht
  have hkeys : t.mgr.clients.map JackMgrClient.key
      = s.mgr.clients.map JackMgrClient.key ++ [(lc.id, jc.jackdbusId)] := by
    rw [hclients, List.map_append, List.map_singleton, JackMgrClient.key, heid, hejack, hid]
  apply of_rostered (h.rostered.bind ht)
  · rw [hkeys, List.map_append, List.map_singleton]
    apply nodup_append_one h.uuids
    intro hx
    rw [List.map_map] at hx
    obtain ⟨d, hd, hdid⟩ := List.mem_map.mp hx
    exact huuid d hd hdid
  · rw [hkeys, hunknown, List.map_append, List.map_singleton, List.append_assoc,
      List.singleton_append, List.nodup_middle, List.nodup_cons]
    exact ⟨hfresh, h.jackIds⟩
  · intro k hk
    rw [hjack]
    rw [hkeys] at hk
    rcases List.mem_append.mp hk with hk | hk
    · exact h.bound k hk
    · rw [List.mem_singleton.mp hk]
      exact List.mem_map_of_mem hroster
  · rw [hjack]
    exact fun hstop => absurd hrun (by rw [hstop]; simp)

end Tracked

theorem initial_tracked : initial.Tracked := by
  apply Tracked.of_rostered initial_rostered
  · exact List.nodup_nil
  · exact List.nodup_nil
  · exact fun _ hk => absurd hk (by simp [initial])
  · exact fun _ => rfl

/-! ### One step -/

/-- `lashd_jackdbus_on_client_appeared` keeps the registry in step, if the LASH client that the new
client is bound to has no entry. -/
theorem Tracked.clientAppeared (h : s.Tracked) {id : Nat} {name : CStr} (hr : t.Rostered)
    (hrun : s.jack.running = true) (hroster : (id, name) ∈ s.jack.roster)
    (hfresh : id ∉ (s.mgr.clients.map JackMgrClient.key).map Prod.snd
      ++ s.mgr.unknownClients.map JackMgrClient.jackdbusId)
    (huuid : 0 < getClientPid s.jack id → ∀ lc, s.findByPid (getClientPid s.jack id) = some lc →
      ∀ e ∈ s.mgr.clients, e.id ≠ lc.id)
    (ht : s.onClientAppeared name id = some t) : t.Tracked := by
  rcases onClientAppeared_cases ht with rfl | ⟨hpos, lc, hlc, hbind⟩ | rfl
  · exact h
  · exact h.bind hrun hroster hfresh (huuid hpos lc hlc) hbind
  · apply of_rostered hr h.uuids
    · show ((s.mgr.clients.map JackMgrClient.key).map Prod.snd
        ++ (s.mgr.unknownClients ++ [_]).map JackMgrClient.jackdbusId).Nodup
      rw [List.map_append, ← List.append_assoc, List.map_singleton]
      exact nodup_append_one h.jackIds hfresh
    · exact h.bound
    · exact fun hstop => (h.stopped hstop).1

/-- `server_add_client` keeps the registry in step, if the LASH client that an unknown one is
bound to has no entry. -/
theorem Tracked.connect (h : s.Tracked) {pid : Int} {id : Uuid} {place : Nat} (hr : t.Rostered)
    (hfresh : ∀ e ∈ s.mgr.clients, e.id ≠ id) (honce : s.BindsOnce (.connect pid id place))
    (ht : s.serverAddClient pid id place = some t) : t.Tracked := by
  obtain ⟨hmgr, hjack, hlc⟩ := s.connected_frame pid id place
  rcases serverAddClient_cases ht with rfl | ⟨jc, hfind, hbind⟩
  · apply h.shrink hr
    · rw [hmgr]
    · rw [hmgr]
    · rw [hjack]
    · rw [hjack]
  · have hmem := List.mem_of_find?_eq_some hfind
    have hperm := perm_eraseP hfind
    have hrun : s.jack.running = true := by
      rw [← Bool.not_eq_false]
      intro hstop
      rw [(h.stopped hstop).2] at hmem
      exact absurd hmem (by simp)
    have hnodup : ((s.mgr.clients.map JackMgrClient.key).map Prod.snd
        ++ jc.jackdbusId :: (s.mgr.unknownClients.eraseP (fun c => c.pid = pid)).map
          JackMgrClient.jackdbusId).Nodup := by
      refine (List.Perm.nodup_iff ?_).mpr h.jackIds
      exact (hperm.map JackMgrClient.jackdbusId).append_left _
    have hv : ({ (s.connected pid id place).1 with mgr := { s.mgr with
        unknownClients := s.mgr.unknownClients.eraseP (fun c => c.pid = pid) } } :
        JackSession).Tracked := by
      refine h.shrink ?_ (.refl _) List.eraseP_sublist (by rw [← hjack]) (by rw [← hjack])
      refine h.rostered.shrink List.eraseP_sublist ?_ (by rw [← hjack]) (by rw [← hjack])
      dsimp only
      rw [hjack]
      exact h.synced.congr rfl rfl
    refine Tracked.bind hv ?_ ?_ ?_ ?_ hbind
    · dsimp only
      rw [hjack]
      exact hrun
    · dsimp only
      rw [hjack]
      exact h.unknown jc hmem
    · exact (List.nodup_cons.mp (List.nodup_middle.mp hnodup)).1
    · intro e he
      rcases hlc with ⟨hlost, -⟩ | hid
      · have hpid : jc.pid = pid := by simpa using List.find?_some hfind
        have hany : s.mgr.unknownClients.any (fun jc => jc.pid = pid) = true :=
          List.any_eq_true.mpr ⟨jc, hmem, by simpa using hpid⟩
        apply honce _ ?_ e he
        rw [bindsTo, if_pos hany]
        exact hlost
      · rw [hid]
        exact hfresh e he

/-- `lashd_jackdbus_on_client_disappeared` keeps the registry in step, if the client was not
bound. -/
theorem Tracked.clientDisappeared (h : s.Tracked) {id : Nat} (hr : t.Rostered)
    (htidy : ∀ e ∈ s.mgr.clients, e.jackdbusId ≠ id) (hrun : s.jack.running = true)
    (ht : ({ s with jack := s.jack.delClient id } : JackSession).onClientDisappeared id = some t) :
    t.Tracked := by
  rw [onClientDisappeared_mgr ht] at hr ⊢
  apply of_rostered hr h.uuids
  · exact h.jackIds.sublist ((List.Sublist.refl _).append (List.eraseP_sublist.map _))
  · intro k hk
    obtain ⟨r, hr, hrk⟩ := List.mem_map.mp (h.bound k hk)
    obtain ⟨e, he, rfl⟩ := List.mem_map.mp hk
    rw [← hrk]
    apply List.mem_map_of_mem
    show r ∈ (s.jack.delClient id).roster
    rw [JackServer.roster_delClient]
    exact List.mem_filter.mpr ⟨hr, by simpa using hrk.trans_ne (htidy e he)⟩
  · intro hstop
    have hstop : s.jack.running = false := hstop
    exact absurd hrun (by rw [hstop]; simp)

/-- The server starts: there are no entries. -/
theorem Tracked.serverStarted (h : s.Tracked) {g : Graph} {pid : Nat → Int} (hr : t.Rostered)
    (hstop : s.jack.running = false) (hversion : g.version ≠ 0)
    (ht : s.step (.serverStarted g pid) = some t) : t.Tracked := by
  obtain ⟨hclients, hunknown⟩ := h.stopped hstop
  obtain ⟨u, hu, -, -, -, huclients, -⟩ := @step_serverStarted s g pid hunknown hversion
  obtain rfl : u = t := Option.some.inj (hu.symm.trans ht)
  have hnil : u.mgr.clients = [] := huclients.trans hclients
  apply of_rostered hr
  · rw [hnil]
    exact List.nodup_nil
  · rw [hnil, List.map_nil, List.map_nil, List.nil_append]
    exact hr.unknownIds
  · rw [hnil]
    exact fun k hk => absurd hk (by simp)
  · exact fun _ => hnil

/-- **One step** keeps the registry in step with the graph. -/
theorem Tracked.step (h : s.Tracked) (hok : s.Promised i) (htidy : s.Tidy i)
    (ht : s.step i = some t) : t.Tracked := by
  have hr : t.Rostered := by
    apply h.rostered.step hok ?_ ht
    rintro rfl
    exact htidy.2.2
  cases i with
  | clientAppeared id name pid =>
      obtain ⟨hrun, hid, hnew⟩ := hok
      obtain ⟨hr', hids, hfresh⟩ := @Rostered.appear s h.rostered id name pid hid hnew hrun
      have hroster := @JackServer.roster_addClient s.jack id name pid
      have hbound : ∀ k ∈ s.mgr.clients.map JackMgrClient.key,
          k.2 ∈ (s.jack.addClient id name pid).roster.map Prod.fst := by
        intro k hk
        rw [hroster, List.map_append]
        exact List.mem_append_left _ (h.bound k hk)
      have h' := Tracked.of_rostered hr' h.uuids h.jackIds hbound (fun hstop => (h.stopped hstop).1)
      have hpid := @JackServer.getClientPid_addClient s.jack id name pid hrun
      refine Tracked.clientAppeared h' hr hrun ?_ ?_ ?_ ht
      · show (id, name) ∈ (s.jack.addClient id name pid).roster
        rw [hroster]
        simp
      · intro hmem
        rcases List.mem_append.mp hmem with hmem | hmem
        · obtain ⟨k, hk, hkid⟩ := List.mem_map.mp hmem
          exact hids (hkid ▸ h.bound k hk)
        · exact hfresh hmem
      · intro hpos lc hlc
        have hpos : 0 < getClientPid (s.jack.addClient id name pid) id := hpos
        have hlc : s.findByPid (getClientPid (s.jack.addClient id name pid) id) = some lc := hlc
        rw [hpid] at hpos hlc
        refine htidy.1 lc ?_
        rw [bindsTo, if_pos hpos]
        exact hlc
  | clientDisappeared id => exact h.clientDisappeared hr htidy.2 hok.1 ht
  | portAppeared id port =>
      obtain ⟨requests, hrequests, -⟩ := onPortAppeared_frame
        { s with jack := s.jack.addPort id port } id ((s.jack.clientName id).getD []) port
      rw [JackSession.step, hrequests] at ht
      rw [← Option.some.inj ht] at hr ⊢
      exact h.shrink hr (.refl _) (.refl _) (JackServer.roster_addPort id port) rfl
  | portDisappeared id port =>
      rw [← Option.some.inj ht] at hr ⊢
      exact h.shrink hr (.refl _) (.refl _) (JackServer.roster_delPort id port) rfl
  | portsConnected p =>
      obtain ⟨clients, rfl, hkeys, -⟩ := portsConnected_frame ht
      refine h.shrink hr ?_ (.refl _) rfl rfl
      dsimp only
      rw [hkeys]
  | portsDisconnected p =>
      rw [← Option.some.inj ht] at hr ⊢
      exact h.shrink hr (.refl _) (.refl _) rfl rfl
  | serverStarted g pid => exact h.serverStarted hr hok.1 hok.2.1 ht
  | serverStopped =>
      obtain ⟨-, hclients, hunknown⟩ := htidy
      obtain ⟨-, -, hnil, -⟩ := serverStopped_frame ht
      obtain ⟨u, hu, hunil⟩ := step_serverStopped.mpr hunknown
      obtain rfl : u = t := Option.some.inj (hu.symm.trans ht)
      rw [hclients] at hnil
      apply of_rostered hr
      · rw [hnil]
        exact List.nodup_nil
      · rw [hnil, hunil]
        exact List.nodup_nil
      · rw [hnil]
        exact fun k hk => absurd hk (by simp)
      · exact fun _ => hnil
  | load clients =>
      rw [← Option.some.inj ht] at hr ⊢
      obtain ⟨hmgr, hjack⟩ := load_frame clients s
      exact h.shrink hr (by rw [hmgr]) (by rw [hmgr]) (by rw [hjack]) (by rw [hjack])
  | launch addr pid =>
      rw [← Option.some.inj ht] at hr ⊢
      exact h.shrink hr (.refl _) (.refl _) rfl rfl
  | connect pid id place => exact h.connect hr hok.2 htidy.1 ht
  | lose addr place =>
      rw [JackSession.step] at ht
      split at ht
      · rw [← Option.some.inj ht]
        exact h
      · next lc _ =>
          rw [← Option.some.inj ht] at hr ⊢
          have hmgr := s.shrinks_takeBack lc
          exact h.shrink hr hmgr.clients hmgr.unknown rfl rfl
  | save =>
      rw [← Option.some.inj ht] at hr ⊢
      refine h.shrink hr ?_ ?_ rfl rfl
      · rw [getGraph_clients]
      · rw [getGraph_unknownClients]
  | clearLost addrs =>
      rw [← Option.some.inj ht] at hr ⊢
      exact h.shrink hr (.refl _) (.refl _) rfl rfl
  | writeInfo addrs =>
      rw [← Option.some.inj ht] at hr ⊢
      obtain ⟨hmgr, hjack⟩ := s.shrinks_writeInfo addrs
      exact h.shrink hr hmgr.clients hmgr.unknown (by rw [hjack]) (by rw [hjack])
  | unload addrs =>
      rw [← Option.some.inj ht] at hr ⊢
      have hmgr := s.shrinks_unload addrs
      exact h.shrink hr hmgr.clients hmgr.unknown rfl rfl

/-- A saved client is loaded and launched, and its JACK client comes up. -/
def oneBound : List JackInput :=
  [.serverStarted { version := 1, clients := [], patches := [] } (fun _ => 0), .load [(5, [])],
    .launch 0 7, .clientAppeared 1 (cstr "synth") 7, .connect 7 6 0]

end JackSession

end Lash
