import Lash.Jack.Registry

/-!
# Patches and the order of start-up, jackdbus

A saved patch comes back, in whatever order the JACK clients and the LASH clients come up, are
bound to each other and open their ports. The manager tries to make it in three places: at the
ports in the graph when a JACK client is bound, at a new port of a bound client, and at a new port
of a foreign one. Each tries with the old patches of bound clients, and a bound client keeps its
copy until the ports are connected (`SavedPatch.Inv`); so the last of these events sends the
request (`patch_requested`).
-/

namespace Lash

open First JackSession

/-- A saved patch and the JACK clients it is for; `false` is the source. An end is the LASH client
with a UUID, or a foreign client with a name, and then the UUID is null. -/
structure SavedPatch where
  uuid : Bool → Uuid
  jackId : Bool → Nat
  name : Bool → CStr
  port : Bool → CStr
  some_lash : ∃ x, uuid x ≠ 0
  uuids_ne : uuid false ≠ uuid true
  jackIds_ne : jackId false ≠ jackId true
  names_ne : name false ≠ name true

namespace SavedPatch

variable (link : SavedPatch)

/-- The end `x` is the LASH client with this id. -/
def IsAt (x : Bool) (id : Uuid) : Prop := id = link.uuid x ∧ link.uuid x ≠ 0

/-- What the patch says about the name of the client at an end. -/
def client (x : Bool) : Option CStr := if link.uuid x = 0 then some (link.name x) else none

/-- The patch, as it was saved. -/
structure IsCopy (patch : JackPatch) : Prop where
  srcId : patch.srcClientId = link.uuid false
  srcClient : patch.srcClient = link.client false
  srcPort : patch.srcPort = link.port false
  destId : patch.destClientId = link.uuid true
  destClient : patch.destClient = link.client true
  destPort : patch.destPort = link.port true

/-- It is one of these patches. -/
def HasCopy (patches : List JackPatch) : Prop := ∃ patch ∈ patches, link.IsCopy patch

/-- The connection of the two ports. -/
def Links (p : GraphPatch) : Prop :=
  p.srcId = link.jackId false ∧ p.srcPort = link.port false ∧
    p.destId = link.jackId true ∧ p.destPort = link.port true

/-- The ports are connected. -/
def Connected (j : JackServer) : Prop := ∃ p ∈ j.graph.patches, link.Links p

/-- The LASH client at an end is bound to its JACK client. -/
def Bound (m : JackDbusMgr) (x : Bool) : Prop :=
  ∃ e ∈ m.clients, e.id = link.uuid x ∧ e.jackdbusId = link.jackId x

/-- The LASH ends are bound, and both ports exist. -/
def Ready (s : JackSession) : Prop :=
  ∀ x, (link.uuid x ≠ 0 → link.Bound s.mgr x) ∧ s.jack.HasPort (link.jackId x) (link.port x)

/-- The `ConnectPortsByName` request for the patch. -/
def request : JackEvent :=
  .request (link.name false) (link.port false) (link.name true) (link.port true)

/-- What happens while the session starts. The two JACK clients come up under their names and
stay, with the ports of the patch and the connection once it is made; they are the ones that
belong to the LASH ends; a LASH end is loaded with its copy of the patch, and is not lost or
unloaded; and the JACK server does not stop. -/
def Starts (s : JackSession) (i : JackInput) : Prop :=
  s.Promised i ∧
    match i with
    | .clientAppeared id name pid =>
      (∀ x, id = link.jackId x ↔ name = link.name x) ∧
        ∀ lc ∈ s.bindsTo (.clientAppeared id name pid), ∀ x, link.IsAt x lc.id ↔ id = link.jackId x
    | .clientDisappeared id => ∀ x, id ≠ link.jackId x
    | .portDisappeared id port => ∀ x, ¬ (id = link.jackId x ∧ port = link.port x)
    | .portsDisconnected p => ¬ link.Links p
    | .serverStarted g _ =>
      (∀ c ∈ g.clients, ∀ x, c.id = link.jackId x ↔ c.name = link.name x) ∧
        ∀ p ∈ g.patches, (∃ c ∈ g.clients, c.id = p.srcId ∧ c.name = p.srcName) ∧
          ∃ c ∈ g.clients, c.id = p.destId ∧ c.name = p.destName
    | .serverStopped => False
    | .load clients => ∀ r ∈ clients, ∀ x, link.IsAt x r.1 → link.HasCopy r.2
    | .connect pid id place =>
      (∀ x, ¬ link.IsAt x id) ∧
        ∀ jc ∈ s.mgr.unknownClients.find? (fun c => c.pid = pid), ∀ x,
          link.IsAt x (s.connected pid id place).2.id ↔ jc.jackdbusId = link.jackId x
    | .lose addr _ => ∀ c ∈ s.live, c.addr = addr → ∀ x, ¬ link.IsAt x c.id
    | .unload addrs => ∀ c ∈ s.live, c.addr ∈ addrs → ∀ x, ¬ link.IsAt x c.id
    | _ => True

instance (x : Bool) (id : Uuid) : Decidable (link.IsAt x id) :=
  inferInstanceAs (Decidable (_ ∧ _))

instance (patch : JackPatch) : Decidable (link.IsCopy patch) :=
  decidable_of_iff (patch.srcClientId = link.uuid false ∧ patch.srcClient = link.client false ∧
      patch.srcPort = link.port false ∧ patch.destClientId = link.uuid true ∧
        patch.destClient = link.client true ∧ patch.destPort = link.port true)
    ⟨fun ⟨h₁, h₂, h₃, h₄, h₅, h₆⟩ => ⟨h₁, h₂, h₃, h₄, h₅, h₆⟩,
      fun ⟨h₁, h₂, h₃, h₄, h₅, h₆⟩ => ⟨h₁, h₂, h₃, h₄, h₅, h₆⟩⟩

instance (patches : List JackPatch) : Decidable (link.HasCopy patches) :=
  inferInstanceAs (Decidable (∃ patch ∈ patches, _))

instance (p : GraphPatch) : Decidable (link.Links p) := inferInstanceAs (Decidable (_ ∧ _))

instance (s : JackSession) : Decidable (link.Ready s) := by
  unfold Ready Bound
  infer_instance

instance (s : JackSession) (i : JackInput) : Decidable (link.Starts s i) := by
  rcases i <;> unfold Starts <;> infer_instance

variable {link} {s t u : JackSession} {i : JackInput} {j : JackServer} {x y : Bool}

/-! ## The JACK server -/

/-- The two JACK clients have their names, and the ends of a connection are clients of the graph. -/
structure Named (link : SavedPatch) (j : JackServer) : Prop where
  clients : ∀ r ∈ j.roster, ∀ x, r.1 = link.jackId x ↔ r.2 = link.name x
  ends : ∀ p ∈ j.graph.patches, (p.srcId, p.srcName) ∈ j.roster ∧ (p.destId, p.destName) ∈ j.roster

theorem mem_roster_of_clientName {id : Nat} {name : CStr} (h : j.clientName id = some name) :
    (id, name) ∈ j.roster := by
  obtain ⟨c, hc, rfl⟩ := Option.map_eq_some_iff.mp h
  have hid : c.id = id := by simpa using List.find?_some hc
  exact List.mem_map.mpr ⟨c, List.mem_of_find?_eq_some hc, by rw [hid]⟩

theorem Named.after (h : link.Named s.jack) (hok : link.Starts s i) :
    link.Named (JackSession.after s.jack i) := by
  cases i with
  | clientAppeared id name pid =>
      have hroster := @JackServer.roster_addClient s.jack id name pid
      constructor
      · intro r hr
        have hr : r ∈ (s.jack.addClient id name pid).roster := hr
        rw [hroster] at hr
        rcases List.mem_append.mp hr with hr | hr
        · exact h.clients r hr
        · rw [List.mem_singleton.mp hr]
          exact hok.2.1
      · intro p hp
        obtain ⟨hsrc, hdest⟩ := h.ends p hp
        show _ ∈ (s.jack.addClient id name pid).roster ∧ _ ∈ (s.jack.addClient id name pid).roster
        rw [hroster]
        exact ⟨List.mem_append_left _ hsrc, List.mem_append_left _ hdest⟩
  | clientDisappeared id =>
      have hroster := @JackServer.roster_delClient s.jack id
      constructor
      · intro r hr
        have hr : r ∈ (s.jack.delClient id).roster := hr
        rw [hroster] at hr
        exact h.clients r (List.mem_of_mem_filter hr)
      · intro p hp
        obtain ⟨hp, hne⟩ := List.mem_filter.mp hp
        obtain ⟨hsrc, hdest⟩ := h.ends p hp
        obtain ⟨hsrcne, hdestne⟩ := of_decide_eq_true hne
        show _ ∈ (s.jack.delClient id).roster ∧ _ ∈ (s.jack.delClient id).roster
        rw [hroster]
        exact ⟨List.mem_filter.mpr ⟨hsrc, by simpa using hsrcne⟩,
          List.mem_filter.mpr ⟨hdest, by simpa using hdestne⟩⟩
  | portAppeared id port =>
      have hroster := @JackServer.roster_addPort s.jack id port
      exact ⟨fun r hr => h.clients r (hroster ▸ hr), fun p hp => hroster.symm ▸ h.ends p hp⟩
  | portDisappeared id port =>
      have hroster := @JackServer.roster_delPort s.jack id port
      refine ⟨fun r hr => h.clients r (hroster ▸ hr), fun p hp => ?_⟩
      exact hroster.symm ▸ h.ends p (List.mem_of_mem_filter hp)
  | portsConnected q =>
      refine ⟨h.clients, fun p hp => ?_⟩
      rcases List.mem_append.mp hp with hp | hp
      · exact h.ends p hp
      · rw [List.mem_singleton.mp hp]
        obtain ⟨⟨-, -, -, hsrc, hdest⟩, -⟩ := hok
        exact ⟨mem_roster_of_clientName hsrc, mem_roster_of_clientName hdest⟩
  | portsDisconnected q => exact ⟨h.clients, fun p hp => h.ends p (List.mem_of_mem_erase hp)⟩
  | serverStarted g pid =>
      obtain ⟨-, hnames, hends⟩ := hok
      constructor
      · intro r hr
        obtain ⟨c, hc, rfl⟩ := List.mem_map.mp hr
        exact hnames c hc
      · intro p hp
        obtain ⟨⟨c, hc, hcid, hcname⟩, d, hd, hdid, hdname⟩ := hends p hp
        exact ⟨List.mem_map.mpr ⟨c, hc, by rw [hcid, hcname]⟩,
          List.mem_map.mpr ⟨d, hd, by rw [hdid, hdname]⟩⟩
  | serverStopped => exact absurd hok.2 id
  | _ => exact h

/-- The two JACK clients stay, and so does the connection. -/
structure Stays (link : SavedPatch) (j j' : JackServer) : Prop where
  clients : ∀ x, link.jackId x ∈ j.roster.map Prod.fst → link.jackId x ∈ j'.roster.map Prod.fst
  connected : link.Connected j → link.Connected j'

theorem Stays.of_roster {j' : JackServer} (hroster : j'.roster = j.roster)
    (hpatches : ∀ p ∈ j.graph.patches, link.Links p → p ∈ j'.graph.patches) : link.Stays j j' where
  clients x hx := by rwa [hroster]
  connected := by
    rintro ⟨p, hp, hlinks⟩
    exact ⟨p, hpatches p hp hlinks, hlinks⟩

theorem stays_after (hok : link.Starts s i) (hrun : s.jack.running = true) :
    link.Stays s.jack (JackSession.after s.jack i) := by
  cases i with
  | clientAppeared id name pid =>
      constructor
      · intro x hx
        show _ ∈ (s.jack.addClient id name pid).roster.map Prod.fst
        rw [JackServer.roster_addClient, List.map_append]
        exact List.mem_append_left _ hx
      · exact fun h => h
  | clientDisappeared id =>
      constructor
      · intro x hx
        obtain ⟨r, hr, hrid⟩ := List.mem_map.mp hx
        show _ ∈ (s.jack.delClient id).roster.map Prod.fst
        rw [JackServer.roster_delClient]
        refine List.mem_map.mpr ⟨r, List.mem_filter.mpr ⟨hr, ?_⟩, hrid⟩
        simpa [hrid] using (hok.2 x).symm
      · rintro ⟨p, hp, hlinks⟩
        refine ⟨p, List.mem_filter.mpr ⟨hp, decide_eq_true ⟨?_, ?_⟩⟩, hlinks⟩
        · rw [hlinks.1]
          exact (hok.2 false).symm
        · rw [hlinks.2.2.1]
          exact (hok.2 true).symm
  | portAppeared id port => exact .of_roster (JackServer.roster_addPort id port) (fun _ hp _ => hp)
  | portDisappeared id port =>
      apply Stays.of_roster (JackServer.roster_delPort id port)
      rintro p hp ⟨hsrc, hsrcPort, hdest, hdestPort⟩
      refine List.mem_filter.mpr ⟨hp, decide_eq_true ⟨?_, ?_⟩⟩
      · rintro ⟨rfl, rfl⟩
        exact hok.2 false ⟨hsrc, hsrcPort⟩
      · rintro ⟨rfl, rfl⟩
        exact hok.2 true ⟨hdest, hdestPort⟩
  | portsConnected q => exact .of_roster rfl (fun _ hp _ => List.mem_append_left _ hp)
  | portsDisconnected q =>
      refine @Stays.of_roster link s.jack (s.jack.disconnect q) rfl ?_
      intro p hp hlinks
      refine (List.mem_erase_of_ne ?_).mpr hp
      rintro rfl
      exact hok.2 hlinks
  | serverStarted g pid => exact absurd hrun (by rw [hok.1.1]; simp)
  | serverStopped => exact absurd hok.2 id
  | _ => exact ⟨fun _ h => h, fun h => h⟩

/-! ## Old patches -/

/-- The entry of a LASH end has the id of its JACK client, and no other entry has. -/
def Fits (link : SavedPatch) (e : JackMgrClient) : Prop :=
  ∀ x, link.IsAt x e.id ↔ e.jackdbusId = link.jackId x

section

variable {clients : List JackMgrClient} {c d : JackMgrClient} {patch : JackPatch} {p : GraphPatch}

/-- An end of a connection that matches the end of the patch is the JACK client at that end. -/
theorem end_eq (hnamed : link.Named j) (hclients : ∀ e ∈ clients, link.Fits e) (hc : link.Fits c)
    {id : Nat} {name : CStr} (hroster : (id, name) ∈ j.roster)
    (h : endMatches (link.client x) (link.uuid x) (patchUuid clients c id) name = some true) :
    id = link.jackId x := by
  cases huuid : patchUuid clients c id with
  | some u =>
      rw [huuid, endMatches, Option.some.injEq, Bool.and_eq_true] at h
      have hat : link.IsAt x u := ⟨of_decide_eq_true h.2, of_decide_eq_true h.1⟩
      unfold patchUuid at huuid
      split at huuid
      · next hid =>
          rw [hid, ← (hc x)]
          rwa [Option.some.inj huuid]
      · obtain ⟨e, he, rfl⟩ := Option.map_eq_some_iff.mp huuid
        have heid : e.jackdbusId = id := by simpa using List.find?_some he
        rw [← heid, ← hclients e (List.mem_of_find?_eq_some he) x]
        exact hat
  | none =>
      rw [huuid, endMatches] at h
      obtain ⟨n, hn, hname⟩ := Option.map_eq_some_iff.mp h
      rw [client] at hn
      split at hn
      · refine (hnamed.clients _ hroster x).mpr ?_
        rw [Option.some.inj hn]
        exact (of_decide_eq_true hname).symm
      · exact absurd hn (by simp)

/-- A connection that a copy is found for is the connection of the two ports. -/
theorem links_of_fits (hnamed : link.Named j) (hclients : ∀ e ∈ clients, link.Fits e)
    (hc : link.Fits c) (hp : p ∈ j.graph.patches) (hcopy : link.IsCopy patch)
    (h : patch.fits (patchUuid clients c p.srcId) (patchUuid clients c p.destId) p = some true) :
    link.Links p := by
  obtain ⟨hsrc, hdest⟩ := hnamed.ends p hp
  unfold JackPatch.fits at h
  split at h
  · exact absurd h (by simp)
  · next hports =>
      rw [not_or, not_not, not_not, hcopy.srcPort, hcopy.destPort] at hports
      rw [hcopy.srcClient, hcopy.srcId, hcopy.destClient, hcopy.destId] at h
      split at h
      · next hmatch =>
          exact ⟨end_eq hnamed hclients hc hsrc hmatch, hports.1.symm,
            end_eq hnamed hclients hc hdest h, hports.2.symm⟩
      · next hmatch => exact absurd h (by simpa using hmatch)

/-- `lashd_jackdbus_mgr_del_old_patch` takes a copy out if the ports are connected. -/
theorem delOldPatch_copy (hnamed : link.Named j) (hclients : ∀ e ∈ clients, link.Fits e)
    (hc : link.Fits c) (hp : p ∈ j.graph.patches) (hcopy : link.HasCopy c.oldPatches)
    (h : delOldPatch clients c p = some d) : link.HasCopy d.oldPatches ∨ link.Connected j := by
  obtain ⟨patch, hmem, hcopy⟩ := hcopy
  unfold delOldPatch at h
  split at h
  · obtain ⟨l, hl, rfl⟩ := Option.map_eq_some_iff.mp h
    rcases mem_delFitting hmem hl with hmem | hfits
    · exact Or.inl ⟨patch, hmem, hcopy⟩
    · exact Or.inr ⟨p, hp, links_of_fits hnamed hclients hc hp hcopy hfits⟩
  · rw [← Option.some.inj h]
    exact Or.inl ⟨patch, hmem, hcopy⟩

/-- The same over all connections of the graph. -/
theorem foldlM_delOldPatch_copy (hnamed : link.Named j) (hclients : ∀ e ∈ clients, link.Fits e)
    (hc : link.Fits c) (hcopy : link.HasCopy c.oldPatches)
    (h : j.graph.patches.foldlM (delOldPatch clients) c = some d) :
    link.HasCopy d.oldPatches ∨ link.Connected j := by
  have hboth : c.SameEntry d ∧ (link.HasCopy d.oldPatches ∨ link.Connected j) := by
    refine Runs.foldlM_invariant (I := fun e => c.SameEntry e ∧
      (link.HasCopy e.oldPatches ∨ link.Connected j)) ⟨.refl c, Or.inl hcopy⟩ ?_ h
    rintro e p f hp ⟨hsame, he⟩ hf
    refine ⟨hsame.trans (delOldPatch_same hf), ?_⟩
    rcases he with he | hconnected
    · refine delOldPatch_copy hnamed hclients ?_ hp he hf
      intro x
      rw [hsame.id, hsame.jackdbusId]
      exact hc x
    · exact Or.inr hconnected
  exact hboth.2

/-! ## Requests -/

/-- A new port at a LASH end asks for the patch. -/
theorem newClientPort_copy (hcopy : link.HasCopy c.oldPatches) (hc : link.IsAt x c.id)
    (hother : otherEnd clients (link.client (!x)) (link.uuid (!x)) = link.name (!x)) :
    link.request ∈ newClientPort clients c (link.name x) (link.port x) := by
  obtain ⟨patch, hmem, hcopy⟩ := hcopy
  refine List.mem_filterMap.mpr ⟨patch, hmem, ?_⟩
  cases x with
  | false =>
      rw [if_pos ⟨hcopy.srcId.trans hc.1.symm, hcopy.srcPort⟩, hcopy.destClient, hcopy.destId,
        hcopy.destPort]
      rw [Bool.not_false] at hother
      rw [hother]
      rfl
  | true =>
      have hne : patch.srcClientId ≠ c.id := by
        rw [hcopy.srcId, hc.1]
        exact link.uuids_ne
      rw [if_neg (fun h => hne h.1), if_pos ⟨hcopy.destId.trans hc.1.symm, hcopy.destPort⟩,
        hcopy.srcClient, hcopy.srcId, hcopy.srcPort]
      rw [Bool.not_true] at hother
      rw [hother]
      rfl

/-- A new port at a foreign end asks for the patch. -/
theorem newForeignPort_copy (hmem : c ∈ clients) (hcopy : link.HasCopy c.oldPatches)
    (hc : link.IsAt (!x) c.id) (hname : c.name = link.name (!x)) (hforeign : link.uuid x = 0) :
    link.request ∈ newForeignPort clients (link.name x) (link.port x) := by
  obtain ⟨patch, hpatch, hcopy⟩ := hcopy
  refine List.mem_flatMap.mpr ⟨c, hmem, List.mem_filterMap.mpr ⟨patch, hpatch, ?_⟩⟩
  have hclient : link.client x = some (link.name x) := if_pos hforeign
  cases x with
  | true =>
      rw [if_pos (hcopy.srcId.trans hc.1.symm), hcopy.destClient, hclient, hcopy.destPort,
        if_pos ⟨rfl, rfl⟩, hname, hcopy.srcPort]
      rfl
  | false =>
      have hne : patch.srcClientId ≠ c.id := by
        rw [hcopy.srcId, hc.1]
        exact link.uuids_ne
      rw [if_neg hne, hcopy.srcClient, hclient, hcopy.srcPort, if_pos ⟨rfl, rfl⟩, hname,
        hcopy.destPort]
      rfl

end

/-! ## The invariant -/

/-- What holds at all times: the entries of the LASH ends are those of their JACK clients, which
are not unknown ones any more; each has its copy unless the ports are connected, and a LASH end
that has no entry still has it. -/
structure Inv (link : SavedPatch) (s : JackSession) : Prop where
  rostered : s.Rostered
  named : link.Named s.jack
  stopped : s.jack.running = false → s.mgr.clients = []
  fits : ∀ e ∈ s.mgr.clients, link.Fits e
  names : ∀ e ∈ s.mgr.clients, ∀ x, link.IsAt x e.id → e.name = link.name x
  kept : ∀ e ∈ s.mgr.clients, ∀ x, link.IsAt x e.id →
    link.HasCopy e.oldPatches ∨ link.Connected s.jack
  known : ∀ e ∈ s.mgr.clients, ∀ x, link.IsAt x e.id →
    link.jackId x ∈ s.jack.roster.map Prod.fst ∧
      link.jackId x ∉ s.mgr.unknownClients.map JackMgrClient.jackdbusId
  saved : ∀ lc ∈ s.live ++ s.lost, ∀ x, link.IsAt x lc.id →
    (∃ e ∈ s.mgr.clients, e.id = link.uuid x) ∨ link.HasCopy lc.jackPatches

theorem isAt_inj {id : Uuid} (hx : link.IsAt x id) (hy : link.IsAt y id) : x = y := by
  have hne := link.uuids_ne
  have heq : link.uuid x = link.uuid y := hx.1.symm.trans hy.1
  cases x <;> cases y <;> grind

/-- The name of the other end of the patch, when it is bound if it is a LASH end. -/
theorem otherEnd_eq {clients : List JackMgrClient}
    (hnames : ∀ e ∈ clients, link.IsAt y e.id → e.name = link.name y)
    (hbound : link.uuid y ≠ 0 → ∃ e ∈ clients, e.id = link.uuid y) :
    otherEnd clients (link.client y) (link.uuid y) = link.name y := by
  rw [client]
  split
  · rfl
  · next hlash =>
      obtain ⟨e, he, hid⟩ := hbound hlash
      show ((jackMgrClientFindById clients (link.uuid y)).map JackMgrClient.name).getD [] = _
      cases hfind : jackMgrClientFindById clients (link.uuid y) with
      | none => exact absurd hid (by simpa using List.find?_eq_none.mp hfind e he)
      | some d =>
          have hdid : d.id = link.uuid y := by simpa using List.find?_some hfind
          exact hnames d (List.mem_of_find?_eq_some hfind) ⟨hdid, hlash⟩

namespace Inv

variable {jc : JackMgrClient} {lc : SessionClient}

/-- Binding a LASH end gives its entry the copy; other JACK clients may be bound too. -/
theorem bind (h : link.Inv s) (hrun : s.jack.running = true)
    (hroster : (jc.jackdbusId, jc.name) ∈ s.jack.roster)
    (hunknown : jc.jackdbusId ∉ s.mgr.unknownClients.map JackMgrClient.jackdbusId)
    (hpair : ∀ x, link.IsAt x lc.id ↔ jc.jackdbusId = link.jackId x)
    (hcopy : ∀ x, link.IsAt x lc.id → link.HasCopy lc.jackPatches) (ht : s.bind jc lc = some t) :
    link.Inv t := by
  obtain ⟨gc, hfind, hgcid, hzero, -⟩ := h.rostered.find hroster
  obtain ⟨e, hclients, heid, hename, hejack, -, hfold⟩ :=
    bind_found h.rostered.synced hrun hfind hzero ht
  obtain ⟨_, _, -, -, -, -, hunknown', hjack, hlive, hlost, -⟩ := bind_frame ht
  have hefits : link.Fits e := by
    intro x
    rw [heid, hejack, hgcid]
    exact hpair x
  have hmem : ∀ d ∈ t.mgr.clients, d ∈ s.mgr.clients ∨ d = e := by
    intro d hd
    rw [hclients] at hd
    exact (List.mem_append.mp hd).imp_right List.mem_singleton.mp
  refine ⟨h.rostered.bind ht, hjack ▸ h.named, ?_, ?_, ?_, ?_, ?_, ?_⟩
  · rw [hjack]
    exact fun hstop => absurd hrun (by rw [hstop]; simp)
  · intro d hd
    rcases hmem d hd with hd | rfl
    · exact h.fits d hd
    · exact hefits
  · intro d hd x hx
    rcases hmem d hd with hd | rfl
    · exact h.names d hd x hx
    · rw [hename]
      exact (h.named.clients _ hroster x).mp (by rw [← hgcid, ← hejack]; exact (hefits x).mp hx)
  · intro d hd x hx
    rw [hjack]
    rcases hmem d hd with hd | rfl
    · exact h.kept d hd x hx
    · rw [heid] at hx
      rcases hfold with hnil | hfold
      · obtain ⟨patch, hpatch, -⟩ := hcopy x hx
        exact absurd hpatch (by simp [hnil])
      · have hc : link.Fits { jc.take lc with jackdbusId := gc.id } := by
          intro y
          show link.IsAt y lc.id ↔ gc.id = link.jackId y
          rw [hgcid]
          exact hpair y
        refine foldlM_delOldPatch_copy h.named ?_ hc (hcopy x hx) hfold
        intro f hf
        rcases List.mem_append.mp hf with hf | hf
        · exact h.fits f hf
        · rw [List.mem_singleton.mp hf]
          exact hc
  · intro d hd x hx
    rw [hjack, hunknown']
    rcases hmem d hd with hd | rfl
    · exact h.known d hd x hx
    · have hid : jc.jackdbusId = link.jackId x := by rw [← hgcid, ← hejack]; exact (hefits x).mp hx
      rw [← hid]
      exact ⟨List.mem_map_of_mem hroster, hunknown⟩
  · intro c hc x hx
    -- the LASH client without its patches has an entry now
    have hput : c = lc.give jc ∨ c ∈ s.live ++ s.lost := by
      rcases List.mem_append.mp hc with hc | hc
      · rw [hlive] at hc
        exact (Keyed.eq_or_mem_of_mem_put hc).imp_right (List.mem_append_left _)
      · rw [hlost] at hc
        exact (Keyed.eq_or_mem_of_mem_put hc).imp_right (List.mem_append_right _)
    rw [hclients]
    rcases hput with rfl | hc
    · exact Or.inl ⟨e, by simp, heid.trans hx.1⟩
    · rcases h.saved c hc x hx with ⟨d, hd, hid⟩ | hcopy
      · exact Or.inl ⟨d, List.mem_append_left _ hd, hid⟩
      · exact Or.inr hcopy

/-- Binding a LASH end whose port is in the graph sends the request, if the other end is ready. -/
theorem bind_requests (h : link.Inv s) (hrun : s.jack.running = true)
    (hroster : (jc.jackdbusId, jc.name) ∈ s.jack.roster) (hx : link.IsAt x lc.id)
    (hid : jc.jackdbusId = link.jackId x) (hcopy : link.HasCopy lc.jackPatches)
    (hport : s.jack.HasPort (link.jackId x) (link.port x))
    (hbound : link.uuid (!x) ≠ 0 → link.Bound t.mgr (!x)) (ht : s.bind jc lc = some t) :
    ∃ events, t.log = s.log ++ events ∧ link.request ∈ events := by
  obtain ⟨gc, hfind, hgcid, hzero, hgc, hgcname⟩ := h.rostered.find hroster
  obtain ⟨e, hclients, heid, -, -, hlog, -⟩ := bind_found h.rostered.synced hrun hfind hzero ht
  refine ⟨_, hlog, List.mem_cons_of_mem _ (List.mem_flatMap.mpr ⟨link.port x, ?_, ?_⟩)⟩
  · obtain ⟨c, hc, hcid, hmem⟩ := hport
    have hids : (s.jack.graph.clients.map GraphClient.id).Nodup := by
      have hids := h.rostered.ids
      rw [JackServer.roster, List.map_map] at hids
      exact hids
    have hsame : c = gc := Keyed.eq_of_key_eq hids hc hgc (hcid.trans (hid.symm.trans hgcid.symm))
    rw [← hsame]
    exact hmem
  · have hname : gc.name = link.name x := by
      rw [hgcname]
      exact (h.named.clients _ hroster x).mp hid
    have hother : ∀ d : JackMgrClient, d.id = lc.id → ¬ link.IsAt (!x) d.id := by
      intro d hd hat
      rw [hd] at hat
      exact absurd (isAt_inj hx hat) (by simp)
    rw [hname]
    refine newClientPort_copy hcopy hx (otherEnd_eq ?_ ?_)
    · intro d hd hat
      rcases List.mem_append.mp hd with hd | hd
      · exact h.names d hd _ hat
      · exact absurd hat (hother d (by rw [List.mem_singleton.mp hd]; rfl))
    · intro hlash
      obtain ⟨d, hd, hdid, -⟩ := hbound hlash
      rw [hclients] at hd
      rcases List.mem_append.mp hd with hd | hd
      · exact ⟨d, List.mem_append_left _ hd, hdid⟩
      · rw [List.mem_singleton.mp hd] at hdid
        exact absurd ⟨hdid, hlash⟩ (hother e heid)

/-- A port that comes up last sends the request, unless the ports are connected. -/
theorem port_requests (h : link.Inv s) (hbound : ∀ y, link.uuid y ≠ 0 → link.Bound s.mgr y) :
    link.Connected s.jack ∨ ∃ events,
      (s.onPortAppeared (link.jackId x) (link.name x) (link.port x)).log = s.log ++ events ∧
        link.request ∈ events := by
  have hend : ∀ y, link.uuid y ≠ 0 → ∃ e ∈ s.mgr.clients, e.id = link.uuid y := by
    intro y hy
    obtain ⟨e, he, hid, -⟩ := hbound y hy
    exact ⟨e, he, hid⟩
  have hother : ∀ y, otherEnd s.mgr.clients (link.client y) (link.uuid y) = link.name y := by
    intro y
    exact otherEnd_eq (fun e he => h.names e he y) (hend y)
  unfold onPortAppeared
  cases hfind : jackMgrClientFindByJackdbusId s.mgr.clients (link.jackId x) with
  | some c =>
      -- a bound client has a new port
      have hc := List.mem_of_find?_eq_some hfind
      have hid : c.jackdbusId = link.jackId x := by simpa using List.find?_some hfind
      have hat := (h.fits c hc x).mpr hid
      rcases h.kept c hc x hat with hcopy | hconnected
      · right
        have hne : c.oldPatches ≠ [] := by
          obtain ⟨patch, hpatch, -⟩ := hcopy
          exact List.ne_nil_of_mem hpatch
        dsimp only
        rw [if_neg hne]
        exact ⟨_, rfl, newClientPort_copy hcopy hat (hother (!x))⟩
      · exact Or.inl hconnected
  | none =>
      -- the new port is foreign
      have hforeign : link.uuid x = 0 := by
        apply Classical.byContradiction
        intro hlash
        obtain ⟨e, he, -, hid⟩ := hbound x hlash
        exact absurd hid (by simpa using List.find?_eq_none.mp hfind e he)
      have hlash : link.uuid (!x) ≠ 0 := by
        obtain ⟨y, hy⟩ := link.some_lash
        have hyx : y = !x := by
          apply Bool.eq_not_of_ne
          rintro rfl
          exact hy hforeign
        rwa [hyx] at hy
      obtain ⟨c, hc, hid⟩ := hend (!x) hlash
      rcases h.kept c hc (!x) ⟨hid, hlash⟩ with hcopy | hconnected
      · right
        exact ⟨_, rfl, newForeignPort_copy hc hcopy ⟨hid, hlash⟩
          (h.names c hc _ ⟨hid, hlash⟩) hforeign⟩
      · exact Or.inl hconnected

/-! ### One step -/

/-- Steps that bind nothing: entries may go away, except those of the two LASH ends, and unknown
clients too. -/
theorem frame (h : link.Inv s) (hrostered : t.Rostered) (hnamed : link.Named t.jack)
    (hstays : link.Stays s.jack t.jack) (hrun : t.jack.running = s.jack.running)
    (hclients : ∀ e ∈ t.mgr.clients, ∃ d ∈ s.mgr.clients, e.core = d.core)
    (hends : ∀ e ∈ s.mgr.clients, ∀ x, link.IsAt x e.id → ∃ d ∈ t.mgr.clients, d.id = e.id)
    (hunknown : t.mgr.unknownClients.Sublist s.mgr.unknownClients)
    (hsaved : ∀ c ∈ t.live ++ t.lost, ∀ x, link.IsAt x c.id → link.HasCopy c.jackPatches ∨
      ∃ lc ∈ s.live ++ s.lost, lc.id = c.id ∧ lc.jackPatches = c.jackPatches) : link.Inv t := by
  refine ⟨hrostered, hnamed, ?_, ?_, ?_, ?_, ?_, ?_⟩
  · intro hstop
    rw [List.eq_nil_iff_forall_not_mem]
    intro e he
    obtain ⟨d, hd, -⟩ := hclients e he
    rw [h.stopped (hrun ▸ hstop)] at hd
    exact absurd hd (by simp)
  · intro e he
    obtain ⟨d, hd, hcore⟩ := hclients e he
    obtain ⟨hid, hjack, -, -⟩ := JackMgrClient.core_eq hcore
    intro x
    rw [hid, hjack]
    exact h.fits d hd x
  · intro e he x hx
    obtain ⟨d, hd, hcore⟩ := hclients e he
    obtain ⟨hid, -, hname, -⟩ := JackMgrClient.core_eq hcore
    rw [hname]
    exact h.names d hd x (hid ▸ hx)
  · intro e he x hx
    obtain ⟨d, hd, hcore⟩ := hclients e he
    obtain ⟨hid, -, -, hpatches⟩ := JackMgrClient.core_eq hcore
    rw [hpatches]
    exact (h.kept d hd x (hid ▸ hx)).imp_right hstays.connected
  · intro e he x hx
    obtain ⟨d, hd, hcore⟩ := hclients e he
    obtain ⟨hid, -, -, -⟩ := JackMgrClient.core_eq hcore
    obtain ⟨hroster, hnot⟩ := h.known d hd x (hid ▸ hx)
    exact ⟨hstays.clients x hroster, fun hmem => hnot ((hunknown.map _).subset hmem)⟩
  · intro c hc x hx
    rcases hsaved c hc x hx with hcopy | ⟨lc, hlc, hid, hpatches⟩
    · exact Or.inr hcopy
    · rcases h.saved lc hlc x (hid ▸ hx) with ⟨e, he, heid⟩ | hcopy
      · obtain ⟨d, hd, hdid⟩ := hends e he x ⟨heid, hx.2⟩
        exact Or.inl ⟨d, hd, hdid.trans heid⟩
      · exact Or.inr (hpatches ▸ hcopy)

/-- The JACK server changes, and the daemon has not heard of it. -/
theorem change {j' : JackServer} (h : link.Inv s)
    (hrostered : ({ s with jack := j' } : JackSession).Rostered) (hnamed : link.Named j')
    (hstays : link.Stays s.jack j') (hrun : j'.running = s.jack.running) :
    link.Inv { s with jack := j' } := by
  refine h.frame hrostered hnamed hstays hrun (fun e he => ⟨e, he, rfl⟩)
    (fun e he _ _ => ⟨e, he, rfl⟩) (.refl _) ?_
  exact fun c hc _ _ => Or.inr ⟨c, hc, rfl, rfl⟩

/-- A LASH end whose JACK client has not come up, or is an unknown one, has its copy. -/
theorem copy_of_new (h : link.Inv s) {lc : SessionClient} (hlc : lc ∈ s.live ++ s.lost)
    (hx : link.IsAt x lc.id)
    (hnew : link.jackId x ∉ s.jack.roster.map Prod.fst ∨
      link.jackId x ∈ s.mgr.unknownClients.map JackMgrClient.jackdbusId) :
    link.HasCopy lc.jackPatches := by
  rcases h.saved lc hlc x hx with ⟨e, he, hid⟩ | hcopy
  · obtain ⟨hroster, hunknown⟩ := h.known e he x ⟨hid, hx.2⟩
    rcases hnew with hnew | hnew
    · exact absurd hroster hnew
    · exact absurd hnew hunknown
  · exact hcopy

/-- `lashd_jackdbus_mgr_ports_connected`, for one of the two clients. -/
theorem dropOldPatch (h : link.Inv s) {id : Nat} {p : GraphPatch} (hp : p ∈ s.jack.graph.patches)
    (ht : s.dropOldPatch id p = some t) : link.Inv t := by
  obtain ⟨clients, rfl, hkeys, -⟩ := dropOldPatch_frame ht
  have hmem : ∀ e ∈ clients, ∃ d ∈ s.mgr.clients, d.SameEntry e ∧
      (link.HasCopy d.oldPatches → link.Fits d →
        link.HasCopy e.oldPatches ∨ link.Connected s.jack) := by
    have hsame : ∀ e ∈ s.mgr.clients, ∃ d ∈ s.mgr.clients, d.SameEntry e ∧
        (link.HasCopy d.oldPatches → link.Fits d →
          link.HasCopy e.oldPatches ∨ link.Connected s.jack) := by
      exact fun e he => ⟨e, he, .refl e, fun hc _ => Or.inl hc⟩
    intro e he
    unfold JackSession.dropOldPatch at ht
    split at ht
    · have hmgr := congrArg (fun u : JackSession => u.mgr.clients) (Option.some.inj ht)
      have hmgr : s.mgr.clients = clients := hmgr
      exact hsame e (hmgr ▸ he)
    · next c hc =>
        obtain ⟨c', hc', heq⟩ := Option.map_eq_some_iff.mp ht
        have hmgr := congrArg (fun u : JackSession => u.mgr.clients) heq
        have hmgr : modifyFirst _ _ s.mgr.clients = clients := hmgr
        rw [← hmgr] at he
        rcases mem_modifyFirst he with he | ⟨-, -, -, rfl⟩
        · exact hsame e he
        · refine ⟨c, List.mem_of_find?_eq_some hc, delOldPatch_same hc', fun hcopy hfits => ?_⟩
          exact delOldPatch_copy h.named h.fits hfits hp hcopy hc'
  refine ⟨h.rostered.shrink (.refl _) (h.rostered.synced.congr rfl rfl) rfl rfl, h.named, ?_, ?_,
    ?_, ?_, ?_, ?_⟩
  · intro hstop
    rw [List.eq_nil_iff_forall_not_mem]
    intro e he
    obtain ⟨d, hd, -⟩ := hmem e he
    rw [h.stopped hstop] at hd
    exact absurd hd (by simp)
  · intro e he x
    obtain ⟨d, hd, hsame, -⟩ := hmem e he
    rw [hsame.id, hsame.jackdbusId]
    exact h.fits d hd x
  · intro e he x hx
    obtain ⟨d, hd, hsame, -⟩ := hmem e he
    rw [hsame.name]
    exact h.names d hd x (hsame.id ▸ hx)
  · intro e he x hx
    obtain ⟨d, hd, hsame, hcopy⟩ := hmem e he
    rcases h.kept d hd x (hsame.id ▸ hx) with hc | hconnected
    · exact hcopy hc (h.fits d hd)
    · exact Or.inr hconnected
  · intro e he x hx
    obtain ⟨d, hd, hsame, -⟩ := hmem e he
    exact h.known d hd x (hsame.id ▸ hx)
  · intro c hc x hx
    refine (h.saved c hc x hx).imp_left ?_
    rintro ⟨e, he, hid⟩
    have hkey : e.key ∈ clients.map JackMgrClient.key := hkeys ▸ List.mem_map_of_mem he
    obtain ⟨d, hd, hdkey⟩ := List.mem_map.mp hkey
    exact ⟨d, hd, (congrArg Prod.fst hdkey).trans hid⟩

/-- `lashd_jackdbus_on_client_appeared` -/
theorem clientAppeared (h : link.Inv s) {id : Nat} {name : CStr} {pid : Int}
    (hok : link.Starts s (.clientAppeared id name pid))
    (ht : s.step (.clientAppeared id name pid) = some t) : link.Inv t := by
  have hstart := hok
  obtain ⟨⟨hrun, hid, hnew⟩, -, hpair⟩ := hstart
  obtain ⟨hrostered, hfresh, hunknown⟩ := @Rostered.appear s h.rostered id name pid hid hnew hrun
  have hu : link.Inv { s with jack := s.jack.addClient id name pid } :=
    h.change hrostered (h.named.after hok) (stays_after hok hrun) rfl
  have hroster : (id, name) ∈ (s.jack.addClient id name pid).roster := by
    rw [JackServer.roster_addClient]
    simp
  have hpid := @JackServer.getClientPid_addClient s.jack id name pid hrun
  rcases onClientAppeared_cases ht with rfl | ⟨hpos, lc, hlc, hbind⟩ | rfl
  · exact hu
  · have hpos : 0 < getClientPid (s.jack.addClient id name pid) id := hpos
    have hlc : s.findByPid (getClientPid (s.jack.addClient id name pid) id) = some lc := hlc
    rw [hpid] at hpos hlc
    have hpair : ∀ x, link.IsAt x lc.id ↔ id = link.jackId x := by
      apply hpair lc
      rw [bindsTo, if_pos hpos]
      exact hlc
    refine hu.bind hrun hroster hunknown hpair ?_ hbind
    intro x hx
    apply h.copy_of_new (mem_of_findByPid hlc) hx
    rw [← (hpair x).mp hx]
    exact Or.inl hfresh
  · have hrostered := h.rostered.step hok.1 (fun he => absurd he (by simp)) ht
    refine ⟨hrostered, hu.named, hu.stopped, hu.fits, hu.names, hu.kept, ?_, hu.saved⟩
    intro e he x hx
    obtain ⟨hmem, hnot⟩ := h.known e he x hx
    refine ⟨(hu.known e he x hx).1, ?_⟩
    show link.jackId x ∉ (s.mgr.unknownClients ++ [_]).map JackMgrClient.jackdbusId
    rw [List.map_append, List.mem_append, not_or]
    refine ⟨hnot, fun hx' => hfresh ?_⟩
    rw [← show link.jackId x = id from List.mem_singleton.mp hx']
    exact hmem

/-- The session in which a `Connect` call binds an unknown JACK client. -/
theorem connect_binds (h : link.Inv s) {pid : Int} {id : Uuid} {place : Nat}
    (hok : link.Starts s (.connect pid id place)) {jc : JackMgrClient}
    (hfind : s.mgr.unknownClients.find? (fun c => c.pid = pid) = some jc) :
    link.Inv { (s.connected pid id place).1 with mgr := { s.mgr with
        unknownClients := s.mgr.unknownClients.eraseP (fun c => c.pid = pid) } } ∧
      s.jack.running = true ∧ (jc.jackdbusId, jc.name) ∈ s.jack.roster ∧
      jc.jackdbusId ∉ (s.mgr.unknownClients.eraseP (fun c => c.pid = pid)).map
        JackMgrClient.jackdbusId ∧
      (∀ x, link.IsAt x (s.connected pid id place).2.id ↔ jc.jackdbusId = link.jackId x) ∧
      ∀ x, link.IsAt x (s.connected pid id place).2.id →
        link.HasCopy (s.connected pid id place).2.jackPatches := by
  obtain ⟨hmgr, hjack, hlc⟩ := s.connected_frame pid id place
  obtain ⟨-, hnot, hpair⟩ := hok
  have hpair := hpair jc hfind
  have hmem := List.mem_of_find?_eq_some hfind
  have hunknownId : jc.jackdbusId ∈ s.mgr.unknownClients.map JackMgrClient.jackdbusId :=
    List.mem_map_of_mem hmem
  refine ⟨?_, ?_, h.rostered.unknown jc hmem, ?_, hpair, ?_⟩
  · apply h.frame
    · apply h.rostered.shrink List.eraseP_sublist
      · dsimp only
        rw [hjack]
        exact h.rostered.synced.congr rfl rfl
      · dsimp only
        rw [hjack]
      · dsimp only
        rw [hjack]
    · dsimp only
      rw [hjack]
      exact h.named
    · dsimp only
      rw [hjack]
      exact ⟨fun _ h => h, fun h => h⟩
    · dsimp only
      rw [hjack]
    · exact fun e he => ⟨e, he, rfl⟩
    · exact fun e he _ _ => ⟨e, he, rfl⟩
    · exact List.eraseP_sublist
    · intro c hc x hx
      rcases mem_connected hc with hc | hid
      · exact Or.inr ⟨c, hc, rfl, rfl⟩
      · exact absurd (hid ▸ hx) (hnot x)
  · rw [← Bool.not_eq_false]
    intro hstop
    rw [h.rostered.stopped hstop] at hmem
    exact absurd hmem (by simp)
  · have hperm := (perm_eraseP hfind).map JackMgrClient.jackdbusId
    exact (List.nodup_cons.mp (hperm.nodup_iff.mpr h.rostered.unknownIds)).1
  · intro x hx
    rcases hlc with ⟨hlost, -⟩ | hid
    · apply h.copy_of_new (List.mem_append_right _ (List.mem_of_find?_eq_some hlost)) hx
      rw [← (hpair x).mp hx]
      exact Or.inr hunknownId
    · exact absurd (hid ▸ hx) (hnot x)

/-- `server_add_client` -/
theorem connect (h : link.Inv s) {pid : Int} {id : Uuid} {place : Nat}
    (hok : link.Starts s (.connect pid id place)) (ht : s.step (.connect pid id place) = some t) :
    link.Inv t := by
  have hrostered := h.rostered.step hok.1 (fun he => absurd he (by simp)) ht
  obtain ⟨hmgr, hjack, -⟩ := s.connected_frame pid id place
  rcases serverAddClient_cases ht with rfl | ⟨jc, hfind, hbind⟩
  · apply h.frame hrostered
    · rw [hjack]
      exact h.named
    · rw [hjack]
      exact ⟨fun _ h => h, fun h => h⟩
    · rw [hjack]
    · rw [hmgr]
      exact fun e he => ⟨e, he, rfl⟩
    · rw [hmgr]
      exact fun e he _ _ => ⟨e, he, rfl⟩
    · rw [hmgr]
    · intro c hc x hx
      rcases mem_connected hc with hc | hid
      · exact Or.inr ⟨c, hc, rfl, rfl⟩
      · exact absurd (hid ▸ hx) (hok.2.1 x)
  · obtain ⟨hv, hrun, hroster, hunknown, hpair, hcopy⟩ := h.connect_binds hok hfind
    refine hv.bind ?_ ?_ hunknown hpair hcopy hbind
    · dsimp only
      rw [hjack]
      exact hrun
    · dsimp only
      rw [hjack]
      exact hroster

/-- A step that leaves the entries alone. -/
theorem sameEntries (h : link.Inv s) (hrostered : t.Rostered) (hnamed : link.Named t.jack)
    (hstays : link.Stays s.jack t.jack) (hrun : t.jack.running = s.jack.running)
    (hclients : t.mgr.clients = s.mgr.clients)
    (hunknown : t.mgr.unknownClients.Sublist s.mgr.unknownClients)
    (hsaved : ∀ c ∈ t.live ++ t.lost, ∀ x, link.IsAt x c.id → link.HasCopy c.jackPatches ∨
      ∃ lc ∈ s.live ++ s.lost, lc.id = c.id ∧ lc.jackPatches = c.jackPatches) : link.Inv t := by
  apply h.frame hrostered hnamed hstays hrun _ _ hunknown hsaved
  · rw [hclients]
    exact fun e he => ⟨e, he, rfl⟩
  · rw [hclients]
    exact fun e he _ _ => ⟨e, he, rfl⟩

/-- A step that leaves the entries and JACK alone. -/
theorem sameJack (h : link.Inv s) (hrostered : t.Rostered) (hjack : t.jack = s.jack)
    (hclients : t.mgr.clients = s.mgr.clients)
    (hunknown : t.mgr.unknownClients.Sublist s.mgr.unknownClients)
    (hsaved : ∀ c ∈ t.live ++ t.lost, ∀ x, link.IsAt x c.id → link.HasCopy c.jackPatches ∨
      ∃ lc ∈ s.live ++ s.lost, lc.id = c.id ∧ lc.jackPatches = c.jackPatches) : link.Inv t := by
  apply h.sameEntries hrostered _ _ (by rw [hjack]) hclients hunknown hsaved
  · rw [hjack]
    exact h.named
  · rw [hjack]
    exact ⟨fun _ h => h, fun h => h⟩

/-- A step that takes entries away, none of which is one of a LASH end. -/
theorem lessEntries (h : link.Inv s) (hrostered : t.Rostered) (hjack : t.jack = s.jack)
    (hclients : ∀ e ∈ t.mgr.clients, e ∈ s.mgr.clients)
    (hends : ∀ e ∈ s.mgr.clients, ∀ x, link.IsAt x e.id → e ∈ t.mgr.clients)
    (hunknown : t.mgr.unknownClients.Sublist s.mgr.unknownClients)
    (hsaved : ∀ c ∈ t.live ++ t.lost, ∀ x, link.IsAt x c.id → link.HasCopy c.jackPatches ∨
      ∃ lc ∈ s.live ++ s.lost, lc.id = c.id ∧ lc.jackPatches = c.jackPatches) : link.Inv t := by
  apply h.frame hrostered _ _ (by rw [hjack]) _ _ hunknown hsaved
  · rw [hjack]
    exact h.named
  · rw [hjack]
    exact ⟨fun _ h => h, fun h => h⟩
  · exact fun e he => ⟨e, hclients e he, rfl⟩
  · exact fun e he x hx => ⟨e, hends e he x hx, rfl⟩

/-- `lashd_jackdbus_mgr_ports_connected`, for both clients. -/
theorem portsConnected (h : link.Inv s) {p : GraphPatch}
    (hok : link.Starts s (.portsConnected p)) (ht : s.step (.portsConnected p) = some t) :
    link.Inv t := by
  have hrost : ({ s with jack := s.jack.connect p } : JackSession).Rostered :=
    h.rostered.change rfl rfl (h.rostered.synced.change _ _)
  have hu : link.Inv { s with jack := s.jack.connect p } :=
    h.change hrost (h.named.after hok) (stays_after hok hok.1.1) rfl
  have hp : p ∈ (s.jack.connect p).graph.patches := List.mem_append_right _ List.mem_cons_self
  obtain ⟨v, hv, hrest⟩ := Option.bind_eq_some_iff.mp ht
  have hv' := @Inv.dropOldPatch link { s with jack := s.jack.connect p } v hu _ _ hp hv
  split at hrest
  · rw [← Option.some.inj hrest]
    exact hv'
  · obtain ⟨clients, rfl, -⟩ := dropOldPatch_frame hv
    exact hv'.dropOldPatch hp hrest

/-- The server starts: there is no entry yet. -/
theorem serverStarted (h : link.Inv s) {g : Graph} {pid : Nat → Int}
    (hrostered : t.Rostered) (hok : link.Starts s (.serverStarted g pid))
    (ht : s.step (.serverStarted g pid) = some t) : link.Inv t := by
  obtain ⟨hstop, hversion, -⟩ := hok.1
  obtain ⟨u, hu, hjack, hlive, hlost, hclients, -⟩ :=
    @step_serverStarted s g pid (h.rostered.stopped hstop) hversion
  obtain rfl : u = t := Option.some.inj (hu.symm.trans ht)
  have hnil : u.mgr.clients = [] := hclients.trans (h.stopped hstop)
  have hnone : ∀ {P : JackMgrClient → Prop}, ∀ e ∈ u.mgr.clients, P e := by
    intro P
    rw [hnil]
    exact fun e he => absurd he List.not_mem_nil
  refine ⟨hrostered, hjack ▸ h.named.after hok, fun _ => hnil, hnone, hnone, hnone, hnone, ?_⟩
  rw [hlive, hlost, hclients]
  exact h.saved

/-- A client that is at no end is lost. -/
theorem lose (h : link.Inv s) {addr place : Nat} (hrostered : t.Rostered)
    (hok : link.Starts s (.lose addr place)) (ht : s.step (.lose addr place) = some t) :
    link.Inv t := by
  rw [JackSession.step] at ht
  split at ht
  · rw [← Option.some.inj ht]
    exact h
  · next lc hfind =>
      rw [← Option.some.inj ht] at hrostered ⊢
      have haddr : lc.addr = addr := by simpa using List.find?_some hfind
      have hnot := hok.2 lc (List.mem_of_find?_eq_some hfind) haddr
      obtain ⟨hback, hkeep, hid⟩ := s.mem_takeBack lc
      apply h.lessEntries hrostered rfl hback _ (s.shrinks_takeBack lc).unknown
      · intro c hc x hx
        rcases List.mem_append.mp hc with hc | hc
        · exact Or.inr
            ⟨c, List.mem_append_left _ (Keyed.mem_of_mem_del hc), rfl, rfl⟩
        · rcases List.eq_or_mem_of_mem_insertIdx hc with rfl | hc
          · have hx : link.IsAt x (s.takeBack lc).2.id := hx
            exact absurd (hid ▸ hx) (hnot x)
          · exact Or.inr ⟨c, List.mem_append_right _ hc, rfl, rfl⟩
      · intro e he x hx
        apply hkeep e he
        intro heid
        exact hnot x (heid ▸ hx)

/-- The patches of clients are written, and the entries keep what they are bound to. -/
theorem writeInfo (h : link.Inv s) (addrs : List Nat) (hrostered : (s.writeInfo addrs).Rostered) :
    link.Inv (s.writeInfo addrs) := by
  obtain ⟨hmgr, hjack⟩ := s.shrinks_writeInfo addrs
  obtain ⟨hcores, hlive, hlost⟩ := s.writeInfo_frame addrs
  apply h.frame hrostered _ _ (by rw [hjack]) _ _ hmgr.unknown
  · rw [hlive, hlost]
    exact fun c hc _ _ => Or.inr ⟨c, hc, rfl, rfl⟩
  · rw [hjack]
    exact h.named
  · rw [hjack]
    exact ⟨fun _ h => h, fun h => h⟩
  · intro e he
    have hcore : e.core ∈ s.mgr.clients.map JackMgrClient.core :=
      hcores ▸ List.mem_map_of_mem he
    obtain ⟨d, hd, hdcore⟩ := List.mem_map.mp hcore
    exact ⟨d, hd, hdcore.symm⟩
  · intro e he x _
    have hcore : e.core ∈ (s.writeInfo addrs).mgr.clients.map JackMgrClient.core :=
      hcores ▸ List.mem_map_of_mem he
    obtain ⟨d, hd, hdcore⟩ := List.mem_map.mp hcore
    exact ⟨d, hd, (JackMgrClient.core_eq hdcore).1⟩

/-- A project is unloaded, none of whose clients is at an end. -/
theorem unload (h : link.Inv s) {addrs : List Nat} (hrostered : t.Rostered)
    (hok : link.Starts s (.unload addrs)) (ht : s.step (.unload addrs) = some t) :
    link.Inv t := by
  rw [← Option.some.inj ht] at hrostered ⊢
  obtain ⟨hback, hkeep⟩ := s.mem_unload addrs
  apply h.lessEntries hrostered rfl hback _ (s.shrinks_unload addrs).unknown
  · intro c hc x hx
    rcases List.mem_append.mp hc with hc | hc
    · exact Or.inr ⟨c, List.mem_append_left _ (List.mem_of_mem_filter hc), rfl, rfl⟩
    · exact Or.inr ⟨c, List.mem_append_right _ (List.mem_of_mem_filter hc), rfl, rfl⟩
  · intro e he x hx
    apply hkeep e he
    intro c hc haddr heid
    exact hok.2 c hc haddr x (heid ▸ hx)

/-- **One step** keeps the invariant. -/
theorem step (h : link.Inv s) (hok : link.Starts s i) (ht : s.step i = some t) : link.Inv t := by
  have hrostered : t.Rostered := by
    apply h.rostered.step hok.1 ?_ ht
    rintro rfl
    exact absurd hok.2 id
  have hsaved : ∀ c ∈ s.live ++ s.lost, ∀ x, link.IsAt x c.id → link.HasCopy c.jackPatches ∨
      ∃ lc ∈ s.live ++ s.lost, lc.id = c.id ∧ lc.jackPatches = c.jackPatches :=
    fun c hc _ _ => Or.inr ⟨c, hc, rfl, rfl⟩
  cases i with
  | clientAppeared id name pid => exact h.clientAppeared hok ht
  | clientDisappeared id =>
      have hstays := stays_after hok hok.1.1
      have hnamed := h.named.after hok
      rw [onClientDisappeared_mgr ht] at hrostered ⊢
      exact h.sameEntries hrostered hnamed hstays rfl rfl List.eraseP_sublist hsaved
  | portAppeared id port =>
      have hstays := stays_after hok hok.1.1
      have hnamed := h.named.after hok
      obtain ⟨requests, hrequests, -⟩ := onPortAppeared_frame
        { s with jack := s.jack.addPort id port } id ((s.jack.clientName id).getD []) port
      rw [JackSession.step, hrequests] at ht
      rw [← Option.some.inj ht] at hrostered ⊢
      exact h.sameEntries hrostered hnamed hstays rfl rfl (.refl _) hsaved
  | portDisappeared id port =>
      have hstays := stays_after hok hok.1.1
      have hnamed := h.named.after hok
      rw [← Option.some.inj ht] at hrostered ⊢
      exact h.change hrostered hnamed hstays rfl
  | portsConnected p => exact h.portsConnected hok ht
  | portsDisconnected p =>
      have hstays := stays_after hok hok.1.1
      have hnamed := h.named.after hok
      rw [← Option.some.inj ht] at hrostered ⊢
      exact h.change hrostered hnamed hstays rfl
  | serverStarted g pid => exact h.serverStarted hrostered hok ht
  | serverStopped => exact absurd hok.2 id
  | load clients =>
      rw [← Option.some.inj ht] at hrostered ⊢
      obtain ⟨hmgr, hjack⟩ := load_frame clients s
      apply h.sameJack hrostered hjack (by rw [hmgr]) (by rw [hmgr])
      intro c hc x hx
      rcases mem_load hc with hc | hc
      · exact hsaved c hc x hx
      · exact Or.inl (hok.2 _ hc x hx)
  | launch addr pid =>
      rw [← Option.some.inj ht] at hrostered ⊢
      apply h.sameJack hrostered rfl rfl (.refl _)
      intro c hc x _
      right
      rcases List.mem_append.mp hc with hc | hc
      · exact ⟨c, List.mem_append_left _ hc, rfl, rfl⟩
      · obtain ⟨d, hd, rfl⟩ := List.mem_map.mp hc
        refine ⟨d, List.mem_append_right _ hd, ?_⟩
        split_ifs <;> exact ⟨rfl, rfl⟩
  | connect pid id place => exact h.connect hok ht
  | lose addr place => exact h.lose hrostered hok ht
  | save =>
      rw [← Option.some.inj ht] at hrostered ⊢
      apply h.sameJack hrostered rfl (getGraph_clients ..) _ hsaved
      rw [getGraph_unknownClients]
  | clearLost addrs =>
      rw [← Option.some.inj ht] at hrostered ⊢
      apply h.sameJack hrostered rfl rfl (.refl _)
      intro c hc x hx
      rcases List.mem_append.mp hc with hc | hc
      · exact hsaved c (List.mem_append_left _ hc) x hx
      · exact hsaved c (List.mem_append_right _ (List.mem_of_mem_filter hc)) x hx
  | writeInfo addrs =>
      rw [← Option.some.inj ht] at hrostered ⊢
      exact h.writeInfo addrs hrostered
  | unload addrs => exact h.unload hrostered hok ht

end Inv

theorem initial_inv : link.Inv initial where
  rostered := initial_rostered
  named := ⟨fun _ hr => absurd hr (by simp [initial, JackServer.roster]),
    fun _ hp => absurd hp (by simp [initial])⟩
  stopped _ := rfl
  fits _ he := absurd he (by simp [initial])
  names _ he := absurd he (by simp [initial])
  kept _ he := absurd he (by simp [initial])
  known _ he := absurd he (by simp [initial])
  saved _ hc := absurd hc (by simp [initial])

/-! ## The last event -/

theorem Bound.of_mem {m m' : JackDbusMgr} (h : link.Bound m' x)
    (hmem : ∀ e ∈ m'.clients, link.IsAt x e.id → e.key ∈ m.clients.map JackMgrClient.key)
    (hx : link.uuid x ≠ 0) : link.Bound m x := by
  obtain ⟨e, he, hid, hjack⟩ := h
  obtain ⟨d, hd, hkey⟩ := List.mem_map.mp (hmem e he ⟨hid, hx⟩)
  exact ⟨d, hd, (congrArg Prod.fst hkey).trans hid, (congrArg Prod.snd hkey).trans hjack⟩

/-- A new entry of a client that is at neither end binds no end. -/
theorem Bound.of_bind {jc : JackMgrClient} {lc : SessionClient} (h : link.Bound t.mgr x)
    (ht : u.bind jc lc = some t) (hmgr : u.mgr.clients = s.mgr.clients) (hnot : ¬ link.IsAt x lc.id)
    (hx : link.uuid x ≠ 0) : link.Bound s.mgr x := by
  obtain ⟨e, _, hclients, heid, -⟩ := bind_frame ht
  refine h.of_mem (fun d hd hat => ?_) hx
  rw [hclients, hmgr] at hd
  rcases List.mem_append.mp hd with hd | hd
  · exact List.mem_map_of_mem hd
  · rw [List.mem_singleton.mp hd, heid] at hat
    exact absurd hat hnot

/-- The ports of a client are those it had, unless a port of it comes up. -/
theorem hasPort_addPort {id id' : Nat} {port port' : CStr}
    (h : (j.addPort id port).HasPort id' port')
    (hne : ¬ (id = id' ∧ port = port')) : j.HasPort id' port' := by
  obtain ⟨c, hc, hid, hport⟩ := h
  obtain ⟨d, hd, rfl⟩ := List.mem_map.mp hc
  split_ifs at hid hport with hdid
  · refine ⟨d, hd, hid, ?_⟩
    rcases List.mem_append.mp hport with hport | hport
    · exact hport
    · exact absurd ⟨hdid.symm.trans hid, (List.mem_singleton.mp hport).symm⟩ hne
  · exact ⟨d, hd, hid, hport⟩

theorem hasPort_delPort {id id' : Nat} {port port' : CStr}
    (h : (j.delPort id port).HasPort id' port') : j.HasPort id' port' := by
  obtain ⟨c, hc, hid, hport⟩ := h
  obtain ⟨d, hd, rfl⟩ := List.mem_map.mp hc
  split_ifs at hid hport
  · exact ⟨d, hd, hid, List.mem_of_mem_erase hport⟩
  · exact ⟨d, hd, hid, hport⟩

theorem hasPort_delClient {id id' : Nat} {port : CStr} (h : (j.delClient id).HasPort id' port) :
    j.HasPort id' port := by
  obtain ⟨c, hc, hid, hport⟩ := h
  exact ⟨c, List.mem_of_mem_filter hc, hid, hport⟩

/-- A client that has come up has no ports yet. -/
theorem hasPort_addClient {id id' : Nat} {name port : CStr} {pid : Int}
    (h : (j.addClient id name pid).HasPort id' port) : j.HasPort id' port := by
  obtain ⟨c, hc, hid, hport⟩ := h
  rcases List.mem_append.mp hc with hc | hc
  · exact ⟨c, hc, hid, hport⟩
  · rw [List.mem_singleton.mp hc] at hport
    exact absurd hport (by simp)

/-- A step that binds no end and opens no port of the patch does not make the ends ready. -/
theorem Ready.quiet (h : link.Ready t)
    (hbound : ∀ x, link.uuid x ≠ 0 → link.Bound t.mgr x → link.Bound s.mgr x)
    (hport : ∀ x, t.jack.HasPort (link.jackId x) (link.port x) →
      s.jack.HasPort (link.jackId x) (link.port x)) : link.Ready s := by
  intro x
  exact ⟨fun hx => hbound x hx ((h x).1 hx), hport x (h x).2⟩

/-- Nor does one after which there are fewer entries, on the same JACK server. -/
theorem Ready.fewer (h : link.Ready t) (hjack : t.jack = s.jack)
    (hkeys : (t.mgr.clients.map JackMgrClient.key).Sublist
      (s.mgr.clients.map JackMgrClient.key)) : link.Ready s := by
  apply h.quiet
  · intro x hx hbound
    exact hbound.of_mem (fun e he _ => hkeys.subset (List.mem_map_of_mem he)) hx
  · intro x hport
    exact hjack ▸ hport

/-- Nor does a JACK client that comes up: it has no ports yet. -/
theorem Ready.clientAppeared {id : Nat} {name : CStr} {pid : Int} (h : link.Ready t)
    (hok : link.Starts s (.clientAppeared id name pid))
    (ht : s.step (.clientAppeared id name pid) = some t) : link.Ready s := by
  obtain ⟨⟨hrun, -, hnew⟩, -, hpair⟩ := hok
  have hport : ∀ x, t.jack.HasPort (link.jackId x) (link.port x) →
      s.jack.HasPort (link.jackId x) (link.port x) := by
    intro x hp
    rw [(step_server ht).1] at hp
    exact hasPort_addClient hp
  -- the ports are those of clients that were there
  have hne : ∀ x, id ≠ link.jackId x := by
    rintro x rfl
    obtain ⟨c, hc, hid, -⟩ := hport x (h x).2
    exact (hnew c hc).1 hid
  apply h.quiet _ hport
  rcases onClientAppeared_cases ht with rfl | ⟨hpos, lc, hlc, hbind⟩ | rfl
  · exact fun _ _ hb => hb
  · intro x hx hb
    have hpid := @JackServer.getClientPid_addClient s.jack id name pid hrun
    have hpos : 0 < getClientPid (s.jack.addClient id name pid) id := hpos
    have hlc : s.findByPid (getClientPid (s.jack.addClient id name pid) id) = some lc := hlc
    rw [hpid] at hpos hlc
    refine hb.of_bind hbind rfl (fun hat => hne x ?_) hx
    refine (hpair lc ?_ x).mp hat
    rw [bindsTo, if_pos hpos]
    exact hlc
  · exact fun _ _ hb => hb

/-- The last port of the patch comes up. -/
theorem Inv.portAppeared_requests (h : link.Inv s)
    (hok : link.Starts s (.portAppeared (link.jackId x) (link.port x)))
    (ht : s.step (.portAppeared (link.jackId x) (link.port x)) = some t) (hready : link.Ready t) :
    (∃ events, t.log = s.log ++ events ∧ link.request ∈ events) ∨ link.Connected t.jack := by
  obtain ⟨-, c, hc, hcid, -⟩ := hok.1
  have hrost : ({ s with jack := s.jack.addPort (link.jackId x) (link.port x) } :
      JackSession).Rostered :=
    h.rostered.change (JackServer.roster_addPort _ _) rfl (h.rostered.synced.change _ _)
  have hu : link.Inv { s with jack := s.jack.addPort (link.jackId x) (link.port x) } :=
    h.change hrost (h.named.after hok) (stays_after hok hok.1.1) rfl
  have hname : (s.jack.clientName (link.jackId x)).getD [] = link.name x := by
    cases hfind : s.jack.graph.clients.find? (fun c => c.id = link.jackId x) with
    | none => exact absurd hcid (by simpa using List.find?_eq_none.mp hfind c hc)
    | some d =>
        have hn : s.jack.clientName (link.jackId x) = some d.name := by
          rw [JackServer.clientName, hfind]
          rfl
        rw [hn]
        exact (h.named.clients _ (mem_roster_of_clientName hn) x).mp rfl
  have hstep : t = onPortAppeared { s with
      jack := s.jack.addPort (link.jackId x) (link.port x) } (link.jackId x) (link.name x)
        (link.port x) := by
    rw [← Option.some.inj ht, hname]
  obtain ⟨requests, hrequests, -⟩ := onPortAppeared_frame
    { s with jack := s.jack.addPort (link.jackId x) (link.port x) } (link.jackId x)
      (link.name x) (link.port x)
  have hmgr : t.mgr = s.mgr := by
    rw [hstep, hrequests]
  have hbound : ∀ y, link.uuid y ≠ 0 → link.Bound s.mgr y :=
    fun y hy => hmgr ▸ (hready y).1 hy
  have hdone := @Inv.port_requests link
    { s with jack := s.jack.addPort (link.jackId x) (link.port x) } x hu hbound
  rcases hdone with hconnected | hsent
  · right
    rw [(step_server ht).1]
    exact hconnected
  · left
    rw [hstep]
    exact hsent

/-- Any other port that comes up is not the last event. -/
theorem Ready.portAppeared {id : Nat} {port : CStr} (h : link.Ready t)
    (hend : ¬ ∃ x, id = link.jackId x ∧ port = link.port x)
    (ht : s.step (.portAppeared id port) = some t) : link.Ready s := by
  have hjack := (step_server ht).1
  apply h.quiet
  · obtain ⟨requests, hrequests, -⟩ := onPortAppeared_frame
      { s with jack := s.jack.addPort id port } id ((s.jack.clientName id).getD []) port
    rw [JackSession.step, hrequests] at ht
    rw [← Option.some.inj ht]
    exact fun _ _ hb => hb
  · intro x hp
    rw [hjack] at hp
    exact hasPort_addPort hp (fun heq => hend ⟨x, heq.1, heq.2⟩)

/-- The last LASH end calls `Connect`, after its JACK client. -/
theorem Inv.connect_requests (h : link.Inv s) {pid : Int} {id : Uuid} {place : Nat}
    (hok : link.Starts s (.connect pid id place)) (ht : s.step (.connect pid id place) = some t)
    (hnot : ¬ link.Ready s) (hready : link.Ready t) :
    ∃ events, t.log = s.log ++ events ∧ link.request ∈ events := by
  have hjack : t.jack = s.jack := (step_server ht).1
  obtain ⟨hmgr, hsame, -⟩ := s.connected_frame pid id place
  rcases serverAddClient_cases ht with rfl | ⟨jc, hfind, hbind⟩
  · refine absurd (hready.fewer hjack ?_) hnot
    rw [hmgr]
  · obtain ⟨hv, hrun, hroster, -, hpair, hcopy⟩ := h.connect_binds hok hfind
    by_cases hend : ∃ x, link.IsAt x (s.connected pid id place).2.id
    · obtain ⟨x, hx⟩ := hend
      have hlog : (s.connected pid id place).1.log = s.log := by
        unfold connected
        split <;> rfl
      rw [← hlog]
      refine hv.bind_requests ?_ ?_ hx ((hpair x).mp hx) (hcopy x hx) ?_ (hready (!x)).1 hbind
      · dsimp only
        rw [hsame]
        exact hrun
      · dsimp only
        rw [hsame]
        exact hroster
      · dsimp only
        rw [hsame]
        exact hjack ▸ (hready x).2
    · refine absurd (hready.quiet ?_ fun x hport => hjack ▸ hport) hnot
      intro x hx hb
      exact hb.of_bind hbind rfl (fun hat => hend ⟨x, hat⟩) hx

/-- **The last event sends the request**: a step after which the LASH ends are bound and both ports
are there, and before which they were not. -/
theorem Inv.turn (h : link.Inv s) (hok : link.Starts s i) (ht : s.step i = some t)
    (hnot : ¬ link.Ready s) (hready : link.Ready t) :
    (∃ events, t.log = s.log ++ events ∧ link.request ∈ events) ∨ link.Connected t.jack := by
  have hjack := (step_server ht).1
  cases i with
  | clientAppeared id name pid => exact absurd (hready.clientAppeared hok ht) hnot
  | clientDisappeared id =>
      refine absurd (hready.quiet ?_ ?_) hnot
      · rw [onClientDisappeared_mgr ht]
        exact fun _ _ hb => hb
      · intro x hp
        rw [hjack] at hp
        exact hasPort_delClient hp
  | portAppeared id port =>
      by_cases hend : ∃ x, id = link.jackId x ∧ port = link.port x
      · obtain ⟨x, rfl, rfl⟩ := hend
        exact h.portAppeared_requests hok ht hready
      · exact absurd (hready.portAppeared hend ht) hnot
  | portDisappeared id port =>
      refine absurd (hready.quiet ?_ ?_) hnot
      · rw [← Option.some.inj ht]
        exact fun _ _ hb => hb
      · intro x hp
        rw [hjack] at hp
        exact hasPort_delPort hp
  | portsConnected p =>
      refine absurd (hready.quiet ?_ ?_) hnot
      · obtain ⟨clients, rfl, hsame, -⟩ := portsConnected_frame ht
        intro x hx hb
        apply hb.of_mem _ hx
        intro e he _
        exact hsame ▸ List.mem_map_of_mem he
      · intro x hp
        rw [hjack] at hp
        exact hp
  | portsDisconnected p =>
      refine absurd (hready.quiet ?_ ?_) hnot
      · rw [← Option.some.inj ht]
        exact fun _ _ hb => hb
      · intro x hp
        rw [hjack] at hp
        exact hp
  | serverStarted g pid =>
      obtain ⟨hstop, hversion, -⟩ := hok.1
      obtain ⟨u, hu, -, -, -, hclients, -⟩ :=
        @step_serverStarted s g pid (h.rostered.stopped hstop) hversion
      obtain rfl : u = t := Option.some.inj (hu.symm.trans ht)
      -- no entry, so the LASH end is not bound
      obtain ⟨x, hx⟩ := link.some_lash
      obtain ⟨e, he, -⟩ := (hready x).1 hx
      rw [hclients, h.stopped hstop] at he
      exact absurd he (by simp)
  | serverStopped => exact absurd hok.2 id
  | load clients =>
      refine absurd (hready.fewer hjack ?_) hnot
      rw [← Option.some.inj ht, (load_frame clients s).1]
  | launch addr pid =>
      refine absurd (hready.fewer hjack ?_) hnot
      rw [← Option.some.inj ht]
      exact .refl _
  | connect pid id place => exact Or.inl (h.connect_requests hok ht hnot hready)
  | lose addr place =>
      refine absurd (hready.fewer hjack ?_) hnot
      rw [JackSession.step] at ht
      split at ht
      · rw [Option.some.inj ht]
      · next lc _ =>
          rw [← Option.some.inj ht]
          exact (s.shrinks_takeBack lc).clients
  | save =>
      refine absurd (hready.fewer hjack ?_) hnot
      rw [← Option.some.inj ht, getGraph_clients]
  | clearLost addrs =>
      refine absurd (hready.fewer hjack ?_) hnot
      rw [← Option.some.inj ht]
  | writeInfo addrs =>
      refine absurd (hready.fewer hjack ?_) hnot
      rw [← Option.some.inj ht]
      exact (s.shrinks_writeInfo addrs).1.clients
  | unload addrs =>
      refine absurd (hready.fewer hjack ?_) hnot
      rw [← Option.some.inj ht]
      exact (s.shrinks_unload addrs).clients

theorem Inv.of_reach (h : Runs.Reach JackSession.step link.Starts initial s) : link.Inv s := by
  refine h.invariant initial_inv ?_
  intro t i u _ ht hok hs
  exact ht.step hok hs

theorem Ready.running (h : link.Ready s) (hinv : link.Inv s) : s.jack.running = true := by
  rw [← Bool.not_eq_false]
  intro hstop
  obtain ⟨x, hx⟩ := link.some_lash
  obtain ⟨e, he, -⟩ := (h x).1 hx
  rw [hinv.stopped hstop] at he
  exact absurd he (by simp)

theorem not_ready_initial : ¬ link.Ready initial := by
  intro h
  have hrun := h.running initial_inv
  exact absurd hrun (by simp [initial])

end SavedPatch

open SavedPatch in
/-- **A saved patch is asked for whatever the order of start-up**: in every state in which the
LASH ends are bound and both ports exist, the request has been sent since the last of this became
true, or the ports are connected. -/
theorem patch_requested (link : SavedPatch) :
    (∀ s, Runs.Reach step link.Starts initial s → link.Ready s →
      ∃ t, Runs.Since step link.Starts initial link.Ready t s) ∧
    ∀ t s, Runs.Since step link.Starts initial link.Ready t s →
      (∃ events, s.log = t.log ++ events ∧ link.request ∈ events) ∨ link.Connected s.jack := by
  constructor
  · intro s hs hready
    exact hs.since not_ready_initial hready
  · intro t s h
    refine h.invariant
      (Q := fun t s => (∃ events, s.log = t.log ++ events ∧ link.request ∈ events) ∨
      link.Connected s.jack) ?_ ?_
    · intro t i u ht hnot hok hs hready
      exact (Inv.of_reach ht).turn hok hs hnot hready
    · intro t u i v hu hready hq hok hs _
      obtain ⟨hjack, more, hmore⟩ := step_server hs
      rcases hq with ⟨events, hlog, hmem⟩ | hconnected
      · refine Or.inl ⟨events ++ more, ?_, List.mem_append_left _ hmem⟩
        rw [hmore, hlog, List.append_assoc]
      · right
        rw [hjack]
        exact (stays_after hok (hready.running (Inv.of_reach hu))).connected hconnected

/-- A keyboard and a synthesizer, both LASH clients. -/
def keysToSynthDbus : SavedPatch where
  uuid x := if x then 6 else 5
  jackId x := if x then 2 else 1
  name x := if x then cstr "synth" else cstr "keys"
  port x := if x then cstr "in" else cstr "out"
  some_lash := ⟨true, by decide⟩
  uuids_ne := by decide
  jackIds_ne := by decide
  names_ne := by decide

/-- A synthesizer that is a LASH client, and the loudspeakers. -/
def synthToSystem : SavedPatch where
  uuid x := if x then 0 else 5
  jackId x := if x then 1 else 2
  name x := if x then cstr "system" else cstr "synth"
  port x := if x then cstr "playback" else cstr "out"
  some_lash := ⟨false, by decide⟩
  uuids_ne := by decide
  jackIds_ne := by decide
  names_ne := by decide

/-- The synthesizer is bound last, by its `Connect` call; and the loudspeakers come up last. -/
theorem patch_requested_keys :
    (∃ t s, Runs.Since step keysToSynthDbus.Starts initial keysToSynthDbus.Ready t s ∧
      ((∃ events, s.log = t.log ++ events ∧ keysToSynthDbus.request ∈ events) ∨
        keysToSynthDbus.Connected s.jack)) ∧
    ∃ t s, Runs.Since step synthToSystem.Starts initial synthToSystem.Ready t s ∧
      ((∃ events, s.log = t.log ++ events ∧ synthToSystem.request ∈ events) ∨
        synthToSystem.Connected s.jack) := by
  constructor
  · have hrun : (Runs.exec step keysToSynthDbus.Starts initial
        [.serverStarted { version := 1, clients := [], patches := [] } (fun _ => 0),
          .load [(5, [jackPatchNewWithAll (some 5) (some 6) [] [] (cstr "out") (cstr "in")]),
            (6, [jackPatchNewWithAll (some 5) (some 6) [] [] (cstr "out") (cstr "in")])],
          .launch 0 70, .clientAppeared 2 (cstr "synth") 80, .portAppeared 2 (cstr "in"),
          .launch 1 80, .clientAppeared 1 (cstr "keys") 70, .connect 70 7 0,
          .portAppeared 1 (cstr "out"), .connect 80 8 0]).any keysToSynthDbus.Ready = true := by
      decide +kernel
    obtain ⟨s, hs, hready⟩ := Runs.Reach.exists_of_exec hrun
    obtain ⟨t, ht⟩ := (patch_requested keysToSynthDbus).1 s hs (of_decide_eq_true hready)
    exact ⟨t, s, ht, (patch_requested keysToSynthDbus).2 t s ht⟩
  · have hrun : (Runs.exec step synthToSystem.Starts initial
        [.serverStarted { version := 1, clients := [], patches := [] } (fun _ => 0),
          .load [(5, [jackPatchNewWithAll (some 5) none [] (cstr "system") (cstr "out")
            (cstr "playback")])],
          .launch 0 70, .clientAppeared 2 (cstr "synth") 70, .portAppeared 2 (cstr "out"),
          .clientAppeared 1 (cstr "system") 0, .portAppeared 1 (cstr "playback"),
          .connect 70 7 0]).any synthToSystem.Ready = true := by
      decide +kernel
    obtain ⟨s, hs, hready⟩ := Runs.Reach.exists_of_exec hrun
    obtain ⟨t, ht⟩ := (patch_requested synthToSystem).1 s hs (of_decide_eq_true hready)
    exact ⟨t, s, ht, (patch_requested synthToSystem).2 t s ht⟩

end Lash
