import Lash.Alsa.Manager
import Lash.Lib.Link

/-!
# Patches and the order of start-up, ALSA

Two clients that were connected when their project was saved each have the patch among their old
patches (`AlsaPair.IsCopy`). Whatever else happens in the sequencer and to other clients, one of
them should bring the patch back: the two are the ends of a `Link`.

`alsa_mgr_new_client_port` drops the copy of a client when the other one has not registered,
whichever port it is called for. As long as that happens only when the port of the patch exists,
the patch comes back (`patch_restored`).
-/

namespace Lash

open First

/-- A saved patch between two clients: their ids, their ALSA ids and its ports; `false` is the
source. -/
structure AlsaPair where
  id : Bool → Uuid
  client : Bool → UInt8
  port : Bool → UInt8
  ids_ne : id false ≠ id true
  nonzero : ∀ x, id x ≠ 0
  clients_ne : client false ≠ client true

namespace AlsaPair

variable (pair : AlsaPair)

def addr (x : Bool) : AlsaAddr := ⟨pair.client x, pair.port x⟩

/-- The patch, as it was saved. -/
structure IsCopy (patch : AlsaPatch) : Prop where
  srcId : patch.srcId = pair.id false
  destId : patch.destId = pair.id true
  srcPort : patch.sender.port = pair.port false
  destPort : patch.dest.port = pair.port true

instance (patch : AlsaPatch) : Decidable (pair.IsCopy patch) :=
  decidable_of_iff (patch.srcId = pair.id false ∧ patch.destId = pair.id true ∧
      patch.sender.port = pair.port false ∧ patch.dest.port = pair.port true)
    ⟨fun ⟨h₁, h₂, h₃, h₄⟩ => ⟨h₁, h₂, h₃, h₄⟩, fun ⟨h₁, h₂, h₃, h₄⟩ => ⟨h₁, h₂, h₃, h₄⟩⟩

/-- The client at an end has been added to the manager. -/
def Registered (s : AlsaSystem) (x : Bool) : Prop := ∃ e ∈ s.mgr.clients, e.id = pair.id x

instance (s : AlsaSystem) (x : Bool) : Decidable (pair.Registered s x) :=
  inferInstanceAs (Decidable (∃ e ∈ s.mgr.clients, _))

/-- The link in the eyes of the manager. -/
def view (s : AlsaSystem) : Link where
  registered := pair.Registered s
  copy x := ∃ e, alsaMgrGetClient s.mgr.clients (pair.id x) = some e ∧
    ∃ patch ∈ e.oldPatches, pair.IsCopy patch
  there x := pair.addr x ∈ s.seq.ports
  heard x := pair.addr x ∈ s.announced
  made := (pair.addr false, pair.addr true) ∈ s.resumed

/-- What the two clients do: each registers once, with its copy of the patch, and keeps its port; no
other client has one of their ids. Ports are announced that exist. -/
def Meets (s : AlsaSystem) : AlsaInput → Prop
  | .deletePort addr => ∀ x, addr ≠ pair.addr x
  | .portStart addr _ => addr ∈ s.seq.ports
  | .portExit addr _ => ∀ x, addr ≠ pair.addr x
  | .addClient id clientId patches =>
    (∀ x, id = pair.id x ↔ clientId = pair.client x) ∧
      ∀ x, id = pair.id x → ¬ pair.Registered s x ∧ ∃ patch ∈ patches, pair.IsCopy patch
  | .removeClient id => ∀ x, id ≠ pair.id x
  | _ => True

/-- When a port of one of them is handled while the other one has not registered, the port of the
patch exists. -/
def KeepsCopy (s : AlsaSystem) : AlsaInput → Prop
  | .portStart addr _ => ∀ x, addr.client = pair.client x → pair.Registered s x →
    ¬ pair.Registered s (!x) → pair.addr x ∈ s.seq.ports
  | .addClient id _ _ => ∀ x, id = pair.id x → ¬ pair.Registered s (!x) →
    (∃ fport ∈ s.mgr.foreignPorts, fport.client = pair.client x) → pair.addr x ∈ s.seq.ports
  | _ => True

instance (s : AlsaSystem) (i : AlsaInput) : Decidable (pair.Meets s i) := by
  rcases i <;> unfold Meets <;> infer_instance

instance (s : AlsaSystem) (i : AlsaInput) : Decidable (pair.KeepsCopy s i) := by
  rcases i <;> unfold KeepsCopy <;> infer_instance

variable {pair} {s t : AlsaSystem} {i : AlsaInput} {x y : Bool}

theorem id_inj (h : pair.id x = pair.id y) : x = y := by
  have hne := pair.ids_ne
  cases x <;> cases y <;> grind

end AlsaPair

/-! ## What resuming does for the pair -/

namespace AlsaPair

variable {pair : AlsaPair} {s t : AlsaSystem} {i : AlsaInput} {x : Bool} {client : AlsaClient}
  {port : UInt8} {patch : AlsaPatch} {patches : List AlsaPatch}

/-- The ids of the pair and its ALSA ids are with the same entries. -/
def Entries (pair : AlsaPair) (clients : List AlsaClient) : Prop :=
  ∀ e ∈ clients, ∀ x, e.id = pair.id x ↔ e.clientId = pair.client x

theorem entries_of_keys {l l' : List AlsaClient} (h : pair.Entries l)
    (hkeys : l'.map AlsaClient.key = l.map AlsaClient.key) : pair.Entries l' := by
  intro e he x
  obtain ⟨d, hd, hkey⟩ := List.mem_map.mp (hkeys ▸ List.mem_map_of_mem he)
  obtain ⟨hid, hclient⟩ := Prod.mk.inj hkey
  rw [← hid, ← hclient]
  exact h d hd x

theorem registered_of_keys (hkeys : t.mgr.clients.map AlsaClient.key
    = s.mgr.clients.map AlsaClient.key) : pair.Registered t x ↔ pair.Registered s x := by
  have hview : ∀ u : AlsaSystem, pair.Registered u x
      ↔ pair.id x ∈ (u.mgr.clients.map AlsaClient.key).map Prod.fst := by
    intro u
    rw [List.map_map, List.mem_map]
    rfl
  rw [hview, hview, hkeys]

theorem getClient_of_registered (h : pair.Registered s x) :
    ∃ e, alsaMgrGetClient s.mgr.clients (pair.id x) = some e ∧ e ∈ s.mgr.clients ∧
      e.id = pair.id x := by
  obtain ⟨e, he, hid⟩ := h
  cases hfind : alsaMgrGetClient s.mgr.clients (pair.id x) with
  | none => exact absurd hid (by simpa using List.find?_eq_none.mp hfind e he)
  | some d => exact ⟨d, rfl, List.mem_of_find?_eq_some hfind, by simpa using List.find?_some hfind⟩

/-- Between two registered clients the patch is unset to its ports. -/
theorem unset_copy (hcopy : pair.IsCopy patch) (hentries : pair.Entries s.mgr.clients)
    (hregistered : ∀ x, pair.Registered s x) :
    alsaPatchUnset s.mgr.clients patch
      = some { patch with sender := pair.addr false, dest := pair.addr true } := by
  obtain ⟨e, he, hmem, hid⟩ := getClient_of_registered (hregistered false)
  obtain ⟨d, hd, hmem', hid'⟩ := getClient_of_registered (hregistered true)
  have hclient := (hentries e hmem false).mp hid
  have hclient' := (hentries d hmem' true).mp hid'
  rw [alsaPatchUnset, alsaPatchUnsetClientId, alsaPatchUnsetClientId, hcopy.srcId, hcopy.destId,
    if_neg (pair.nonzero false), if_neg (pair.nonzero true), he, hd]
  simp only [Option.map_some, hclient, hclient', hcopy.srcPort, hcopy.destPort, addr]

/-- A copy that can be unset is kept or makes the link, and it makes the link if the client hears of
its port and both ports exist. -/
theorem resumePatches_copy (client : AlsaClient) (port : UInt8) (hpatch : patch ∈ patches)
    (hunset : alsaPatchUnset s.mgr.clients patch
      = some { patch with sender := pair.addr false, dest := pair.addr true }) :
    (patch ∈ (AlsaSystem.resumePatches client port s patches).2 ∧
        ¬ ((∃ x, client.clientId = pair.client x ∧ port = pair.port x) ∧
          ∀ x, pair.addr x ∈ s.seq.ports)) ∨
      (pair.addr false, pair.addr true)
        ∈ (AlsaSystem.resumePatches client port s patches).1.resumed := by
  induction patches generalizing s with
  | nil => exact absurd hpatch (by simp)
  | cons first rest ih =>
      -- what the rest of the loop does to a copy behind the first patch
      have hrest : ∀ t : AlsaSystem, t.mgr = s.mgr → t.seq.ports = s.seq.ports → patch ∈ rest →
          (patch ∈ (AlsaSystem.resumePatches client port t rest).2 ∧
            ¬ ((∃ x, client.clientId = pair.client x ∧ port = pair.port x) ∧
              ∀ x, pair.addr x ∈ s.seq.ports)) ∨
          (pair.addr false, pair.addr true)
            ∈ (AlsaSystem.resumePatches client port t rest).1.resumed := by
        intro t hmgr hports hmem
        rw [← hports]
        exact ih hmem (by rw [hmgr]; exact hunset)
      rw [AlsaSystem.resumePatches]
      rcases List.mem_cons.mp hpatch with rfl | hmem
      · rw [hunset]
        dsimp only
        by_cases hhit : ∃ x, client.clientId = pair.client x ∧ port = pair.port x
        · have hhit' :
              (client.clientId = (pair.addr false).client ∧ port = (pair.addr false).port) ∨
              (client.clientId = (pair.addr true).client ∧ port = (pair.addr true).port) := by
            obtain ⟨x, hx⟩ := hhit
            cases x with
            | false => exact Or.inl hx
            | true => exact Or.inr hx
          rw [if_pos hhit', AlsaSystem.resumePatch]
          dsimp only
          split
          · next hthere =>
              right
              rw [if_pos rfl]
              apply (AlsaSystem.resumePatches_frame _ client port rest).1.resumed
              simp
          · next hthere =>
              left
              refine ⟨List.mem_cons_self, fun hall => hthere ⟨hall.2 false, hall.2 true⟩⟩
        · rw [if_neg]
          · exact Or.inl ⟨List.mem_cons_self, fun hx => hhit hx.1⟩
          · rintro (hx | hx)
            · exact hhit ⟨false, hx⟩
            · exact hhit ⟨true, hx⟩
      · split
        · exact hrest s rfl rfl hmem
        · next unset _ =>
            split_ifs
            · obtain ⟨hvisits, hmgr⟩ := s.resumePatch_frame unset
              have h := hrest (s.resumePatch unset).1 hmgr hvisits.ports hmem
              dsimp only
              split
              · exact h
              · exact h.imp_left (fun hk => ⟨List.mem_cons_of_mem _ hk.1, hk.2⟩)
            · exact (hrest s rfl rfl hmem).imp_left (fun hk => ⟨List.mem_cons_of_mem _ hk.1, hk.2⟩)

/-- `alsa_mgr_new_client_port`, when both clients have registered, for one of their ports or for one
of another client: no copy is lost before the link is made. -/
theorem newClientPort_keeps (id : Uuid) (port : UInt8) (hentries : pair.Entries s.mgr.clients)
    (hregistered : ∀ x, pair.Registered s x) (hcopy : (pair.view s).copy x) :
    (pair.view (s.newClientPort id port)).copy x ∨ (pair.view (s.newClientPort id port)).made := by
  obtain ⟨hvisits, hother⟩ := s.newClientPort_frame id port
  obtain ⟨e, he, patch, hpatch, hpatchCopy⟩ := hcopy
  by_cases hid : pair.id x = id
  · subst hid
    obtain ⟨hget, hresumed⟩ := AlsaSystem.getClient_newClientPort port he
    rcases resumePatches_copy e port hpatch
      (unset_copy hpatchCopy hentries hregistered) with ⟨hkept, -⟩ | hmade
    · exact Or.inl ⟨_, hget, patch, hkept, hpatchCopy⟩
    · right
      show _ ∈ (s.newClientPort (pair.id x) port).resumed
      rw [hresumed]
      exact hmade
  · left
    exact ⟨e, (hother _ hid).trans he, patch, hpatch, hpatchCopy⟩

/-- When it is called for the port of the patch, and both ports exist, the link is made. -/
theorem newClientPort_tries (hentries : pair.Entries s.mgr.clients)
    (hregistered : ∀ x, pair.Registered s x) (hcopy : (pair.view s).copy x)
    (hthere : ∀ x, pair.addr x ∈ s.seq.ports) :
    (pair.view (s.newClientPort (pair.id x) (pair.port x))).made := by
  obtain ⟨e, he, patch, hpatch, hpatchCopy⟩ := hcopy
  obtain ⟨-, hresumed⟩ := AlsaSystem.getClient_newClientPort (pair.port x) he
  have hid : e.id = pair.id x := by simpa using List.find?_some he
  have hclient := (hentries e (List.mem_of_find?_eq_some he) x).mp hid
  rcases resumePatches_copy e (pair.port x) hpatch
    (unset_copy hpatchCopy hentries hregistered) with ⟨-, hnot⟩ | hmade
  · exact absurd ⟨⟨x, hclient, rfl⟩, hthere⟩ hnot
  · show _ ∈ (s.newClientPort (pair.id x) (pair.port x)).resumed
    rw [hresumed]
    exact hmade

/-- A run over some foreign ports of a client is like each of its steps. -/
theorem foldl_newClientPort (hentries : pair.Entries s.mgr.clients) (id : Uuid)
    (fports : List AlsaAddr) :
    let t := fports.foldl (fun t fport => t.newClientPort id fport.port) s
    s.Visits t ∧ (∀ id', id' ≠ id →
      alsaMgrGetClient t.mgr.clients id' = alsaMgrGetClient s.mgr.clients id') ∧
      ((∀ y, pair.Registered s y) → ∀ y, (pair.view s).copy y →
        (pair.view t).copy y ∨ (pair.view t).made) ∧
      ((∀ y, pair.Registered s y) → (∀ y, pair.addr y ∈ s.seq.ports) → ∀ x, id = pair.id x →
        (∃ fport ∈ fports, fport.port = pair.port x) → (pair.view s).copy x →
        (pair.view t).made) := by
  induction fports generalizing s with
  | nil =>
      refine ⟨.refl s, fun _ _ => rfl, fun _ y hy => Or.inl hy, ?_⟩
      rintro - - x - ⟨fport, hmem, -⟩
      exact absurd hmem (by simp)
  | cons first rest ih =>
      obtain ⟨hvisits, hother⟩ := s.newClientPort_frame id first.port
      have hentries' := entries_of_keys hentries hvisits.keys
      have hregistered' : (∀ y, pair.Registered s y) →
          ∀ y, pair.Registered (s.newClientPort id first.port) y :=
        fun h y => (registered_of_keys hvisits.keys).mpr (h y)
      obtain ⟨hvisits', hother', hkeeps, htries⟩ := ih hentries'
      refine ⟨hvisits.trans hvisits', fun id' hne => (hother' id' hne).trans (hother id' hne), ?_,
        ?_⟩
      · intro hregistered y hy
        rcases newClientPort_keeps id first.port hentries hregistered hy with hc | hm
        · exact hkeeps (hregistered' hregistered) y hc
        · exact Or.inr (hvisits'.resumed _ hm)
      · rintro hregistered hthere x rfl ⟨fport, hmem, hport⟩ hcopy
        rcases List.mem_cons.mp hmem with rfl | hmem
        · have hmade := newClientPort_tries hentries hregistered hcopy hthere
          rw [← hport] at hmade
          exact hvisits'.resumed _ hmade
        · rcases newClientPort_keeps (pair.id x) first.port hentries hregistered hcopy
            with hc | hm
          · refine htries (hregistered' hregistered) ?_ x rfl ⟨fport, hmem, hport⟩ hc
            rw [hvisits.ports]
            exact hthere
          · exact hvisits'.resumed _ hm

/-! ## One step -/

/-- What carries the link from step to step. -/
structure Fits (pair : AlsaPair) (s : AlsaSystem) : Prop where
  entries : pair.Entries s.mgr.clients
  parked : ∀ x, pair.addr x ∈ s.announced →
    pair.Registered s x ∨ pair.addr x ∈ s.mgr.foreignPorts
  there : ∀ x, pair.addr x ∈ s.announced → pair.addr x ∈ s.seq.ports
  link : (pair.view s).Inv

/-- A step in which nobody of the pair comes, no copy is lost, and no registered one hears of its
port. -/
theorem Fits.quiet (h : pair.Fits s) (hentries : pair.Entries t.mgr.clients)
    (hregistered : ∀ x, pair.Registered t x ↔ pair.Registered s x)
    (hcopy : ∀ x, (pair.view s).copy x → (pair.view t).copy x)
    (hheard : ∀ x, pair.Registered t x → pair.addr x ∈ t.announced → pair.addr x ∈ s.announced)
    (hports : ∀ x, pair.addr x ∈ t.announced → pair.addr x ∈ t.seq.ports)
    (hresumed : ∀ sub ∈ s.resumed, sub ∈ t.resumed)
    (hthere : ∀ x, pair.addr x ∈ s.seq.ports → pair.addr x ∈ t.seq.ports)
    (hparked : ∀ x, pair.addr x ∈ t.announced → ¬ pair.Registered s x →
      pair.addr x ∈ t.mgr.foreignPorts) : pair.Fits t where
  entries := hentries
  parked x hx := by
    by_cases hreg : pair.Registered s x
    · exact Or.inl ((hregistered x).mpr hreg)
    · exact Or.inr (hparked x hx hreg)
  there := hports
  link := Link.Step.inv (v := pair.view s)
    (Link.Step.quiet hregistered hcopy hheard hports (hresumed _) hthere) h.link

theorem Fits.not_parked (h : pair.Fits s) (hx : pair.addr x ∈ s.announced)
    (hreg : ¬ pair.Registered s x) : pair.addr x ∈ s.mgr.foreignPorts :=
  (h.parked x hx).resolve_left hreg

/-- A change of what is known of the current patches changes nothing for the old ones. -/
theorem Fits.map (h : pair.Fits s) {f : AlsaClient → AlsaClient}
    (hf : ∀ c, (f c).id = c.id ∧ (f c).clientId = c.clientId ∧ (f c).oldPatches = c.oldPatches)
    (hclients : t.mgr.clients = s.mgr.clients.map f)
    (hforeign : t.mgr.foreignPorts = s.mgr.foreignPorts) (hseq : t.seq = s.seq)
    (hannounced : t.announced = s.announced) (hresumed : t.resumed = s.resumed) : pair.Fits t := by
  have hkeys : t.mgr.clients.map AlsaClient.key = s.mgr.clients.map AlsaClient.key := by
    rw [hclients, List.map_map]
    apply List.map_congr_left
    intro c _
    exact Prod.ext (hf c).1 (hf c).2.1
  have hget : ∀ id, alsaMgrGetClient t.mgr.clients id
      = (alsaMgrGetClient s.mgr.clients id).map f := by
    intro id
    have hcomp : (fun c : AlsaClient => decide (c.id = id)) ∘ f = fun c => decide (c.id = id) := by
      funext c
      rw [Function.comp_apply, (hf c).1]
    rw [hclients, alsaMgrGetClient, List.find?_map, hcomp, alsaMgrGetClient]
  apply h.quiet (entries_of_keys h.entries hkeys) (fun x => registered_of_keys hkeys)
  · rintro x ⟨e, he, hpatch⟩
    refine ⟨f e, ?_, ?_⟩
    · rw [hget, he, Option.map_some]
    · rw [(hf e).2.2]
      exact hpatch
  · intro x _ hx
    rwa [hannounced] at hx
  · intro x hx
    rw [hannounced] at hx
    rw [hseq]
    exact h.there x hx
  · rw [hresumed]
    exact fun _ hsub => hsub
  · rw [hseq]
    exact fun _ hx => hx
  · intro x hx hreg
    rw [hannounced] at hx
    rw [hforeign]
    exact h.not_parked hx hreg

theorem Fits.backupPatches (h : pair.Fits s) (due : Bool) : pair.Fits (s.backupPatches due) := by
  unfold AlsaSystem.backupPatches
  split
  · exact h.map (f := fun c => { c with
      backupPatches := c.patches.map (alsaPatchSet s.mgr.clients) }) (fun _ => ⟨rfl, rfl, rfl⟩)
      rfl rfl rfl rfl rfl
  · exact h

/-- The sequencer changes and keeps the ports of the pair, and the manager forgets other ports. -/
theorem Fits.change (h : pair.Fits s) (hclients : t.mgr.clients = s.mgr.clients)
    (hannounced : t.announced = s.announced) (hresumed : t.resumed = s.resumed)
    (hports : ∀ x, pair.addr x ∈ s.seq.ports → pair.addr x ∈ t.seq.ports)
    (hforeign : ∀ x, pair.addr x ∈ s.mgr.foreignPorts → pair.addr x ∈ t.mgr.foreignPorts) :
    pair.Fits t := by
  apply h.quiet (hclients ▸ h.entries) (fun x => registered_of_keys (by rw [hclients]))
  · rintro x ⟨e, he, hpatch⟩
    exact ⟨e, hclients ▸ he, hpatch⟩
  · intro x _ hx
    rwa [hannounced] at hx
  · intro x hx
    rw [hannounced] at hx
    exact hports x (h.there x hx)
  · rw [hresumed]
    exact fun _ hsub => hsub
  · exact hports
  · intro x hx hreg
    rw [hannounced] at hx
    exact hforeign x (h.not_parked hx hreg)

/-! ### A port comes up -/

section port

variable {addr : AlsaAddr} {c : AlsaClient} {u : AlsaSystem}

theorem Fits.there_append (h : pair.Fits s) (hthere : addr ∈ s.seq.ports)
    (hx : pair.addr x ∈ s.announced ++ [addr]) : pair.addr x ∈ s.seq.ports := by
  rcases List.mem_append.mp hx with hx | hx
  · exact h.there x hx
  · rwa [List.mem_singleton.mp hx]

theorem eq_addr_of_append (hx : pair.addr x ∈ s.announced ++ [addr])
    (hnot : pair.addr x ∉ s.announced) : addr = pair.addr x :=
  (List.mem_singleton.mp ((List.mem_append.mp hx).resolve_left hnot)).symm

/-- A port of the pair that is new is one of the client that was found. -/
theorem Fits.client_of_port (h : pair.Fits s)
    (hc : s.mgr.clients.find? (fun c => c.clientId = addr.client) = some c)
    (hx : pair.addr x ∈ s.announced ++ [addr]) (hnot : pair.addr x ∉ s.announced) :
    c.id = pair.id x := by
  have hclient : c.clientId = addr.client := by simpa using List.find?_some hc
  apply (h.entries c (List.mem_of_find?_eq_some hc) x).mpr
  rw [hclient, eq_addr_of_append hx hnot]
  rfl

/-- The port of a registered client comes up: its copy is kept as long as the other client is
missing, and the link is made when this is the port of the patch and nothing is missing. -/
theorem Fits.step_newClientPort (h : pair.Fits s)
    (hu : u = { s with announced := s.announced ++ [addr] }) (hthere : addr ∈ s.seq.ports)
    (hkeeps : ∀ x, addr.client = pair.client x → pair.Registered s x →
      ¬ pair.Registered s (!x) → pair.addr x ∈ s.seq.ports)
    (hc : s.mgr.clients.find? (fun c => c.clientId = addr.client) = some c) :
    Link.Step (pair.view s) (pair.view (u.newClientPort c.id addr.port)) := by
  have hmem := List.mem_of_find?_eq_some hc
  have hclient : c.clientId = addr.client := by simpa using List.find?_some hc
  have huclients : u.mgr.clients = s.mgr.clients := by rw [hu]
  have huports : u.seq.ports = s.seq.ports := by rw [hu]
  have huresumed : u.resumed = s.resumed := by rw [hu]
  have huannounced : u.announced = s.announced ++ [addr] := by rw [hu]
  have huentries : pair.Entries u.mgr.clients := huclients ▸ h.entries
  have hureg : ∀ x, pair.Registered u x ↔ pair.Registered s x :=
    fun x => registered_of_keys (by rw [huclients])
  have hucopy : ∀ x, (pair.view s).copy x → (pair.view u).copy x := by
    rintro x ⟨e, he, hpatch⟩
    exact ⟨e, huclients ▸ he, hpatch⟩
  obtain ⟨hvisits, hother⟩ := u.newClientPort_frame c.id addr.port
  have hreg : ∀ x, pair.Registered (u.newClientPort c.id addr.port) x ↔ pair.Registered s x :=
    fun x => (registered_of_keys hvisits.keys).trans (hureg x)
  have hheard : (u.newClientPort c.id addr.port).announced = s.announced ++ [addr] :=
    hvisits.announced.trans huannounced
  have hseq : (u.newClientPort c.id addr.port).seq.ports = s.seq.ports :=
    hvisits.ports.trans huports
  constructor
  · exact fun x hx => (hreg x).mpr hx
  · intro x hx
    show pair.addr x ∈ (u.newClientPort c.id addr.port).seq.ports
    rw [hseq]
    exact h.there_append hthere (hheard ▸ hx)
  · intro hm
    apply hvisits.resumed
    rw [huresumed]
    exact hm
  · intro x hx
    show pair.addr x ∈ (u.newClientPort c.id addr.port).seq.ports
    rw [hseq]
    exact hx
  · exact fun x hx _ => Or.inl ((hreg x).mp hx)
  · intro x hx hcopy
    have hx := (hreg x).mp hx
    by_cases hy : pair.Registered s (!x)
    · have hboth : ∀ z, pair.Registered u z :=
        fun z => (hureg z).mpr (Link.forall_of_ends x hx hy z)
      rcases newClientPort_keeps c.id addr.port huentries hboth (hucopy x (hcopy hx)) with hc | hm
      · exact Or.inl hc
      · exact Or.inr (Or.inl hm)
    · by_cases hcx : pair.id x = c.id
      · refine Or.inr (Or.inr ⟨hy, ?_⟩)
        show pair.addr x ∈ (u.newClientPort c.id addr.port).seq.ports
        rw [hseq]
        refine hkeeps x ?_ hx hy
        rw [← hclient]
        exact (h.entries c hmem x).mp hcx.symm
      · obtain ⟨e, he, hpatch⟩ := hucopy x (hcopy hx)
        exact Or.inl ⟨e, (hother _ hcx).trans he, hpatch⟩
  · intro x hx hy hhx hfirst hcopy hty
    have hx := (hreg x).mp hx
    have hy := (hreg (!x)).mp hy
    have hhx : pair.addr x ∈ s.announced ++ [addr] := hheard ▸ hhx
    have hnew : pair.addr x ∉ s.announced := fun hold => hfirst ⟨hx, hold⟩
    have hport : addr.port = pair.port x := by
      rw [eq_addr_of_append hhx hnew]
      rfl
    have hboth : ∀ z, pair.Registered u z :=
      fun z => (hureg z).mpr (Link.forall_of_ends x hx hy z)
    rw [h.client_of_port hc hhx hnew, hport]
    apply newClientPort_tries huentries hboth (hucopy x (hcopy hx))
    rw [huports]
    refine Link.forall_of_ends x (h.there_append hthere hhx) ?_
    rw [← hseq]
    exact hty

/-- The port of a client that has not registered is kept as a foreign one. -/
theorem Fits.foreignPort (h : pair.Fits s) (hthere : addr ∈ s.seq.ports)
    (hc : s.mgr.clients.find? (fun c => c.clientId = addr.client) = none) :
    pair.Fits { s with
      announced := s.announced ++ [addr]
      mgr := { s.mgr with foreignPorts := s.mgr.foreignPorts ++ [addr] } } := by
  have hnobody : ∀ x, addr = pair.addr x → ¬ pair.Registered s x := by
    rintro x rfl ⟨e, he, hid⟩
    have hclient := (h.entries e he x).mp hid
    exact List.find?_eq_none.mp hc e he (decide_eq_true hclient)
  refine h.quiet h.entries (fun _ => Iff.rfl) (fun _ hx => hx) ?_
    (fun _ hx => h.there_append hthere hx) (fun _ hsub => hsub) (fun _ hx => hx) ?_
  · intro x hx hhx
    apply Classical.byContradiction
    intro hnot
    exact hnobody x (eq_addr_of_append hhx hnot) hx
  · intro x hx hreg
    by_cases hold : pair.addr x ∈ s.announced
    · exact List.mem_append_left _ (h.not_parked hold hreg)
    · rw [eq_addr_of_append hx hold]
      exact List.mem_append_right _ List.mem_cons_self

/-- `alsa_mgr_new_port` -/
theorem Fits.newPort (h : pair.Fits s) (hthere : addr ∈ s.seq.ports)
    (hkeeps : ∀ x, addr.client = pair.client x → pair.Registered s x →
      ¬ pair.Registered s (!x) → pair.addr x ∈ s.seq.ports) :
    pair.Fits ({ s with announced := s.announced ++ [addr] }.newPort addr) := by
  unfold AlsaSystem.newPort
  dsimp only
  split
  · next c hc =>
      have hmem := List.mem_of_find?_eq_some hc
      have hlink := (h.step_newClientPort rfl hthere hkeeps hc).inv h.link
      obtain ⟨hvisits, -⟩ :=
        AlsaSystem.newClientPort_frame { s with announced := s.announced ++ [addr] } c.id addr.port
      have hheard := hvisits.announced
      dsimp only at hheard
      refine ⟨entries_of_keys h.entries hvisits.keys, fun x hx => ?_, fun x hx => ?_, hlink⟩
      · rw [hheard] at hx
        by_cases hold : pair.addr x ∈ s.announced
        · rw [hvisits.foreign]
          exact (h.parked x hold).imp_left (registered_of_keys hvisits.keys).mpr
        · exact Or.inl ((registered_of_keys hvisits.keys).mpr
            ⟨c, hmem, h.client_of_port hc hx hold⟩)
      · rw [hheard] at hx
        rw [hvisits.ports]
        exact h.there_append hthere hx
  · next hc => exact h.foreignPort hthere hc

end port

/-! ### A client registers -/

section client

variable {clients : List AlsaClient} {id : Uuid} {clientId : UInt8} {e : AlsaClient}
  {u : AlsaSystem}

theorem Entries.concat (h : pair.Entries clients)
    (hids : ∀ x, id = pair.id x ↔ clientId = pair.client x) :
    pair.Entries (clients ++ [alsaClientNew id clientId patches]) := by
  intro d hd x
  rcases List.mem_append.mp hd with hd | hd
  · exact h d hd x
  · rw [List.mem_singleton.mp hd]
    exact hids x

theorem id_mem_concat {y : Uuid} :
    (∃ d ∈ clients ++ [alsaClientNew id clientId patches], d.id = y) ↔
      (∃ d ∈ clients, d.id = y) ∨ id = y := by
  simp only [List.mem_append, List.mem_singleton, or_and_right, exists_or, exists_eq_left]
  rfl

/-- A client that was registered keeps its entry. -/
theorem getClient_concat {d : AlsaClient} {y : Uuid} (h : alsaMgrGetClient clients y = some d) :
    alsaMgrGetClient (clients ++ [alsaClientNew id clientId patches]) y = some d := by
  rw [alsaMgrGetClient, List.find?_append, ← alsaMgrGetClient, h]
  rfl

/-- The entry of a client that was not registered is the new one. -/
theorem getClient_concat_new (hnot : ¬ ∃ d ∈ clients, d.id = id) :
    alsaMgrGetClient (clients ++ [alsaClientNew id clientId patches]) id =
      some (alsaClientNew id clientId patches) := by
  have hnone : clients.find? (fun c => c.id = id) = none := by
    rw [List.find?_eq_none]
    intro d hd hdid
    exact hnot ⟨d, hd, of_decide_eq_true hdid⟩
  rw [alsaMgrGetClient, List.find?_append, hnone, Option.none_or,
    List.find?_cons_of_pos (by simp [alsaClientNew])]

/-- Of a client of the pair that is registered now there is a copy. -/
theorem copy_of_added (hu : u = { s with mgr := { s.mgr with
      clients := s.mgr.clients ++ [alsaClientNew id clientId patches] } })
    (hfirst : ∀ x, id = pair.id x →
      ¬ pair.Registered s x ∧ ∃ patch ∈ patches, pair.IsCopy patch)
    (hreg : pair.Registered s x ∨ id = pair.id x)
    (hcopy : pair.Registered s x → (pair.view s).copy x) : (pair.view u).copy x := by
  rw [hu]
  rcases hreg with hx | hid
  · obtain ⟨d, hd, hpatch⟩ := hcopy hx
    exact ⟨d, getClient_concat hd, hpatch⟩
  · obtain ⟨hnot, hpatch⟩ := hfirst x hid
    refine ⟨alsaClientNew id clientId patches, ?_, hpatch⟩
    show alsaMgrGetClient (s.mgr.clients ++ [_]) (pair.id x) = _
    rw [← hid]
    exact getClient_concat_new (hid ▸ hnot)

/-- A client registers and its foreign ports are handled: its copy is kept as long as the other
client is missing, and the link is made when its port was among them and nothing is missing. -/
theorem Fits.step_addClient (h : pair.Fits s)
    (hu : u = { s with mgr := { s.mgr with
      clients := s.mgr.clients ++ [alsaClientNew id clientId patches] } })
    (he : alsaMgrGetClient u.mgr.clients id = some e)
    (ht : t = (s.mgr.foreignPorts.filter (fun fport => fport.client = e.clientId)).foldl
      (fun t fport => t.newClientPort id fport.port) u)
    (hids : ∀ x, id = pair.id x ↔ clientId = pair.client x)
    (hfirst : ∀ x, id = pair.id x →
      ¬ pair.Registered s x ∧ ∃ patch ∈ patches, pair.IsCopy patch)
    (hkeeps : ∀ x, id = pair.id x → ¬ pair.Registered s (!x) →
      (∃ fport ∈ s.mgr.foreignPorts, fport.client = pair.client x) → pair.addr x ∈ s.seq.ports) :
    Link.Step (pair.view s) (pair.view t) := by
  have huentries : pair.Entries u.mgr.clients := by
    rw [hu]
    exact h.entries.concat hids
  have hureg : ∀ x, pair.Registered u x ↔ pair.Registered s x ∨ id = pair.id x := by
    intro x
    rw [hu]
    exact id_mem_concat
  have huports : u.seq.ports = s.seq.ports := by rw [hu]
  have huannounced : u.announced = s.announced := by rw [hu]
  have huresumed : u.resumed = s.resumed := by rw [hu]
  have heid : e.id = id := by simpa using List.find?_some he
  have hemem := List.mem_of_find?_eq_some he
  obtain ⟨hvisits, hother, hkeepsCopy, htries⟩ := foldl_newClientPort huentries id
    (s.mgr.foreignPorts.filter (fun fport => fport.client = e.clientId))
  rw [← ht] at hvisits hother hkeepsCopy htries
  have hreg : ∀ x, pair.Registered t x ↔ pair.Registered s x ∨ id = pair.id x :=
    fun x => (registered_of_keys hvisits.keys).trans (hureg x)
  have hports : t.seq.ports = s.seq.ports := hvisits.ports.trans huports
  have hannounced : t.announced = s.announced := hvisits.announced.trans huannounced
  constructor
  · exact fun x hx => (hreg x).mpr (Or.inl hx)
  · intro x hx
    show pair.addr x ∈ t.seq.ports
    rw [hports]
    exact h.there x (hannounced ▸ hx)
  · exact fun hm => hvisits.resumed _ (huresumed.symm ▸ hm)
  · intro x hx
    show pair.addr x ∈ t.seq.ports
    rw [hports]
    exact hx
  · intro x hx hy
    rcases (hreg x).mp hx with hx | hid
    · exact Or.inl hx
    · rcases (hreg (!x)).mp hy with hy | hid'
      · exact Or.inr hy
      · have hxy := AlsaPair.id_inj (hid.symm.trans hid')
        cases x <;> simp at hxy
  · intro x hx hcopy
    have hcopy := copy_of_added hu hfirst ((hreg x).mp hx) hcopy
    by_cases hboth : ∀ z, pair.Registered u z
    · rcases hkeepsCopy hboth x hcopy with hc | hm
      · exact Or.inl hc
      · exact Or.inr (Or.inl hm)
    · by_cases hid : pair.id x = id
      · have hy : ¬ pair.Registered s (!x) := by
          intro hy
          exact hboth (Link.forall_of_ends x ((hureg x).mpr (Or.inr hid.symm))
            ((hureg (!x)).mpr (Or.inl hy)))
        by_cases hsome : ∃ fport ∈ s.mgr.foreignPorts, fport.client = pair.client x
        · refine Or.inr (Or.inr ⟨hy, ?_⟩)
          show pair.addr x ∈ t.seq.ports
          rw [hports]
          exact hkeeps x hid.symm hy hsome
        · -- nothing is taken over, so nothing is dropped
          have hnil : s.mgr.foreignPorts.filter (fun fport => fport.client = e.clientId) = [] := by
            rw [List.filter_eq_nil_iff]
            intro fport hmem hc
            have hclient := (huentries e hemem x).mp (heid.trans hid.symm)
            exact hsome ⟨fport, hmem, (of_decide_eq_true hc).trans hclient⟩
          rw [hnil] at ht
          rw [ht]
          exact Or.inl hcopy
      · obtain ⟨d, hd, hpatch⟩ := hcopy
        exact Or.inl ⟨d, (hother _ hid).trans hd, hpatch⟩
  · intro x hx hy hhx hnot hcopy hty
    have hheard : pair.addr x ∈ s.announced := hannounced ▸ hhx
    have hnew : ¬ pair.Registered s x := fun hr => hnot ⟨hr, hheard⟩
    have hid : id = pair.id x := ((hreg x).mp hx).resolve_left hnew
    have hboth : ∀ z, pair.Registered u z := by
      intro z
      exact (hureg z).mpr ((hreg z).mp (Link.forall_of_ends x hx hy z))
    refine htries hboth ?_ x hid ⟨pair.addr x, ?_, rfl⟩
      (copy_of_added hu hfirst (Or.inr hid) hcopy)
    · rw [huports]
      refine Link.forall_of_ends x (h.there x hheard) ?_
      rw [← hports]
      exact hty
    · refine List.mem_filter.mpr ⟨h.not_parked hheard hnew, decide_eq_true ?_⟩
      exact ((huentries e hemem x).mp (heid.trans hid)).symm

/-- A client of the pair registers, or another one does. -/
theorem Fits.addClient (h : pair.Fits s)
    (hids : ∀ x, id = pair.id x ↔ clientId = pair.client x)
    (hfirst : ∀ x, id = pair.id x →
      ¬ pair.Registered s x ∧ ∃ patch ∈ patches, pair.IsCopy patch)
    (hkeeps : ∀ x, id = pair.id x → ¬ pair.Registered s (!x) →
      (∃ fport ∈ s.mgr.foreignPorts, fport.client = pair.client x) → pair.addr x ∈ s.seq.ports) :
    pair.Fits (s.addClient id clientId patches) := by
  obtain ⟨u, e, t, hu, he, ht, heq⟩ := s.addClient_eq id clientId patches
  have hlink := (h.step_addClient hu he ht hids hfirst hkeeps).inv h.link
  have huentries : pair.Entries u.mgr.clients := by
    rw [hu]
    exact h.entries.concat hids
  have heid : e.id = id := by simpa using List.find?_some he
  have hvisits := u.foldl_visits id
    (s.mgr.foreignPorts.filter (fun fport => fport.client = e.clientId))
  rw [← ht] at hvisits
  have hannounced : t.announced = s.announced := by
    rw [hvisits.announced, hu]
  have hreg : ∀ x, pair.Registered t x ↔ pair.Registered s x ∨ id = pair.id x := by
    intro x
    rw [registered_of_keys hvisits.keys, hu]
    exact id_mem_concat
  rw [heq]
  refine ⟨entries_of_keys huentries hvisits.keys, fun x hx => ?_, fun x hx => ?_, hlink⟩
  · have hx : pair.addr x ∈ s.announced := hannounced ▸ hx
    by_cases hid : id = pair.id x
    · exact Or.inl ((hreg x).mpr (Or.inr hid))
    · refine (h.parked x hx).imp (fun hr => (hreg x).mpr (Or.inl hr)) ?_
      -- the foreign ports that are taken over are those of the client that registers
      intro hforeign
      refine List.mem_filter.mpr ⟨hforeign, decide_eq_true ?_⟩
      intro hclient
      apply hid
      exact heid.symm.trans ((huentries e (List.mem_of_find?_eq_some he) x).mpr hclient.symm)
  · show pair.addr x ∈ t.seq.ports
    rw [hvisits.ports, hu]
    exact h.there x (hannounced ▸ hx)

end client

/-- A client that is none of the pair goes. -/
theorem Fits.removeClient (h : pair.Fits s) {id : Uuid} (hne : ∀ x, id ≠ pair.id x) :
    pair.Fits (s.removeClient id).1 := by
  unfold AlsaSystem.removeClient
  split
  · exact h
  · have hget : ∀ x, alsaMgrGetClient (s.mgr.clients.eraseP (fun c => c.id = id)) (pair.id x)
        = alsaMgrGetClient s.mgr.clients (pair.id x) := by
      intro x
      apply find?_eraseP
      intro c _ hc
      have hid : c.id = id := of_decide_eq_true hc
      exact decide_eq_false (hid ▸ hne x)
    have hregistered : ∀ l : List AlsaClient, ∀ x, (∃ e ∈ l, e.id = pair.id x)
        ↔ alsaMgrGetClient l (pair.id x) ≠ none := by
      intro l x
      rw [alsaMgrGetClient, ne_eq, List.find?_eq_none]
      simp
    refine h.quiet (fun e he => h.entries e (List.eraseP_sublist.subset he)) ?_ ?_
      (fun _ _ hx => hx) h.there (fun _ hsub => hsub) (fun _ hx => hx)
      (fun x hx hreg => h.not_parked hx hreg)
    · intro x
      show (∃ e ∈ s.mgr.clients.eraseP (fun c => c.id = id), e.id = pair.id x) ↔ pair.Registered s x
      rw [hregistered, hget]
      exact (hregistered _ x).symm
    · rintro x ⟨e, he, hpatch⟩
      exact ⟨e, (hget x).trans he, hpatch⟩

theorem fits_initial (pair : AlsaPair) (seq : Sequencer) : pair.Fits (AlsaSystem.initial seq) where
  entries e he := absurd he (by simp [AlsaSystem.initial])
  parked x hx := absurd hx (by simp [AlsaSystem.initial])
  there x hx := absurd hx (by simp [AlsaSystem.initial])
  link := Link.Inv.of_nobody (by simp [view, Registered, AlsaSystem.initial])

/-- **One step** keeps the link in order. -/
theorem Fits.step (h : pair.Fits s) (hok : pair.Meets s i) (hkeeps : pair.KeepsCopy s i)
    (ht : s.step i = some t) : pair.Fits t := by
  cases i with
  | createPort addr =>
      rw [← Option.some.inj ht]
      exact h.change rfl rfl rfl (fun _ hx => List.mem_append_left _ hx) (fun _ hx => hx)
  | deletePort addr =>
      rw [← Option.some.inj ht]
      exact h.change rfl rfl rfl (fun x hx => (List.mem_erase_of_ne (hok x).symm).mpr hx)
        (fun _ hx => hx)
  | subscribe sub =>
      rw [← Option.some.inj ht]
      exact h.change rfl rfl rfl (fun _ hx => hx) (fun _ hx => hx)
  | unsubscribe sub =>
      rw [← Option.some.inj ht]
      exact h.change rfl rfl rfl (fun _ hx => hx) (fun _ hx => hx)
  | portStart addr due =>
      rw [← Option.some.inj ht]
      exact (h.newPort hok hkeeps).backupPatches due
  | portExit addr due =>
      rw [← Option.some.inj ht]
      apply Fits.backupPatches
      exact h.change rfl rfl rfl (fun _ hx => hx)
        (fun x hx => (List.mem_erase_of_ne (hok x).symm).mpr hx)
  | portSubscribed due =>
      rw [← Option.some.inj ht]
      apply Fits.backupPatches
      exact h.map (f := fun c => { c with patches := s.clientPatches c.clientId })
        (fun _ => ⟨rfl, rfl, rfl⟩) rfl rfl rfl rfl rfl
  | addClient id clientId patches =>
      rw [← Option.some.inj ht]
      exact h.addClient hok.1 hok.2 hkeeps
  | removeClient id =>
      rw [← Option.some.inj ht]
      exact h.removeClient hok

/-- **The patch comes back** in every order of start-up in which a port of a client is handled
before the other one has registered only if the port of the patch is there. -/
theorem patch_restored (pair : AlsaPair) {seq : Sequencer}
    (h : Runs.Reach AlsaSystem.step (fun s i => pair.Meets s i ∧ pair.KeepsCopy s i)
      (AlsaSystem.initial seq) s)
    (hready : ∀ x, pair.Registered s x ∧ pair.addr x ∈ s.announced) :
    (pair.addr false, pair.addr true) ∈ s.resumed := by
  have hfits : pair.Fits s := by
    refine h.invariant (I := pair.Fits) (pair.fits_initial seq) ?_
    intro t i u _ ht hok hs
    exact ht.step hok.1 hok.2 hs
  exact hfits.link.ready (fun x => (hready x).1) (fun x => (hready x).2)

end AlsaPair

end Lash
