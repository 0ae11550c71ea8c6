import Lash.Jack.Legacy
import Lash.Alsa.Startup

/-!
# Patches and the order of start-up, JACK

The legacy JACK manager does with the patches of its clients what the ALSA manager does, with one
difference: `jack_patch_unset_client_id` tests the list of clients, which is never NULL, where it
would have to test whether a client was found. So no copy is dropped because the other client has
not registered. It may be lost to a wrong connection, from the port of the patch to one of another
client, but then the port of the patch is there, and the copy of the other client will do
(`JackPair.patch_restored`).
-/

namespace Lash

open First

open Legacy (JackSystem JackFport colon splitName patchDesc jackPatchUnset jackPatchUnsetClientId
  portMatches)

/-- A saved patch between two clients: their ids, their JACK names and its ports; `false` is the
source. -/
structure JackPair where
  id : Bool → Uuid
  name : Bool → CStr
  port : Bool → CStr
  ids_ne : id false ≠ id true
  nonzero : ∀ x, id x ≠ 0
  names_ne : name false ≠ name true
  /-- JACK allows no colon in a client name. -/
  colon_free : ∀ x, colon ∉ name x

namespace JackPair

variable (pair : JackPair)

/-- The full name of a port of the patch. -/
def full (x : Bool) : CStr := pair.name x ++ colon :: pair.port x

/-- The patch, as it was saved. -/
structure IsCopy (patch : JackPatch) : Prop where
  srcId : patch.srcClientId = pair.id false
  destId : patch.destClientId = pair.id true
  srcPort : patch.srcPort = pair.port false
  destPort : patch.destPort = pair.port true

instance (patch : JackPatch) : Decidable (pair.IsCopy patch) :=
  decidable_of_iff (patch.srcClientId = pair.id false ∧ patch.destClientId = pair.id true ∧
      patch.srcPort = pair.port false ∧ patch.destPort = pair.port true)
    ⟨fun ⟨h₁, h₂, h₃, h₄⟩ => ⟨h₁, h₂, h₃, h₄⟩, fun ⟨h₁, h₂, h₃, h₄⟩ => ⟨h₁, h₂, h₃, h₄⟩⟩

/-- The client at an end has been added to the manager. -/
def Registered (s : JackSystem) (x : Bool) : Prop := ∃ e ∈ s.mgr.clients, e.id = pair.id x

instance (s : JackSystem) (x : Bool) : Decidable (pair.Registered s x) :=
  inferInstanceAs (Decidable (∃ e ∈ s.mgr.clients, _))

/-- The port of the patch at an end exists. -/
def There (s : JackSystem) (x : Bool) : Prop := pair.full x ∈ s.jack.ports.map Prod.snd

/-- The link in the eyes of the manager. -/
def view (s : JackSystem) : Link where
  registered := pair.Registered s
  copy x := ∃ e, s.mgr.clients.find? (fun c => c.name = pair.name x) = some e ∧
    ∃ patch ∈ e.oldPatches, pair.IsCopy patch
  there := pair.There s
  heard x := pair.full x ∈ s.notified
  made := (pair.full false, pair.full true) ∈ s.resumed

/-- What the two clients do: each registers once, with its copy of the patch, and keeps its port; no
other client has one of their ids or names. -/
def Meets (s : JackSystem) : Legacy.JackInput → Prop
  | .unregisterPort id => ∀ x, (id, pair.full x) ∉ s.jack.ports
  | .portUnregistered id => ∀ x, (id, pair.full x) ∉ s.jack.ports
  | .addClient id name patches =>
    (∀ x, id = pair.id x ↔ name = pair.name x) ∧
      ∀ x, id = pair.id x → ¬ pair.Registered s x ∧ ∃ patch ∈ patches, pair.IsCopy patch
  | .removeClient id => ∀ x, id ≠ pair.id x
  | _ => True

instance (s : JackSystem) (i : Legacy.JackInput) : Decidable (pair.Meets s i) := by
  rcases i <;> unfold Meets <;> infer_instance

variable {pair} {s t u : JackSystem} {i : Legacy.JackInput} {x y : Bool} {port : CStr}
  {patch : JackPatch} {patches kept : List JackPatch}

theorem id_inj (h : pair.id x = pair.id y) : x = y := by
  have hne := pair.ids_ne
  cases x <;> cases y <;> grind

/-- The name of a port is split where the client name ends. -/
theorem splitName_full (pair : JackPair) (x : Bool) :
    splitName (pair.full x) = some (pair.name x, pair.port x) :=
  Legacy.splitName_append (pair.colon_free x) (pair.port x)

/-! ## What resuming does for the pair -/

/-- The ids of the pair and its names are with the same entries. -/
def Entries (pair : JackPair) (clients : List Legacy.JackMgrClient) : Prop :=
  ∀ e ∈ clients, ∀ x, e.id = pair.id x ↔ e.name = pair.name x

/-- The end of a patch that belongs to a registered client gets its name. -/
theorem unset_end (hentries : pair.Entries s.mgr.clients) (hx : pair.Registered s x)
    (name : Option CStr) :
    jackPatchUnsetClientId s.mgr.clients (pair.id x) name = some (pair.name x) := by
  obtain ⟨e, he, hid⟩ := hx
  rw [jackPatchUnsetClientId, if_neg (pair.nonzero x)]
  cases hfind : s.mgr.clients.find? (fun c => c.id = pair.id x) with
  | none => exact absurd hid (by simpa using List.find?_eq_none.mp hfind e he)
  | some d =>
      have hdid : d.id = pair.id x := by simpa using List.find?_some hfind
      rw [Option.some_or, Option.map_some, (hentries d (List.mem_of_find?_eq_some hfind) x).mp hdid]

/-- The two ends of a copy, after it has been unset. -/
theorem unset_copy (hcopy : pair.IsCopy patch) (hentries : pair.Entries s.mgr.clients) :
    (pair.Registered s false → (jackPatchUnset s.mgr.clients patch).srcClient = some
      (pair.name false) ∧
      ∀ id, patchDesc (jackPatchUnset s.mgr.clients patch).srcClient id patch.srcPort
        = pair.full false) ∧
    (pair.Registered s true → (jackPatchUnset s.mgr.clients patch).destClient = some
      (pair.name true) ∧
      ∀ id, patchDesc (jackPatchUnset s.mgr.clients patch).destClient id patch.destPort
        = pair.full true) := by
  constructor
  · intro hx
    have hname : (jackPatchUnset s.mgr.clients patch).srcClient = some (pair.name false) := by
      show jackPatchUnsetClientId _ patch.srcClientId _ = _
      rw [hcopy.srcId]
      exact unset_end hentries hx _
    refine ⟨hname, fun id => ?_⟩
    rw [hname, hcopy.srcPort]
    rfl
  · intro hx
    have hname : (jackPatchUnset s.mgr.clients patch).destClient = some (pair.name true) := by
      show jackPatchUnsetClientId _ patch.destClientId _ = _
      rw [hcopy.destId]
      exact unset_end hentries hx _
    refine ⟨hname, fun id => ?_⟩
    rw [hname, hcopy.destPort]
    rfl

/-- When both clients have registered and their ports exist, a copy is resumed as the link. -/
theorem resumePatch_both (hcopy : pair.IsCopy patch) (hentries : pair.Entries s.mgr.clients)
    (hregistered : ∀ x, pair.Registered s x) :
    ((∀ x, pair.There s x) → (s.resumePatch (jackPatchUnset s.mgr.clients patch)).2 = true) ∧
      ((s.resumePatch (jackPatchUnset s.mgr.clients patch)).2 = true →
        (pair.full false, pair.full true)
          ∈ (s.resumePatch (jackPatchUnset s.mgr.clients patch)).1.resumed) := by
  obtain ⟨hsrc, hdest⟩ := unset_copy hcopy hentries
  have hsrc := (hsrc (hregistered false)).2 (jackPatchUnset s.mgr.clients patch).srcClientId
  have hdest := (hdest (hregistered true)).2 (jackPatchUnset s.mgr.clients patch).destClientId
  have hsrc : patchDesc (jackPatchUnset s.mgr.clients patch).srcClient
      (jackPatchUnset s.mgr.clients patch).srcClientId
        (jackPatchUnset s.mgr.clients patch).srcPort = pair.full false := hsrc
  have hdest : patchDesc (jackPatchUnset s.mgr.clients patch).destClient
      (jackPatchUnset s.mgr.clients patch).destClientId
        (jackPatchUnset s.mgr.clients patch).destPort = pair.full true := hdest
  unfold JackSystem.resumePatch
  dsimp only
  rw [hsrc, hdest]
  split
  · exact ⟨fun _ => rfl, fun _ => by simp⟩
  · next hnot =>
      exact ⟨fun hall => absurd ⟨hall false, hall true⟩ hnot, fun h => absurd h (by simp)⟩

/-- A copy of a registered client that is resumed as something else has its own port. -/
theorem resumePatch_there (hcopy : pair.IsCopy patch) (hentries : pair.Entries s.mgr.clients)
    (hx : pair.Registered s x)
    (h : (s.resumePatch (jackPatchUnset s.mgr.clients patch)).2 = true) : pair.There s x := by
  obtain ⟨hsrc, hdest⟩ := unset_copy hcopy hentries
  unfold JackSystem.resumePatch at h
  dsimp only at h
  split at h
  · next hthere =>
      cases x with
      | false =>
          have hname := (hsrc hx).2 (jackPatchUnset s.mgr.clients patch).srcClientId
          have hmem := hthere.1
          rw [show (jackPatchUnset s.mgr.clients patch).srcPort = patch.srcPort from rfl, hname]
            at hmem
          exact hmem
      | true =>
          have hname := (hdest hx).2 (jackPatchUnset s.mgr.clients patch).destClientId
          have hmem := hthere.2
          rw [show (jackPatchUnset s.mgr.clients patch).destPort = patch.destPort from rfl, hname]
            at hmem
          exact hmem
  · exact absurd h (by simp)

/-- The port of the patch is found to be one of its ends. -/
theorem portMatches_copy (hcopy : pair.IsCopy patch) (hentries : pair.Entries s.mgr.clients)
    (hregistered : ∀ x, pair.Registered s x) :
    portMatches (pair.name x) (pair.port x) (jackPatchUnset s.mgr.clients patch) = some true := by
  obtain ⟨hsrc, hdest⟩ := unset_copy hcopy hentries
  rw [portMatches, (hsrc (hregistered false)).1]
  dsimp only
  cases x with
  | false => rw [if_pos ⟨rfl, hcopy.srcPort.symm⟩]
  | true =>
      split
      · rfl
      · rw [(hdest (hregistered true)).1]
        simp [jackPatchUnset, hcopy.destPort]

/-- What happens to a copy of a registered client: it is kept, and then the client did not hear of
its port with everything else ready; or the other client has not registered and the port is there;
or the link is made. -/
def Outcome (pair : JackPair) (s t : JackSystem) (x : Bool) (hears kept : Prop) : Prop :=
  (kept ∧ ¬ (hears ∧ (∀ y, pair.Registered s y) ∧ ∀ y, pair.There s y)) ∨
    (¬ pair.Registered s (!x) ∧ pair.There s x) ∨ (pair.full false, pair.full true) ∈ t.resumed

theorem newClientPort_copy (hpatch : patch ∈ patches) (hcopy : pair.IsCopy patch)
    (hentries : pair.Entries s.mgr.clients) (hx : pair.Registered s x)
    (h : JackSystem.newClientPort (pair.name x) port s patches = some (t, kept)) :
    pair.Outcome s t x (port = pair.port x) (patch ∈ kept) := by
  induction patches generalizing s t kept with
  | nil => exact absurd hpatch (by simp)
  | cons first rest ih =>
      -- what the rest of the loop does to a copy behind the first patch
      have hrest : ∀ u k, JackSystem.Asks s u → patch ∈ rest →
          JackSystem.newClientPort (pair.name x) port u rest = some (t, k) →
          pair.Outcome s t x (port = pair.port x) (patch ∈ k) := by
        intro u k hasks hmem hu
        have hreg : ∀ y, pair.Registered u y ↔ pair.Registered s y := by
          intro y
          rw [Registered, hasks.mgr, Registered]
        have hthere : ∀ y, pair.There u y ↔ pair.There s y := by
          intro y
          rw [There, hasks.ports, There]
        have hout := ih hmem (by rw [hasks.mgr]; exact hentries) ((hreg x).mpr hx) hu
        unfold Outcome at hout ⊢
        simp only [hreg, hthere] at hout
        exact hout
      have hstep := JackSystem.newClientPort_asks h
      rw [JackSystem.newClientPort] at h
      dsimp only at h
      split at h
      · exact absurd h (by simp)
      · next hmatch =>
          obtain ⟨⟨u, k⟩, hu, heq⟩ := Option.map_eq_some_iff.mp h
          obtain ⟨rfl, rfl⟩ := Prod.mk.inj heq
          rcases List.mem_cons.mp hpatch with rfl | hmem
          · refine Or.inl ⟨List.mem_cons_self, ?_⟩
            rintro ⟨rfl, hregistered, -⟩
            rw [portMatches_copy hcopy hentries hregistered] at hmatch
            exact absurd hmatch (by simp)
          · exact (hrest s k (.refl s) hmem hu).imp_left
              (fun hk => ⟨List.mem_cons_of_mem _ hk.1, hk.2⟩)
      · obtain ⟨⟨u, k⟩, hu, heq⟩ := Option.map_eq_some_iff.mp h
        have hasks := JackSystem.resumePatch_asks s (jackPatchUnset s.mgr.clients first)
        have hut : u = t := by
          dsimp only at heq
          split at heq <;> exact (Prod.mk.inj heq).1
        subst hut
        rcases List.mem_cons.mp hpatch with rfl | hmem
        · by_cases hdone : (s.resumePatch (jackPatchUnset s.mgr.clients patch)).2 = true
          · by_cases hy : pair.Registered s (!x)
            · have hmade := (resumePatch_both hcopy hentries (Link.forall_of_ends x hx hy)).2 hdone
              exact Or.inr (Or.inr ((JackSystem.newClientPort_asks hu).resumed _ hmade))
            · exact Or.inr (Or.inl ⟨hy, resumePatch_there hcopy hentries hx hdone⟩)
          · dsimp only at heq
            rw [if_neg hdone] at heq
            obtain ⟨-, rfl⟩ := Prod.mk.inj heq
            refine Or.inl ⟨List.mem_cons_self, ?_⟩
            rintro ⟨-, hregistered, hall⟩
            exact hdone ((resumePatch_both hcopy hentries hregistered).1 hall)
        · have hout := hrest _ k hasks hmem hu
          dsimp only at heq
          split at heq
          · obtain ⟨-, rfl⟩ := Prod.mk.inj heq
            exact hout
          · obtain ⟨-, rfl⟩ := Prod.mk.inj heq
            exact hout.imp_left (fun hk => ⟨List.mem_cons_of_mem _ hk.1, hk.2⟩)

/-- The same over the foreign ports of a client that registers. -/
theorem checkClientPorts_copy {fports : List JackFport} (hpatch : patch ∈ patches)
    (hcopy : pair.IsCopy patch) (hentries : pair.Entries s.mgr.clients) (hx : pair.Registered s x)
    (h : s.checkClientPorts (pair.name x) patches fports = some (t, kept)) :
    pair.Outcome s t x (∃ fport ∈ fports, fport.portName = pair.port x) (patch ∈ kept) := by
  induction fports generalizing s patches with
  | nil =>
      obtain ⟨rfl, rfl⟩ := Prod.mk.inj (Option.some.inj h)
      refine Or.inl ⟨hpatch, ?_⟩
      rintro ⟨⟨fport, hmem, -⟩, -⟩
      exact absurd hmem (by simp)
  | cons first rest ih =>
      have h' := h
      unfold JackSystem.checkClientPorts at h'
      rw [List.foldlM_cons] at h'
      obtain ⟨⟨u, k⟩, hu, hrest⟩ := Option.bind_eq_some_iff.mp h'
      have hasks := JackSystem.newClientPort_asks hu
      have hreg : ∀ y, pair.Registered u y ↔ pair.Registered s y := by
        intro y
        rw [Registered, hasks.mgr, Registered]
      have hthere : ∀ y, pair.There u y ↔ pair.There s y := by
        intro y
        rw [There, hasks.ports, There]
      rcases newClientPort_copy hpatch hcopy hentries hx hu with ⟨hmem, hnot⟩ | hlost | hmade
      · have hout := ih hmem (by rw [hasks.mgr]; exact hentries) ((hreg x).mpr hx) hrest
        unfold Outcome at hout ⊢
        simp only [hreg, hthere] at hout
        refine hout.imp_left (fun hk => ⟨hk.1, ?_⟩)
        rintro ⟨⟨fport, hfport, hport⟩, hready⟩
        rcases List.mem_cons.mp hfport with rfl | hfport
        · exact hnot ⟨hport, hready⟩
        · exact hk.2 ⟨⟨fport, hfport, hport⟩, hready⟩
      · exact Or.inr (Or.inl hlost)
      · exact Or.inr (Or.inr ((JackSystem.checkClientPorts_asks hrest).resumed _ hmade))

/-! ## One step -/

/-- What carries the link from step to step. -/
structure Fits (pair : JackPair) (s : JackSystem) : Prop where
  entries : pair.Entries s.mgr.clients
  parked : ∀ x, pair.full x ∈ s.notified → pair.Registered s x ∨
    ∃ fport ∈ s.mgr.foreignPorts, fport.clientName = pair.name x ∧ fport.portName = pair.port x ∧
      (fport.id, pair.full x) ∈ s.jack.ports
  there : ∀ x, pair.full x ∈ s.notified → pair.There s x
  link : (pair.view s).Inv

/-- A step in which nobody of the pair comes, no copy is lost, and no registered one hears of its
port. -/
theorem Fits.quiet (h : pair.Fits s) (hentries : pair.Entries t.mgr.clients)
    (hregistered : ∀ x, pair.Registered t x ↔ pair.Registered s x)
    (hcopy : ∀ x, (pair.view s).copy x → (pair.view t).copy x)
    (hheard : ∀ x, pair.Registered t x → pair.full x ∈ t.notified → pair.full x ∈ s.notified)
    (hports : ∀ x, pair.full x ∈ t.notified → pair.There t x)
    (hresumed : ∀ c ∈ s.resumed, c ∈ t.resumed)
    (hthere : ∀ x, pair.There s x → pair.There t x)
    (hparked : ∀ x, pair.full x ∈ t.notified → ¬ pair.Registered s x →
      ∃ fport ∈ t.mgr.foreignPorts, fport.clientName = pair.name x ∧
        fport.portName = pair.port x ∧ (fport.id, pair.full x) ∈ t.jack.ports) : pair.Fits t where
  entries := hentries
  parked x hx := by
    by_cases hreg : pair.Registered s x
    · exact Or.inl ((hregistered x).mpr hreg)
    · exact Or.inr (hparked x hx hreg)
  there := hports
  link := Link.Step.inv (v := pair.view s)
    (Link.Step.quiet hregistered hcopy hheard hports (hresumed _) hthere) h.link

theorem Fits.not_parked (h : pair.Fits s) (hx : pair.full x ∈ s.notified)
    (hreg : ¬ pair.Registered s x) : ∃ fport ∈ s.mgr.foreignPorts,
      fport.clientName = pair.name x ∧ fport.portName = pair.port x ∧
        (fport.id, pair.full x) ∈ s.jack.ports :=
  (h.parked x hx).resolve_left hreg

/-- JACK changes and keeps the ports of the pair, the manager forgets other ports, and what is
known of the current patches changes. -/
theorem Fits.change (h : pair.Fits s) {f : Legacy.JackMgrClient → Legacy.JackMgrClient}
    (hf : ∀ c, (f c).id = c.id ∧ (f c).name = c.name ∧ (f c).oldPatches = c.oldPatches)
    (hclients : t.mgr.clients = s.mgr.clients.map f) (hnotified : t.notified = s.notified)
    (hresumed : t.resumed = s.resumed)
    (hports : ∀ id x, (id, pair.full x) ∈ s.jack.ports → (id, pair.full x) ∈ t.jack.ports)
    (hforeign : ∀ fport ∈ s.mgr.foreignPorts, ∀ x, (fport.id, pair.full x) ∈ s.jack.ports →
      fport ∈ t.mgr.foreignPorts) : pair.Fits t := by
  have hmem : ∀ {P : Legacy.JackMgrClient → Prop}, (∀ c, P (f c) ↔ P c) →
      ((∃ e ∈ t.mgr.clients, P e) ↔ ∃ e ∈ s.mgr.clients, P e) := by
    intro P hP
    rw [hclients]
    constructor
    · rintro ⟨e, he, hPe⟩
      obtain ⟨c, hc, rfl⟩ := List.mem_map.mp he
      exact ⟨c, hc, (hP c).mp hPe⟩
    · rintro ⟨c, hc, hPc⟩
      exact ⟨f c, List.mem_map_of_mem hc, (hP c).mpr hPc⟩
  have hthere : ∀ x, pair.There s x → pair.There t x := by
    intro x hx
    obtain ⟨⟨id, name⟩, hport, hname⟩ := List.mem_map.mp hx
    have hname : name = pair.full x := hname
    subst hname
    exact List.mem_map.mpr ⟨_, hports id x hport, rfl⟩
  apply h.quiet _ (fun x => hmem (fun c => by rw [(hf c).1]))
  · rintro x ⟨e, he, hpatch⟩
    refine ⟨f e, ?_, ?_⟩
    · have hcomp : (fun c : Legacy.JackMgrClient => decide (c.name = pair.name x)) ∘ f
          = fun c => decide (c.name = pair.name x) := by
        funext c
        rw [Function.comp_apply, (hf c).2.1]
      rw [hclients, List.find?_map, hcomp, he, Option.map_some]
    · rw [(hf e).2.2]
      exact hpatch
  · intro x _ hx
    rwa [hnotified] at hx
  · intro x hx
    rw [hnotified] at hx
    exact hthere x (h.there x hx)
  · rw [hresumed]
    exact fun _ hc => hc
  · exact hthere
  · intro x hx hreg
    rw [hnotified] at hx
    obtain ⟨fport, hmem, hname, hport, hid⟩ := h.not_parked hx hreg
    exact ⟨fport, hforeign fport hmem x hid, hname, hport, hports _ _ hid⟩
  · rw [hclients]
    intro e he x
    obtain ⟨c, hc, rfl⟩ := List.mem_map.mp he
    rw [(hf c).1, (hf c).2.1]
    exact h.entries c hc x

/-! ### A port comes up -/

section port

variable {name clientName portName : CStr} {kept : List JackPatch} {e : Legacy.JackMgrClient}
  {u : JackSystem} {clients : List Legacy.JackMgrClient}

theorem Fits.there_notified (h : pair.Fits s) {id : Nat} (hmem : (id, name) ∈ s.jack.ports)
    (hx : pair.full x ∈ s.notified ++ [name]) : pair.There s x := by
  rcases List.mem_append.mp hx with hx | hx
  · exact h.there x hx
  · rw [There, List.mem_singleton.mp hx]
    exact List.mem_map.mpr ⟨_, hmem, rfl⟩

theorem eq_full_of_notified (hx : pair.full x ∈ s.notified ++ [name])
    (hnot : pair.full x ∉ s.notified) : name = pair.full x :=
  (List.mem_singleton.mp ((List.mem_append.mp hx).resolve_left hnot)).symm

/-- The name of a port of the pair is split into the names of its client and of itself. -/
theorem split_notified (hsplit : splitName name = some (clientName, portName))
    (hx : pair.full x ∈ s.notified ++ [name]) (hnot : pair.full x ∉ s.notified) :
    clientName = pair.name x ∧ portName = pair.port x := by
  rw [eq_full_of_notified hx hnot, splitName_full] at hsplit
  obtain ⟨hclient, hport⟩ := Prod.mk.inj (Option.some.inj hsplit)
  exact ⟨hclient.symm, hport.symm⟩

/-- The entries when the old patches of a client are replaced. -/
def setOld (clientName : CStr) (kept : List JackPatch) (clients : List Legacy.JackMgrClient) :
    List Legacy.JackMgrClient :=
  modifyFirst (fun d => d.name = clientName) (fun d => { d with oldPatches := kept }) clients

theorem map_setOld {β : Type} (g : Legacy.JackMgrClient → β)
    (hg : ∀ c, g { c with oldPatches := kept } = g c) :
    (setOld clientName kept clients).map g = clients.map g :=
  map_modifyFirst (fun c _ => hg c)

theorem id_mem_setOld {id : Uuid} :
    (∃ d ∈ setOld clientName kept clients, d.id = id) ↔ ∃ d ∈ clients, d.id = id := by
  rw [← List.mem_map, map_setOld Legacy.JackMgrClient.id (fun _ => rfl), List.mem_map]

theorem Entries.setOld (h : pair.Entries clients) :
    pair.Entries (JackPair.setOld clientName kept clients) := by
  intro d hd x
  obtain ⟨c, hc, hcd⟩ := List.mem_map.mp
    (map_setOld (fun c => (c.id, c.name)) (fun _ => rfl) ▸ List.mem_map_of_mem hd)
  obtain ⟨hcid, hcname⟩ := Prod.mk.inj hcd
  rw [← hcid, ← hcname]
  exact h c hc x

theorem find?_setOld_ne {other : CStr} (hne : other ≠ clientName) :
    (setOld clientName kept clients).find? (fun c => c.name = other)
      = clients.find? (fun c => c.name = other) := by
  apply find?_modifyFirst
  intro c hc
  have hc : c.name = clientName := of_decide_eq_true hc
  have hne' : ¬ c.name = other := fun hx => hne (hx.symm.trans hc)
  exact ⟨decide_eq_false hne', decide_eq_false hne'⟩

/-- What happens to the copy of the client whose port comes up. -/
theorem Fits.copy_outcome (h : pair.Fits s)
    (he : s.mgr.clients.find? (fun c => c.name = clientName) = some e)
    (hu : JackSystem.newClientPort clientName portName
      { s with notified := s.notified ++ [name] } e.oldPatches = some (u, kept))
    (hname : clientName = pair.name x) (hx : pair.Registered s x) (hcopy : (pair.view s).copy x) :
    ∃ patch, pair.IsCopy patch ∧ pair.Outcome s u x (portName = pair.port x) (patch ∈ kept) := by
  subst hname
  obtain ⟨d, hd, patch, hpatch, hcopy⟩ := hcopy
  rw [he] at hd
  rw [← Option.some.inj hd] at hpatch
  have hout := newClientPort_copy (s := { s with notified := s.notified ++ [name] })
    hpatch hcopy h.entries hx hu
  exact ⟨patch, hcopy, hout⟩

/-- The port of a registered client comes up: its copy is kept while something is missing, and
otherwise the link is asked for. -/
theorem Fits.step_newClientPort (h : pair.Fits s)
    (hports : ∀ x, pair.full x ∈ s.notified ++ [name] → pair.There s x)
    (hsplit : splitName name = some (clientName, portName))
    (he : s.mgr.clients.find? (fun c => c.name = clientName) = some e)
    (hu : JackSystem.newClientPort clientName portName
      { s with notified := s.notified ++ [name] } e.oldPatches = some (u, kept)) :
    Link.Step (pair.view s) (pair.view { u with mgr := { s.mgr with
      clients := setOld clientName kept s.mgr.clients } }) := by
  have hasks := JackSystem.newClientPort_asks hu
  have hheard : u.notified = s.notified ++ [name] := hasks.notified
  have hseq : u.jack.ports = s.jack.ports := hasks.ports
  constructor
  · exact fun x hx => id_mem_setOld.mpr hx
  · intro x hx
    have hx : pair.full x ∈ s.notified ++ [name] := hheard ▸ hx
    show pair.full x ∈ u.jack.ports.map Prod.snd
    rw [hseq]
    exact hports x hx
  · exact fun hm => hasks.resumed _ hm
  · intro x hx
    show pair.full x ∈ u.jack.ports.map Prod.snd
    rw [hseq]
    exact hx
  · exact fun x hx _ => Or.inl (id_mem_setOld.mp hx)
  · intro x hx hcopy
    have hx : pair.Registered s x := id_mem_setOld.mp hx
    by_cases hname : clientName = pair.name x
    · obtain ⟨patch, hpatch, hout⟩ := h.copy_outcome he hu hname hx (hcopy hx)
      rcases hout with ⟨hkept, -⟩ | ⟨hy, hthere⟩ | hmade
      · refine Or.inl ⟨{ e with oldPatches := kept }, ?_, patch, hkept, hpatch⟩
        rw [← hname]
        have hename : e.name = clientName := by simpa using List.find?_some he
        exact find?_modifyFirst_self he (decide_eq_true hename)
      · refine Or.inr (Or.inr ⟨hy, ?_⟩)
        show pair.full x ∈ u.jack.ports.map Prod.snd
        rw [hseq]
        exact hthere
      · exact Or.inr (Or.inl hmade)
    · obtain ⟨d, hd, hpatch⟩ := hcopy hx
      exact Or.inl ⟨d, (find?_setOld_ne (fun hn => hname hn.symm)).trans hd, hpatch⟩
  · intro x hx hy hhx hfirst hcopy hty
    have hx : pair.Registered s x := id_mem_setOld.mp hx
    have hy : pair.Registered s (!x) := id_mem_setOld.mp hy
    have hhx : pair.full x ∈ s.notified ++ [name] := hheard ▸ hhx
    obtain ⟨hname, hport⟩ := split_notified hsplit hhx (fun hold => hfirst ⟨hx, hold⟩)
    obtain ⟨patch, -, hout⟩ := h.copy_outcome he hu hname hx (hcopy hx)
    rcases hout with ⟨-, hnot⟩ | ⟨hny, -⟩ | hmade
    · refine absurd ⟨hport, Link.forall_of_ends x hx hy, ?_⟩ hnot
      refine Link.forall_of_ends x (hports x hhx) ?_
      rw [There, ← hseq]
      exact hty
    · exact absurd hy hny
    · exact hmade

theorem Fits.portOfClient (h : pair.Fits s)
    (hports : ∀ x, pair.full x ∈ s.notified ++ [name] → pair.There s x)
    (hsplit : splitName name = some (clientName, portName))
    (he : s.mgr.clients.find? (fun c => c.name = clientName) = some e)
    (hu : JackSystem.newClientPort clientName portName
      { s with notified := s.notified ++ [name] } e.oldPatches = some (u, kept)) :
    pair.Fits { u with mgr := { s.mgr with
      clients := setOld clientName kept s.mgr.clients } } := by
  have hasks := JackSystem.newClientPort_asks hu
  have hheard : u.notified = s.notified ++ [name] := hasks.notified
  have hseq : u.jack.ports = s.jack.ports := hasks.ports
  refine ⟨h.entries.setOld, fun x hx => ?_, fun x hx => ?_,
    (h.step_newClientPort hports hsplit he hu).inv h.link⟩
  · have hx : pair.full x ∈ s.notified ++ [name] := hheard ▸ hx
    by_cases hold : pair.full x ∈ s.notified
    · refine (h.parked x hold).imp id_mem_setOld.mpr ?_
      rintro ⟨fport, hfport, hclient, hport, hpid⟩
      exact ⟨fport, hfport, hclient, hport, by rw [hseq]; exact hpid⟩
    · have hemem := List.mem_of_find?_eq_some he
      have hename : e.name = clientName := by simpa using List.find?_some he
      refine Or.inl (id_mem_setOld.mpr ⟨e, hemem, (h.entries e hemem x).mpr ?_⟩)
      exact hename.trans (split_notified hsplit hx hold).1
  · have hx : pair.full x ∈ s.notified ++ [name] := hheard ▸ hx
    rw [There, hseq]
    exact hports x hx

/-- The port of a client that is not registered is put aside as a foreign one. -/
theorem Fits.foreignPort (h : pair.Fits s) {id : Nat} (hmem : (id, name) ∈ s.jack.ports)
    (hsplit : splitName name = some (clientName, portName))
    (hnone : s.mgr.clients.find? (fun c => c.name = clientName) = none) :
    pair.Fits { s with
      notified := s.notified ++ [name]
      mgr := { s.mgr with
        foreignPorts := s.mgr.foreignPorts ++ [{ id, clientName, portName }] } } := by
  have hnobody : ∀ x, clientName = pair.name x → ¬ pair.Registered s x := by
    rintro x rfl ⟨e, he, hid⟩
    have hname := (h.entries e he x).mp hid
    exact List.find?_eq_none.mp hnone e he (decide_eq_true hname)
  refine h.quiet h.entries (fun _ => Iff.rfl) (fun _ hx => hx) ?_
    (fun _ hx => h.there_notified hmem hx) (fun _ hc => hc) (fun _ hx => hx) ?_
  · intro x hx hhx
    apply Classical.byContradiction
    intro hnot
    exact hnobody x (split_notified hsplit hhx hnot).1 hx
  · intro x hx hreg
    by_cases hold : pair.full x ∈ s.notified
    · obtain ⟨fport, hfport, hrest⟩ := h.not_parked hold hreg
      exact ⟨fport, List.mem_append_left _ hfport, hrest⟩
    · obtain ⟨hclient, hport⟩ := split_notified hsplit hx hold
      refine ⟨_, List.mem_append_right _ List.mem_cons_self, hclient, hport, ?_⟩
      rw [← eq_full_of_notified hx hold]
      exact hmem

/-- A port whose name has no colon is not one of the pair. -/
theorem Fits.portUnsplit (h : pair.Fits s) {id : Nat} (hmem : (id, name) ∈ s.jack.ports)
    (hsplit : splitName name = none) :
    pair.Fits { s with notified := s.notified ++ [name] } := by
  have hold : ∀ x, pair.full x ∈ s.notified ++ [name] → pair.full x ∈ s.notified := by
    intro x hx
    apply Classical.byContradiction
    intro hnot
    rw [eq_full_of_notified hx hnot, splitName_full] at hsplit
    exact absurd hsplit (by simp)
  exact h.quiet h.entries (fun _ => Iff.rfl) (fun _ hx => hx) (fun x _ hx => hold x hx)
    (fun _ hx => h.there_notified hmem hx) (fun _ hc => hc) (fun _ hx => hx)
    (fun x hx hreg => h.not_parked (hold x hx) hreg)

/-- `jack_mgr_port_notification` -/
theorem Fits.portNotification (h : pair.Fits s) {id : Nat} (ht : s.portNotification id = some t) :
    pair.Fits t := by
  unfold JackSystem.portNotification at ht
  split at ht
  · rw [← Option.some.inj ht]
    exact h
  · next id' name hfind =>
      have hmem := List.mem_of_find?_eq_some hfind
      have hid : id' = id := by simpa using List.find?_some hfind
      subst hid
      dsimp only at ht
      split at ht
      · next hsplit =>
          rw [← Option.some.inj ht]
          exact h.portUnsplit hmem hsplit
      · next clientName portName hsplit =>
          split at ht
          · next e he =>
              obtain ⟨⟨u, kept⟩, hu, rfl⟩ := Option.map_eq_some_iff.mp ht
              exact h.portOfClient (fun _ hx => h.there_notified hmem hx) hsplit he hu
          · next hnone =>
              rw [← Option.some.inj ht]
              exact h.foreignPort hmem hsplit hnone

end port

/-! ### A client registers -/

section client

variable {id : Uuid} {name : CStr} {patches ps kept : List JackPatch} {u : JackSystem}
  {clients : List Legacy.JackMgrClient}

theorem Entries.concat (h : pair.Entries clients)
    (hids : ∀ x, id = pair.id x ↔ name = pair.name x) :
    pair.Entries (clients ++ [JackSystem.jackMgrClientNew id name ps]) := by
  intro d hd x
  rcases List.mem_append.mp hd with hd | hd
  · exact h d hd x
  · rw [List.mem_singleton.mp hd]
    exact hids x

theorem id_mem_concat {y : Uuid} :
    (∃ d ∈ clients ++ [JackSystem.jackMgrClientNew id name ps], d.id = y) ↔
      (∃ d ∈ clients, d.id = y) ∨ id = y := by
  simp only [List.mem_append, List.mem_singleton, or_and_right, exists_or, exists_eq_left]
  rfl

/-- The entry of a client of the pair that was not registered is the new one. -/
theorem Entries.find?_concat (h : pair.Entries clients) (hname : name = pair.name x)
    (hnot : ¬ ∃ d ∈ clients, d.id = pair.id x) :
    (clients ++ [JackSystem.jackMgrClientNew id name ps]).find? (fun c => c.name = pair.name x) =
      some (JackSystem.jackMgrClientNew id name ps) := by
  have hnone : clients.find? (fun c => c.name = pair.name x) = none := by
    rw [List.find?_eq_none]
    intro d hd hdname
    exact hnot ⟨d, hd, (h d hd x).mpr (of_decide_eq_true hdname)⟩
  rw [List.find?_append, hnone, Option.none_or,
    List.find?_cons_of_pos (by simp [JackSystem.jackMgrClientNew, hname])]

/-- What happens to the copy of the client that registers. -/
theorem Fits.added_outcome (h : pair.Fits s) (hids : ∀ x, id = pair.id x ↔ name = pair.name x)
    (hcopies : ∃ patch ∈ patches, pair.IsCopy patch)
    (hu : JackSystem.checkClientPorts { s with mgr := { s.mgr with
        clients := s.mgr.clients ++ [JackSystem.jackMgrClientNew id name patches] } } name patches
      (s.mgr.foreignPorts.filter (fun fport => name = fport.clientName)) = some (u, kept))
    (hid : id = pair.id x) :
    ∃ patch, pair.IsCopy patch ∧
      pair.Outcome { s with mgr := { s.mgr with
        clients := s.mgr.clients ++ [JackSystem.jackMgrClientNew id name patches] } } u x
        (∃ fport ∈ s.mgr.foreignPorts.filter (fun fport => name = fport.clientName),
          fport.portName = pair.port x) (patch ∈ kept) := by
  obtain ⟨patch, hpatch, hcopy⟩ := hcopies
  have hname : name = pair.name x := (hids x).mp hid
  subst hname
  exact ⟨patch, hcopy, checkClientPorts_copy hpatch hcopy (h.entries.concat hids)
    (id_mem_concat.mpr (Or.inr hid)) hu⟩

/-- A client registers: its copy is kept while something is missing, and otherwise the link is asked
for when its foreign port is taken over. -/
theorem Fits.step_checkClientPorts (h : pair.Fits s)
    (hids : ∀ x, id = pair.id x ↔ name = pair.name x)
    (hfirst : ∀ x, id = pair.id x →
      ¬ pair.Registered s x ∧ ∃ patch ∈ patches, pair.IsCopy patch)
    (hu : JackSystem.checkClientPorts { s with mgr := { s.mgr with
        clients := s.mgr.clients ++ [JackSystem.jackMgrClientNew id name patches] } } name patches
      (s.mgr.foreignPorts.filter (fun fport => name = fport.clientName)) = some (u, kept)) :
    Link.Step (pair.view s) (pair.view { u with mgr := {
      clients := s.mgr.clients ++ [JackSystem.jackMgrClientNew id name kept]
      foreignPorts := s.mgr.foreignPorts.filter (fun fport => name ≠ fport.clientName) } }) := by
  have hasks := JackSystem.checkClientPorts_asks hu
  have hheard : u.notified = s.notified := hasks.notified
  have hseq : u.jack.ports = s.jack.ports := hasks.ports
  constructor
  · exact fun x hx => id_mem_concat.mpr (Or.inl hx)
  · intro x hx
    show pair.full x ∈ u.jack.ports.map Prod.snd
    rw [hseq]
    exact h.there x (hheard ▸ hx)
  · exact fun hm => hasks.resumed _ hm
  · intro x hx
    show pair.full x ∈ u.jack.ports.map Prod.snd
    rw [hseq]
    exact hx
  · intro x hx hy
    rcases id_mem_concat.mp hx with hx | hid
    · exact Or.inl hx
    · rcases id_mem_concat.mp hy with hy | hid'
      · exact Or.inr hy
      · have hxy := JackPair.id_inj (hid.symm.trans hid')
        cases x <;> simp at hxy
  · intro x hx hcopy
    by_cases hid : id = pair.id x
    · obtain ⟨patch, hpatch, hout⟩ := h.added_outcome hids (hfirst x hid).2 hu hid
      rcases hout with ⟨hkept, -⟩ | ⟨hy, hthere⟩ | hmade
      · exact Or.inl ⟨_, h.entries.find?_concat ((hids x).mp hid) (hfirst x hid).1, patch, hkept,
          hpatch⟩
      · refine Or.inr (Or.inr ⟨fun hr => hy (id_mem_concat.mpr (Or.inl hr)), ?_⟩)
        show pair.full x ∈ u.jack.ports.map Prod.snd
        rw [hseq]
        exact hthere
      · exact Or.inr (Or.inl hmade)
    · obtain ⟨d, hd, hpatch⟩ := hcopy ((id_mem_concat.mp hx).resolve_right hid)
      refine Or.inl ⟨d, ?_, hpatch⟩
      show (s.mgr.clients ++ [_]).find? (fun c => c.name = pair.name x) = some d
      rw [List.find?_append, hd, Option.some_or]
  · intro x hx hy hhx hnew hcopy hty
    have hhx : pair.full x ∈ s.notified := hheard ▸ hhx
    have hxreg : ¬ pair.Registered s x := fun hr => hnew ⟨hr, hhx⟩
    have hid : id = pair.id x := (id_mem_concat.mp hx).resolve_left hxreg
    obtain ⟨patch, -, hout⟩ := h.added_outcome hids (hfirst x hid).2 hu hid
    have hall : ∀ z, pair.Registered { s with mgr := { s.mgr with
        clients := s.mgr.clients ++ [JackSystem.jackMgrClientNew id name patches] } } z := by
      intro z
      exact id_mem_concat.mpr (id_mem_concat.mp (Link.forall_of_ends x hx hy z))
    rcases hout with ⟨-, hnot⟩ | ⟨hny, -⟩ | hmade
    · obtain ⟨fport, hfport, hclient, hport, -⟩ := h.not_parked hhx hxreg
      refine absurd ⟨⟨fport, List.mem_filter.mpr ⟨hfport, decide_eq_true ?_⟩, hport⟩, hall, ?_⟩ hnot
      · rw [hclient]
        exact (hids x).mp hid
      · refine Link.forall_of_ends x (h.there x hhx) ?_
        rw [There]
        show pair.full (!x) ∈ s.jack.ports.map Prod.snd
        rw [← hseq]
        exact hty
    · exact absurd (hall (!x)) hny
    · exact hmade

/-- `jack_mgr_add_client`, for a client of the pair or another one. -/
theorem Fits.addClient (h : pair.Fits s) (hids : ∀ x, id = pair.id x ↔ name = pair.name x)
    (hfirst : ∀ x, id = pair.id x →
      ¬ pair.Registered s x ∧ ∃ patch ∈ patches, pair.IsCopy patch)
    (ht : s.addClient id name patches = some t) : pair.Fits t := by
  unfold JackSystem.addClient at ht
  dsimp only at ht
  obtain ⟨⟨u, kept⟩, hu, rfl⟩ := Option.map_eq_some_iff.mp ht
  have hasks := JackSystem.checkClientPorts_asks hu
  have hheard : u.notified = s.notified := hasks.notified
  have hseq : u.jack.ports = s.jack.ports := hasks.ports
  refine ⟨h.entries.concat hids, fun x hx => ?_, fun x hx => ?_,
    (h.step_checkClientPorts hids hfirst hu).inv h.link⟩
  · have hx : pair.full x ∈ s.notified := hheard ▸ hx
    by_cases hid : id = pair.id x
    · exact Or.inl (id_mem_concat.mpr (Or.inr hid))
    · refine (h.parked x hx).imp (fun hr => id_mem_concat.mpr (Or.inl hr)) ?_
      rintro ⟨fport, hfport, hclient, hport, hpid⟩
      refine ⟨fport, List.mem_filter.mpr ⟨hfport, decide_eq_true ?_⟩, hclient, hport, ?_⟩
      · rw [hclient]
        exact fun hname => hid ((hids x).mpr hname)
      · rw [hseq]
        exact hpid
  · rw [There, hseq]
    exact h.there x (hheard ▸ hx)

end client

/-- A client that is none of the pair goes. -/
theorem Fits.removeClient (h : pair.Fits s) {id : Uuid} (hne : ∀ x, id ≠ pair.id x) :
    pair.Fits (s.removeClient id).1 := by
  unfold JackSystem.removeClient
  split
  · exact h
  · have hstays : ∀ e ∈ s.mgr.clients, e.id ≠ id →
        e ∈ s.mgr.clients.eraseP (fun c => c.id = id) := by
      intro e he heid
      exact (List.mem_eraseP_of_neg (by simpa using heid)).mpr he
    refine h.quiet (fun e he => h.entries e (List.eraseP_sublist.subset he)) ?_ ?_
      (fun _ _ hx => hx) h.there (fun _ hc => hc) (fun _ hx => hx)
      (fun x hx hreg => h.not_parked hx hreg)
    · intro x
      constructor
      · rintro ⟨e, he, hid⟩
        exact ⟨e, List.eraseP_sublist.subset he, hid⟩
      · rintro ⟨e, he, hid⟩
        exact ⟨e, hstays e he (fun heid => hne x (heid.symm.trans hid)), hid⟩
    · rintro x ⟨e, he, hpatch⟩
      refine ⟨e, ?_, hpatch⟩
      show (s.mgr.clients.eraseP (fun c => c.id = id)).find? (fun c => c.name = pair.name x) =
        some e
      rw [← he]
      apply find?_eraseP
      intro c hc hcid
      have hcid : c.id = id := of_decide_eq_true hcid
      exact decide_eq_false (fun hname => hne x (hcid.symm.trans ((h.entries c hc x).mpr hname)))

theorem fits_initial (pair : JackPair) (jack : Legacy.JackServer) :
    pair.Fits (JackSystem.initial jack) where
  entries e he := absurd he (by simp [JackSystem.initial])
  parked x hx := absurd hx (by simp [JackSystem.initial])
  there x hx := absurd hx (by simp [JackSystem.initial])
  link := Link.Inv.of_nobody (by simp [view, Registered, JackSystem.initial])

/-- **One step** keeps the link in order. -/
theorem Fits.step (h : pair.Fits s) (hok : pair.Meets s i) (ht : s.step i = some t) :
    pair.Fits t := by
  cases i with
  | registerPort id name =>
      rw [← Option.some.inj ht]
      exact h.change (f := fun c => c) (fun _ => ⟨rfl, rfl, rfl⟩) (List.map_id _).symm rfl rfl
        (fun _ _ hx => List.mem_append_left _ hx) (fun _ hx _ _ => hx)
  | unregisterPort id =>
      rw [← Option.some.inj ht]
      refine h.change (f := fun c => c) (fun _ => ⟨rfl, rfl, rfl⟩) (List.map_id _).symm rfl rfl
        (fun p x hx => ?_) (fun _ hx _ _ => hx)
      refine List.mem_filter.mpr ⟨hx, decide_eq_true ?_⟩
      rintro rfl
      exact hok x hx
  | connect c =>
      rw [← Option.some.inj ht]
      exact h.change (f := fun c => c) (fun _ => ⟨rfl, rfl, rfl⟩) (List.map_id _).symm rfl rfl
        (fun _ _ hx => hx) (fun _ hx _ _ => hx)
  | disconnect c =>
      rw [← Option.some.inj ht]
      exact h.change (f := fun c => c) (fun _ => ⟨rfl, rfl, rfl⟩) (List.map_id _).symm rfl rfl
        (fun _ _ hx => hx) (fun _ hx _ _ => hx)
  | portRegistered id => exact h.portNotification ht
  | portUnregistered id =>
      rw [← Option.some.inj ht]
      refine h.change (f := fun c => c) (fun _ => ⟨rfl, rfl, rfl⟩) (List.map_id _).symm rfl rfl
        (fun _ _ hx => hx) (fun fport hfport x hx => ?_)
      refine (List.mem_eraseP_of_neg ?_).mpr hfport
      intro hid
      rw [of_decide_eq_true hid] at hx
      exact hok x hx
  | graphReorder patches =>
      rw [← Option.some.inj ht]
      refine h.change (f := fun c => { c with patches := patches c.name })
        (fun _ => ⟨rfl, rfl, rfl⟩)
        rfl rfl rfl (fun _ _ hx => hx) (fun fport hfport x hx => ?_)
      refine List.mem_filter.mpr ⟨hfport, List.any_eq_true.mpr ⟨_, hx, by simp⟩⟩
  | backup =>
      rw [← Option.some.inj ht]
      exact h.change (f := fun c => { c with
        backupPatches := c.patches.map (Legacy.jackPatchSet s.mgr.clients) })
        (fun _ => ⟨rfl, rfl, rfl⟩) rfl rfl rfl (fun _ _ hx => hx) (fun _ hx _ _ => hx)
  | addClient id name patches => exact h.addClient hok.1 hok.2 ht
  | removeClient id =>
      rw [← Option.some.inj ht]
      exact h.removeClient hok

/-- **The patch comes back** in every order of start-up. -/
theorem patch_restored (pair : JackPair) {jack : Legacy.JackServer}
    (h : Runs.Reach JackSystem.step pair.Meets (JackSystem.initial jack) s)
    (hready : ∀ x, pair.Registered s x ∧ pair.full x ∈ s.notified) :
    (pair.full false, pair.full true) ∈ s.resumed := by
  have hfits : pair.Fits s := by
    refine h.invariant (I := pair.Fits) (pair.fits_initial jack) ?_
    intro t i u _ ht hok hs
    exact ht.step hok hs
  exact hfits.link.ready (fun x => (hready x).1) (fun x => (hready x).2)

end JackPair

/-! ## Both managers -/

/-- **A saved patch comes back** whatever the order of start-up: with the legacy JACK manager
always, with the ALSA manager if no copy is dropped before the port of the patch is there. -/
theorem patches_restored (alsa : AlsaPair) (jack : JackPair) :
    (∀ seq s, Runs.Reach AlsaSystem.step (fun s i => alsa.Meets s i ∧ alsa.KeepsCopy s i)
        (AlsaSystem.initial seq) s →
      (∀ x, alsa.Registered s x ∧ alsa.addr x ∈ s.announced) →
        (alsa.addr false, alsa.addr true) ∈ s.resumed) ∧
    ∀ server s, Runs.Reach JackSystem.step jack.Meets (JackSystem.initial server) s →
      (∀ x, jack.Registered s x ∧ jack.full x ∈ s.notified) →
        (jack.full false, jack.full true) ∈ s.resumed :=
  ⟨fun _ _ h hready => alsa.patch_restored h hready,
    fun _ _ h hready => jack.patch_restored h hready⟩

/-- A keyboard and a synthesizer: the first port of the one is connected to the first of the
other. -/
def keysToSynth : AlsaPair where
  id x := if x then 2 else 1
  client x := if x then 129 else 128
  port _ := 0
  ids_ne := by decide
  nonzero := by decide
  clients_ne := by decide

/-- The patch between them. -/
def keysPatch : AlsaPatch := { sender := ⟨128, 0⟩, dest := ⟨129, 0⟩, srcId := 1, destId := 2 }

theorem keys_ne_synth : cstr "keys" ≠ cstr "synth" := by decide

theorem colon_not_mem_keysToSynth (x : Bool) : colon ∉ if x then cstr "synth" else cstr "keys" := by
  cases x <;> decide

/-- The same two programs, as clients of JACK. -/
def keysToSynthJack : JackPair where
  id x := if x then 2 else 1
  name x := if x then cstr "synth" else cstr "keys"
  port _ := cstr "midi"
  ids_ne := by decide
  nonzero := by decide
  names_ne := keys_ne_synth
  colon_free := colon_not_mem_keysToSynth

def keysPatchJack : JackPatch where
  srcClient := none
  srcClientId := 1
  srcPort := cstr "midi"
  destClient := none
  destClientId := 2
  destPort := cstr "midi"

/-- The keyboard registers, the synthesizer's port comes up, it registers, and at last the
keyboard's port comes up. -/
theorem patches_restored_keys :
    (∃ s, Runs.Reach AlsaSystem.step
        (fun s i => keysToSynth.Meets s i ∧ keysToSynth.KeepsCopy s i)
          (AlsaSystem.initial ⟨[], []⟩) s ∧
      (keysToSynth.addr false, keysToSynth.addr true) ∈ s.resumed) ∧
    ∃ s, Runs.Reach JackSystem.step keysToSynthJack.Meets (JackSystem.initial ⟨[], []⟩) s ∧
      (keysToSynthJack.full false, keysToSynthJack.full true) ∈ s.resumed := by
  constructor
  · have hrun : (Runs.exec AlsaSystem.step
        (fun s i => keysToSynth.Meets s i ∧ keysToSynth.KeepsCopy s i) (AlsaSystem.initial ⟨[], []⟩)
        [.addClient 1 128 [keysPatch], .createPort ⟨129, 0⟩, .portStart ⟨129, 0⟩ true,
          .addClient 2 129 [keysPatch], .createPort ⟨128, 0⟩, .portStart ⟨128, 0⟩ true]).any
        (fun s => ∀ x, keysToSynth.Registered s x ∧ keysToSynth.addr x ∈ s.announced) = true := by
      decide +kernel
    obtain ⟨s, hs, hready⟩ := Runs.Reach.exists_of_exec hrun
    exact ⟨s, hs, (patches_restored keysToSynth keysToSynthJack).1 _ s hs
      (of_decide_eq_true hready)⟩
  · have hrun : (Runs.exec JackSystem.step keysToSynthJack.Meets (JackSystem.initial ⟨[], []⟩)
        [.addClient 1 (cstr "keys") [keysPatchJack], .registerPort 7 (cstr "synth:midi"),
          .portRegistered 7, .addClient 2 (cstr "synth") [keysPatchJack],
          .registerPort 8 (cstr "keys:midi"), .portRegistered 8]).any
        (fun s => ∀ x, keysToSynthJack.Registered s x ∧ keysToSynthJack.full x ∈ s.notified)
          = true := by
      decide +kernel
    obtain ⟨s, hs, hready⟩ := Runs.Reach.exists_of_exec hrun
    exact ⟨s, hs, (patches_restored keysToSynth keysToSynthJack).2 _ s hs
      (of_decide_eq_true hready)⟩

/-- Another port of the keyboard comes up first, and the keyboard's copy is dropped; when its own
port comes up last nobody tries. -/
theorem patch_lost :
    ∃ s, Runs.Reach AlsaSystem.step keysToSynth.Meets (AlsaSystem.initial ⟨[], []⟩) s ∧
      (∀ x, keysToSynth.Registered s x ∧ keysToSynth.addr x ∈ s.announced ∧
        keysToSynth.addr x ∈ s.seq.ports) ∧
      (keysToSynth.addr false, keysToSynth.addr true) ∉ s.resumed := by
  have hrun : (Runs.exec AlsaSystem.step keysToSynth.Meets (AlsaSystem.initial ⟨[], []⟩)
      [.addClient 1 128 [keysPatch], .createPort ⟨128, 1⟩, .portStart ⟨128, 1⟩ false,
        .addClient 2 129 [keysPatch], .createPort ⟨129, 0⟩, .portStart ⟨129, 0⟩ false,
        .createPort ⟨128, 0⟩, .portStart ⟨128, 0⟩ false]).any
      (fun s => (∀ x, keysToSynth.Registered s x ∧ keysToSynth.addr x ∈ s.announced ∧
          keysToSynth.addr x ∈ s.seq.ports) ∧
        (keysToSynth.addr false, keysToSynth.addr true) ∉ s.resumed) = true := by
    decide +kernel
  obtain ⟨s, hs, hlost⟩ := Runs.Reach.exists_of_exec hrun
  obtain ⟨hready, hlost⟩ := of_decide_eq_true hlost
  exact ⟨s, hs, hready, hlost⟩

end Lash
