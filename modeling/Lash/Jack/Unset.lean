import Lash.Jack.Legacy
import Lash.Lib.Keyed

/-!
# Putting the names back into a patch

`jack_patch_unset` is to put the JACK names of registered clients in the place of their ids, and to
fail if a client is missing. Its search leaves the loop with the client that has the id, or with the
last one of the list; what is tested after it is the list and not where the search ended. So a
missing client is taken to be the last one that registered, and the function never fails
(`connects_as_saved_iff`).
-/

namespace Lash

namespace Legacy

/-! ## The function with its result -/

/-- `client` after the loop of `jack_patch_unset_client_id`; `none` is a pointer that was never
set. -/
def searchedClient (clients : List JackMgrClient) (id : Uuid) : Option JackMgrClient :=
  (clients.find? (fun c => c.id = id)).or clients.getLast?

/-- `jack_patch_unset_client_id` and the test of `jack_patch_unset` in front of it: what it returns,
and the name of the end. The list is not NULL, so the function returns true. -/
def unsetClientId (clients : List JackMgrClient) (id : Uuid) (name : Option CStr) :
    Option (Bool × Option CStr) :=
  if id = 0 then some (true, name)
  else (searchedClient clients id).map (fun client => (true, some client.name))

/-- `jack_patch_unset`, with what it returns; `none` if it follows a pointer that was never set. -/
def unsetPatch (clients : List JackMgrClient) (patch : JackPatch) : Option (Bool × JackPatch) :=
  match unsetClientId clients patch.srcClientId patch.srcClient with
  | none => none
  | some (srcOk, srcClient) =>
    match unsetClientId clients patch.destClientId patch.destClient with
    | none => none
    | some (destOk, destClient) => some (srcOk && destOk, { patch with srcClient, destClient })

variable {clients : List JackMgrClient} {patch : JackPatch} {id : Uuid} {name client : Option CStr}

theorem unsetClientId_eq (h : unsetClientId clients id name ≠ none) :
    unsetClientId clients id name = some (true, jackPatchUnsetClientId clients id name) := by
  unfold unsetClientId jackPatchUnsetClientId at *
  by_cases hid : id = 0
  · rw [if_pos hid, if_pos hid]
  · rw [if_neg hid] at h
    rw [if_neg hid, if_neg hid]
    unfold searchedClient at *
    cases hc : (clients.find? (fun c => c.id = id)).or clients.getLast? with
    | none =>
        rw [hc] at h
        exact absurd rfl h
    | some c => rfl

/-- Where it returns, it returns true and the patch of `jackPatchUnset`. -/
theorem unsetPatch_eq {r : Bool × JackPatch} (h : unsetPatch clients patch = some r) :
    r = (true, jackPatchUnset clients patch) := by
  unfold unsetPatch at h
  have hsrc : unsetClientId clients patch.srcClientId patch.srcClient ≠ none := by
    intro hnone
    rw [hnone] at h
    exact absurd h (by simp)
  rw [unsetClientId_eq hsrc] at h
  have hdest : unsetClientId clients patch.destClientId patch.destClient ≠ none := by
    intro hnone
    rw [hnone] at h
    exact absurd h (by simp)
  rw [unsetClientId_eq hdest] at h
  exact (Option.some.inj h).symm

/-! ## What it should do -/

/-- A client with the id is registered. -/
def IsRegistered (clients : List JackMgrClient) (id : Uuid) : Prop := ∃ c ∈ clients, c.id = id

/-- The name that an end should get: that of the client with its id, if it has one and the client is
registered, else the one it had. -/
def EndName (clients : List JackMgrClient) (id : Uuid) (name client : Option CStr) : Prop :=
  (∀ c ∈ clients, id ≠ 0 → c.id = id → client = some c.name) ∧
    (id = 0 ∨ ¬ IsRegistered clients id → client = name)

/-- Every id of a patch is that of a registered client. -/
def EndsRegistered (clients : List JackMgrClient) (patch : JackPatch) : Prop :=
  (patch.srcClientId ≠ 0 → IsRegistered clients patch.srcClientId) ∧
    (patch.destClientId ≠ 0 → IsRegistered clients patch.destClientId)

/-- What `jack_patch_unset` should do: return whether every client was found, and give each end its
name. -/
def UnsetCorrect (clients : List JackMgrClient) (patch : JackPatch) : Prop :=
  ∃ ok result, unsetPatch clients patch = some (ok, result) ∧
    (ok = true ↔ EndsRegistered clients patch) ∧
    EndName clients patch.srcClientId patch.srcClient result.srcClient ∧
    EndName clients patch.destClientId patch.destClient result.destClient ∧
    result = { patch with srcClient := result.srcClient, destClient := result.destClient }

/-! ## When it does -/

/-- The client of an end is the first with the id. -/
theorem searchedClient_eq (h : IsRegistered clients id) :
    ∃ c ∈ clients, c.id = id ∧ searchedClient clients id = some c := by
  obtain ⟨c, hc, hid⟩ := h
  cases hfind : clients.find? (fun c => c.id = id) with
  | none => exact absurd hid (by simpa using List.find?_eq_none.mp hfind c hc)
  | some d =>
      refine ⟨d, List.mem_of_find?_eq_some hfind, by simpa using List.find?_some hfind, ?_⟩
      rw [searchedClient, hfind, Option.some_or]

/-- An end is done right if its client is registered. -/
theorem unsetClientId_of_registered (name : Option CStr)
    (hdist : (clients.map JackMgrClient.id).Nodup) (h : id ≠ 0 → IsRegistered clients id) :
    ∃ client, unsetClientId clients id name = some (true, client) ∧
      EndName clients id name client := by
  by_cases hid : id = 0
  · refine ⟨name, if_pos hid, fun c _ hne _ => absurd hid hne, fun _ => rfl⟩
  · obtain ⟨d, hd, hdid, hsearch⟩ := searchedClient_eq (h hid)
    refine ⟨some d.name, ?_, ?_, ?_⟩
    · rw [unsetClientId, if_neg hid, hsearch, Option.map_some]
    · intro c hc _ hcid
      have heq : c = d := Keyed.eq_of_key_eq hdist hc hd (hcid.trans hdid.symm)
      rw [heq]
    · rintro (hzero | hnot)
      · exact absurd hzero hid
      · exact absurd (h hid) hnot

/-- **`jack_patch_unset` is right** exactly if every client is registered. -/
theorem unsetCorrect_iff (hdist : (clients.map JackMgrClient.id).Nodup) :
    UnsetCorrect clients patch ↔ EndsRegistered clients patch := by
  constructor
  · rintro ⟨ok, result, hunset, hok, -⟩
    have htrue : ok = true := congrArg Prod.fst (unsetPatch_eq hunset)
    exact hok.mp htrue
  · intro h
    obtain ⟨src, hsrc, hsrcName⟩ := unsetClientId_of_registered patch.srcClient hdist h.1
    obtain ⟨dest, hdest, hdestName⟩ := unsetClientId_of_registered patch.destClient hdist h.2
    refine ⟨true, { patch with srcClient := src, destClient := dest }, ?_, ?_, hsrcName, hdestName,
      rfl⟩
    · rw [unsetPatch, hsrc]
      dsimp only
      rw [hdest]
      rfl
    · exact ⟨fun _ => h, fun _ => rfl⟩

/-! ## What is connected -/

namespace JackSystem

variable {s t : JackSystem} {portName port : CStr} {patches kept : List JackPatch}

/-- A connection is the one that was saved: each end that has an id is the client with this id. -/
def SavedAs (clients : List JackMgrClient) (patch : JackPatch) (connection : CStr × CStr) : Prop :=
  ∃ src dest, EndName clients patch.srcClientId patch.srcClient src ∧
    EndName clients patch.destClientId patch.destClient dest ∧ EndsRegistered clients patch ∧
    connection = (patchDesc src patch.srcClientId patch.srcPort,
      patchDesc dest patch.destClientId patch.destPort)

/-- What `jack_mgr_new_client_port` connects are old patches, each as it was saved. -/
def ConnectsAsSaved (s : JackSystem) (name port : CStr) (patches : List JackPatch) : Prop :=
  ∀ t kept, newClientPort name port s patches = some (t, kept) →
    ∃ made, t.resumed = s.resumed ++ made ∧
      ∀ connection ∈ made, ∃ patch ∈ patches, SavedAs s.mgr.clients patch connection

/-- One patch is resumed, or nothing is connected. -/
theorem resumePatch_resumed (s : JackSystem) (patch : JackPatch) :
    (s.resumePatch patch).1.mgr = s.mgr ∧
      ∃ made, (s.resumePatch patch).1.resumed = s.resumed ++ made ∧
        ∀ connection ∈ made,
          connection = (patchDesc patch.srcClient patch.srcClientId patch.srcPort,
          patchDesc patch.destClient patch.destClientId patch.destPort) := by
  unfold resumePatch
  dsimp only
  split
  · refine ⟨rfl, [_], rfl, fun connection h => List.mem_singleton.mp h⟩
  · exact ⟨rfl, [], (List.append_nil _).symm, fun connection h => absurd h List.not_mem_nil⟩

/-- A patch whose clients are registered is connected as it was saved. -/
theorem savedAs_unset (hdist : (s.mgr.clients.map JackMgrClient.id).Nodup)
    (h : EndsRegistered s.mgr.clients patch) :
    SavedAs s.mgr.clients patch
      (patchDesc (jackPatchUnset s.mgr.clients patch).srcClient patch.srcClientId patch.srcPort,
        patchDesc (jackPatchUnset s.mgr.clients patch).destClient patch.destClientId
          patch.destPort) := by
  obtain ⟨ok, result, hunset, -, hsrc, hdest, -⟩ := (unsetCorrect_iff hdist).mpr h
  have hresult : result = jackPatchUnset s.mgr.clients patch :=
    congrArg Prod.snd (unsetPatch_eq hunset)
  rw [hresult] at hsrc hdest
  exact ⟨_, _, hsrc, hdest, h, rfl⟩

/-- If the clients of all old patches are registered, the connections are those that were saved. -/
theorem connectsAsSaved_of_registered (hdist : (s.mgr.clients.map JackMgrClient.id).Nodup)
    (h : ∀ patch ∈ patches, EndsRegistered s.mgr.clients patch) :
    ConnectsAsSaved s portName port patches := by
  induction patches generalizing s with
  | nil =>
      intro t kept hrun
      obtain ⟨rfl, -⟩ := Prod.mk.inj (Option.some.inj hrun)
      exact ⟨[], (List.append_nil _).symm, fun _ hc => absurd hc List.not_mem_nil⟩
  | cons patch rest ih =>
      intro t kept hrun
      have hrest : ∀ q ∈ rest, EndsRegistered s.mgr.clients q :=
        fun q hq => h q (List.mem_cons_of_mem _ hq)
      rw [newClientPort] at hrun
      dsimp only at hrun
      cases hmatch : portMatches portName port (jackPatchUnset s.mgr.clients patch) with
      | none =>
          rw [hmatch] at hrun
          exact absurd hrun (by simp)
      | some b =>
          rw [hmatch] at hrun
          cases b with
          | false =>
              -- the port is no end of the patch, which stays as it is
              obtain ⟨⟨u, k⟩, hu, heq⟩ := Option.map_eq_some_iff.mp hrun
              obtain ⟨rfl, -⟩ := Prod.mk.inj heq
              obtain ⟨made, hmade, hsaved⟩ := ih hdist hrest u k hu
              refine ⟨made, hmade, fun connection hc => ?_⟩
              obtain ⟨q, hq, hsavedq⟩ := hsaved connection hc
              exact ⟨q, List.mem_cons_of_mem _ hq, hsavedq⟩
          | true =>
              obtain ⟨⟨u, k⟩, hu, heq⟩ := Option.map_eq_some_iff.mp hrun
              have hut : u = t := by
                dsimp only at heq
                split at heq
                · exact (Prod.mk.inj heq).1
                · exact (Prod.mk.inj heq).1
              rw [← hut]
              obtain ⟨hmgr, first, hfirst, hconn⟩ :=
                s.resumePatch_resumed (jackPatchUnset s.mgr.clients patch)
              rw [← hmgr] at hdist hrest
              obtain ⟨made, hmade, hsaved⟩ := ih hdist hrest u k hu
              refine ⟨first ++ made, ?_, fun connection hc => ?_⟩
              · rw [hmade, hfirst, List.append_assoc]
              · rcases List.mem_append.mp hc with hc | hc
                · refine ⟨patch, List.mem_cons_self, ?_⟩
                  rw [hconn connection hc]
                  rw [hmgr] at hdist
                  exact savedAs_unset hdist (h patch List.mem_cons_self)
                · obtain ⟨q, hq, hsavedq⟩ := hsaved connection hc
                  rw [hmgr] at hsavedq
                  exact ⟨q, List.mem_cons_of_mem _ hq, hsavedq⟩

/-- **Old patches are resolved and connected as they were saved** exactly if every client that they
name by its id is registered. -/
theorem connects_as_saved_iff (s : JackSystem) (name port : CStr) (patches : List JackPatch)
    (hdist : (s.mgr.clients.map JackMgrClient.id).Nodup) :
    ((∀ patch ∈ patches, UnsetCorrect s.mgr.clients patch) ∧ ConnectsAsSaved s name port patches) ↔
      ∀ patch ∈ patches, EndsRegistered s.mgr.clients patch := by
  constructor
  · intro h patch hp
    exact (unsetCorrect_iff hdist).mp (h.1 patch hp)
  · intro h
    exact ⟨fun patch hp => (unsetCorrect_iff hdist).mpr (h patch hp),
      connectsAsSaved_of_registered hdist h⟩

/-- A synthesizer with the id 1 has registered, and its two ports are there. -/
def synthAlone : JackSystem where
  jack := { ports := [(1, cstr "synth:out"), (2, cstr "synth:in")], connections := [] }
  mgr := { clients := [jackMgrClientNew 1 (cstr "synth") []], foreignPorts := [] }
  notified := []
  resumed := []

/-- A patch from the synthesizer to the client with the id 2. -/
def toOther : JackPatch where
  srcClient := none
  srcClientId := 1
  srcPort := cstr "out"
  destClient := none
  destClientId := 2
  destPort := cstr "in"

/-- The synthesizer is connected to itself while the other client is still missing. -/
theorem connects_to_wrong_client :
    (synthAlone.mgr.clients.map JackMgrClient.id).Nodup ∧
      ¬ UnsetCorrect synthAlone.mgr.clients toOther ∧
      ¬ ConnectsAsSaved synthAlone (cstr "synth") (cstr "out") [toOther] := by
  have hmissing : ¬ EndsRegistered synthAlone.mgr.clients toOther := by
    intro h
    obtain ⟨c, hc, hid⟩ := h.2 (by decide)
    rw [List.mem_singleton.mp hc] at hid
    exact absurd hid (by decide)
  refine ⟨by decide, fun h => hmissing ((unsetCorrect_iff (by decide)).mp h), fun h => ?_⟩
  have hrun : (newClientPort (cstr "synth") (cstr "out") synthAlone [toOther]).map
      (fun t => t.1.resumed) = some [(cstr "synth:out", cstr "synth:in")] := by decide +kernel
  obtain ⟨⟨t, kept⟩, ht, hresumed⟩ := Option.map_eq_some_iff.mp hrun
  obtain ⟨made, hmade, hsaved⟩ := h t kept ht
  have hmem : (cstr "synth:out", cstr "synth:in") ∈ made := by
    have heq : made = [(cstr "synth:out", cstr "synth:in")] := by
      rw [← hresumed]
      exact hmade.symm
    rw [heq]
    exact List.mem_cons_self
  obtain ⟨patch, hp, src, dest, -, -, hregistered, -⟩ := hsaved _ hmem
  rw [List.mem_singleton.mp hp] at hregistered
  exact hmissing hregistered

/-- The patch is connected rightly once the other client has registered. -/
theorem connects_as_saved_both :
    ((∀ patch ∈ [toOther], UnsetCorrect [jackMgrClientNew 1 (cstr "synth") [],
          jackMgrClientNew 2 (cstr "fx") []] patch) ∧
        ConnectsAsSaved { synthAlone with mgr := { synthAlone.mgr with
            clients := [jackMgrClientNew 1 (cstr "synth") [], jackMgrClientNew 2 (cstr "fx") []] } }
          (cstr "synth") (cstr "out") [toOther]) ↔
      ∀ patch ∈ [toOther], EndsRegistered [jackMgrClientNew 1 (cstr "synth") [],
        jackMgrClientNew 2 (cstr "fx") []] patch :=
  connects_as_saved_iff { synthAlone with mgr := { synthAlone.mgr with
    clients := [jackMgrClientNew 1 (cstr "synth") [], jackMgrClientNew 2 (cstr "fx") []] } }
    (cstr "synth") (cstr "out") [toOther] (by decide)

end JackSystem

end Legacy

end Lash
