import Lash.Handover
import Lash.Alsa.Patch
import Lash.Jack.Legacy

/-!
# Collecting the patches of a client

`alsa_mgr_get_client_patches` and `jack_mgr_client_dup_uniq_patches` copy the current patches of a
client to a list of their own, and lead the copies one by one over to the list of the caller,
unless it has an equal one already. A node that is led over stays linked to by the node in front
of it, and is not linked to the node behind it any more. That does not matter: the node behind has
been read before, and nobody goes back (`patches_collected`).
-/

namespace Lash

open First

variable {E D K : Type}

/-! ## What the two managers do with a patch -/

/-- What is done to a copy: the ids of its clients are set, with a search in the list of clients,
and it is compared to the copies that are kept. -/
structure PatchKind (E D : Type) where
  set : ((E → Except MemoryFault Bool) → Except MemoryFault (Option Uuid)) → D →
    Except MemoryFault D
  same : D → D → Except MemoryFault Bool

/-- `alsa_patch_set`, `alsa_patch_compare` -/
def alsaKind {σ : Type} (api : SubscribeApi σ) : PatchKind UInt8 (SubPatch σ) where
  set search patch := do
    let src ← search (fun clientId => return clientId = (api.get patch.sub).sender.client)
    let patch := { patch with srcId := src.getD patch.srcId }
    let dest ← search (fun clientId => return clientId = (api.get patch.sub).dest.client)
    return { patch with destId := dest.getD patch.destId }
  same a b := return SubPatch.compare api a b

/-- `strcmp(a, b) == 0`, which follows NULL pointers. -/
def sameString (a b : Option CStr) : Except MemoryFault Bool :=
  match a, b with
  | some a, some b => .ok (a = b)
  | _, _ => .error .invalid

/-- `jack_patch_set`, and the comparison in `jack_mgr_client_dup_uniq_patches`. -/
def jackKind : PatchKind CStr JackPatch where
  set search patch := do
    let src ← search (fun name => sameString (some name) patch.srcClient)
    let patch := { patch with srcClientId := src.getD patch.srcClientId }
    let dest ← search (fun name => sameString (some name) patch.destClient)
    return { patch with destClientId := dest.getD patch.destClientId }
  same a b := do
    if !(← sameString a.srcClient b.srcClient) then return false
    if a.srcPort ≠ b.srcPort then return false
    if !(← sameString a.destClient b.destClient) then return false
    return a.destPort = b.destPort

namespace Memory

/-! ## The functions -/

/-- The test of a node in `alsa_patch_set_client_id` and `jack_patch_set_client_id`. -/
def dataIs (test : E → Except MemoryFault Bool) (m : Memory (Uuid × E) D) (node : Ptr) :
    Except MemoryFault Bool := do
  let client ← m.clientAt node
  test client.2.2

/-- The search of `alsa_patch_set_client_id` and `jack_patch_set_client_id`. -/
def idOf (fuel : Nat) (m : Memory (Uuid × E) D) (test : E → Except MemoryFault Bool) :
    Except MemoryFault (Option Uuid) := do
  let pos ← m.next .clients
  match ← m.listForEach .clients (dataIs test) fuel pos with
  | none => return none
  | some node => do
    let client ← m.clientAt node
    return some client.2.1

/-- `alsa_patch_dup`, `jack_patch_dup` -/
def patchDup (m : Memory (Uuid × E) D) (d : D) : Nat × Memory (Uuid × E) D :=
  (m.brk, { m with patch := Function.update m.patch m.brk (some d), brk := m.brk + 1 })

/-- The body of the loop in `dupPatches`. -/
def dupPatch (head : Ptr) (m : Memory (Uuid × E) D) (node : Ptr) :
    Except MemoryFault (Memory (Uuid × E) D) := do
  let patch ← m.patchAt node
  let copy := m.patchDup patch.2
  copy.2.listAddTail (.patch copy.1) head

/-- `alsa_client_dup_patches`, `jack_mgr_client_dup_patch_list` -/
def dupPatches (fuel : Nat) (m : Memory (Uuid × E) D) (src head : Ptr) :
    Except MemoryFault (Memory (Uuid × E) D) := do
  let pos ← m.next src
  listForEachDo src (dupPatch head) fuel m pos

/-- The comparison of a copy with one that is kept. -/
def sameAs (kind : PatchKind E D) (d : D) (m : Memory (Uuid × E) D) (node : Ptr) :
    Except MemoryFault Bool := do
  let kept ← m.patchAt node
  kind.same d kept.2

/-- The body of the loop over the copies. -/
def collectPatch (kind : PatchKind E D) (fuel : Nat) (m : Memory (Uuid × E) D) (node : Ptr) :
    Except MemoryFault (Memory (Uuid × E) D) := do
  let patch ← m.patchAt node
  let d ← kind.set (m.idOf fuel) patch.2
  let m := { m with patch := Function.update m.patch patch.1 (some d) }
  let pos ← m.next .dest
  match ← m.listForEach .dest (sameAs kind d) fuel pos with
  | some _ => m.patchDestroy patch.1
  | none => m.listAddTail (.patch patch.1) .dest

/-- The body of both functions. -/
def getClientPatches (kind : PatchKind E D) (fuel : Nat) (m : Memory (Uuid × E) D) (id : Uuid) :
    Except MemoryFault (Memory (Uuid × E) D) := do
  let m ← m.initListHead .patches
  match ← m.findClient fuel id with
  | none => return m
  | some c => do
    let m ← m.dupPatches fuel (.list c .patches) .patches
    m.forEachSafe fuel .patches (collectPatch kind fuel)

/-- `alsa_mgr_get_client_patches` -/
def alsaMgrGetClientPatches {σ : Type} (api : SubscribeApi σ) (fuel : Nat)
    (m : Memory (Uuid × UInt8) (SubPatch σ)) (id : Uuid) :
    Except MemoryFault (Memory (Uuid × UInt8) (SubPatch σ)) :=
  m.getClientPatches (alsaKind api) fuel id

/-- `jack_mgr_client_dup_uniq_patches` -/
def jackMgrClientDupUniqPatches (fuel : Nat) (m : Memory (Uuid × CStr) JackPatch) (id : Uuid) :
    Except MemoryFault (Memory (Uuid × CStr) JackPatch) := m.getClientPatches jackKind fuel id

end Memory

/-! ## What the two kinds have in common -/

/-- The id of the first client that passes a test. -/
def registeredId (clients : List (MgrClient E)) (t : E → Bool) : Option Uuid :=
  (clients.find? (fun c => t c.data)).map MgrClient.id

/-- Where no NULL string is met: the ids that are set are those of registered clients, and two
patches compare equal if they have the same key. Setting the ids leaves the key alone. -/
structure PatchKind.Lawful [DecidableEq K] (kind : PatchKind E D)
    (annotate : ((E → Bool) → Option Uuid) → D → D) (key : D → K) (good : D → Prop) : Prop where
  set : ∀ search found d, good d →
    (∀ test t, (∀ e, test e = .ok (t e)) → search test = .ok (found t)) →
      kind.set search d = .ok (annotate found d)
  same : ∀ a b, good a → good b → kind.same a b = .ok (decide (key a = key b))
  good : ∀ found d, good d → good (annotate found d)
  key : ∀ found d, key (annotate found d) = key d

/-- An ALSA patch with the ids of its clients. -/
def alsaAnnotate {σ : Type} (api : SubscribeApi σ) (found : (UInt8 → Bool) → Option Uuid)
    (patch : SubPatch σ) : SubPatch σ :=
  { patch with
    srcId := (found (fun c => c = (api.get patch.sub).sender.client)).getD patch.srcId
    destId := (found (fun c => c = (api.get patch.sub).dest.client)).getD patch.destId }

theorem alsaKind_lawful {σ : Type} (api : SubscribeApi σ) :
    (alsaKind api).Lawful (alsaAnnotate api) (fun patch => api.get patch.sub) (fun _ => True) where
  set search found patch _ h := by
    have hsrc := h (fun c => .ok (decide (c = (api.get patch.sub).sender.client)))
      (fun c => c = (api.get patch.sub).sender.client) (fun _ => rfl)
    have hdest := h (fun c => .ok (decide (c = (api.get patch.sub).dest.client)))
      (fun c => c = (api.get patch.sub).dest.client) (fun _ => rfl)
    simp only [alsaKind, pure, Except.pure, bind, Except.bind]
    rw [hsrc]
    dsimp only
    rw [hdest]
    rfl
  same a b _ _ := congrArg Except.ok (SubPatch.compare_eq api a b)
  good _ _ _ := trivial
  key _ _ := rfl

/-- Both names of a patch are there, as in each that `jack_mgr_get_patches_with_type` makes. -/
def JackPatch.Named (patch : JackPatch) : Prop := patch.srcClient ≠ none ∧ patch.destClient ≠ none

/-- The ends of a JACK patch. -/
def JackPatch.ends (patch : JackPatch) : Option CStr × CStr × Option CStr × CStr :=
  (patch.srcClient, patch.srcPort, patch.destClient, patch.destPort)

/-- A JACK patch with the ids of its clients. -/
def jackAnnotate (found : (CStr → Bool) → Option Uuid) (patch : JackPatch) : JackPatch :=
  { patch with
    srcClientId := (found (fun name => some name = patch.srcClient)).getD patch.srcClientId
    destClientId := (found (fun name => some name = patch.destClient)).getD patch.destClientId }

theorem sameString_eq {a b : Option CStr} (ha : a ≠ none) (hb : b ≠ none) :
    sameString a b = .ok (decide (a = b)) := by
  obtain ⟨a, rfl⟩ := Option.ne_none_iff_exists'.mp ha
  obtain ⟨b, rfl⟩ := Option.ne_none_iff_exists'.mp hb
  simp [sameString]

theorem jackKind_lawful : jackKind.Lawful jackAnnotate JackPatch.ends JackPatch.Named where
  set search found patch hgood h := by
    have hsrc := h (fun name => sameString (some name) patch.srcClient)
      (fun name => some name = patch.srcClient) (fun _ => sameString_eq (by simp) hgood.1)
    have hdest := h (fun name => sameString (some name) patch.destClient)
      (fun name => some name = patch.destClient) (fun _ => sameString_eq (by simp) hgood.2)
    simp only [jackKind, bind, Except.bind]
    rw [hsrc]
    dsimp only
    rw [hdest]
    rfl
  same a b ha hb := by
    simp only [jackKind, bind, Except.bind, pure, Except.pure]
    rw [sameString_eq ha.1 hb.1]
    dsimp only
    rw [sameString_eq ha.2 hb.2]
    unfold JackPatch.ends
    by_cases h₁ : a.srcClient = b.srcClient
    · by_cases h₂ : a.srcPort = b.srcPort
      · by_cases h₃ : a.destClient = b.destClient
        · simp [h₁, h₂, h₃]
        · simp [h₁, h₂, h₃]
      · simp [h₁, h₂]
    · simp [h₁]
  good _ _ h := h
  key _ _ := rfl

/-! ## What collecting leaves alone -/

/-- A link that was there before: it lies in a struct of the manager, or in a patch below `brk`. -/
def Ptr.Old (brk : Nat) : Ptr → Prop
  | .patch q => q < brk
  | .patches | .dest => False
  | _ => True

/-- Nothing that was there before has changed. -/
structure LeavesOld (m₀ m : Memory (Uuid × E) D) : Prop where
  client : m.client = m₀.client
  patch : ∀ q < m₀.brk, m.patch q = m₀.patch q
  links : ∀ p, p.Old m₀.brk → m₀.links.Alike m.links p

/-- The addresses from `brk` on are not in use. -/
def Memory.Fresh (m : Memory (Uuid × E) D) : Prop := ∀ q, m.brk ≤ q → m.patch q = none

variable {m m₀ m' : Memory (Uuid × E) D} {lists : List PatchList} {clients : List (MgrClient E)}
  {c : MgrClient E} {fuel : Nat} {current copies : List D}

theorem LeavesOld.refl (m : Memory (Uuid × E) D) : LeavesOld m m :=
  ⟨rfl, fun _ _ => rfl, fun _ _ => ⟨rfl, rfl⟩⟩

/-- A patch of a list is below `brk`. -/
theorem MgrHolds.lt_brk (h : MgrHolds lists m clients) (hfresh : m.Fresh) (hc : c ∈ clients)
    {q : Nat} (hq : q ∈ c.patches lists) : q < m.brk := by
  by_contra hnot
  obtain ⟨w, hw, hq⟩ := List.mem_flatMap.mp hq
  have hlive := (h.held c hc).live w hw q hq
  rw [hfresh q (Nat.le_of_not_lt hnot)] at hlive
  exact absurd hlive (by simp)

/-- So the manager has what it had. -/
theorem LeavesOld.holds (hk : LeavesOld m₀ m) (h : MgrHolds lists m₀ clients) (hfresh : m₀.Fresh) :
    MgrHolds lists m clients where
  ring := by
    refine h.ring.alike fun p hp => hk.links p ?_
    rcases List.mem_cons.mp hp with rfl | hp
    · exact trivial
    · obtain ⟨c, -, rfl⟩ := List.mem_map.mp hp
      exact trivial
  held c hc := by
    refine (h.held c hc).same (congrFun hk.client _) ?_ ?_
    · exact fun q hq => hk.patch q (h.lt_brk hfresh hc hq)
    · rintro p (⟨w, rfl⟩ | ⟨q, hq, rfl⟩)
      · exact hk.links _ trivial
      · exact hk.links _ (h.lt_brk hfresh hc hq)
  distinct := h.distinct

/-- Adding a new patch to a list of new ones changes nothing old. -/
theorem LeavesOld.insert (hk : LeavesOld m₀ m) {x prev next : Ptr} (hx : ¬ x.Old m₀.brk)
    (hprev : ¬ prev.Old m₀.brk) (hnext : ¬ next.Old m₀.brk) :
    LeavesOld m₀ { m with links := m.links.insert x prev next } where
  client := hk.client
  patch := hk.patch
  links p hp := by
    refine (hk.links p hp).trans (Links.alike_insert ?_ ?_ ?_)
    · rintro rfl
      exact hx hp
    · rintro rfl
      exact hprev hp
    · rintro rfl
      exact hnext hp

/-- Writing, making or destroying a new patch changes nothing old. -/
theorem LeavesOld.update (hk : LeavesOld m₀ m) {q : Nat} (hq : m₀.brk ≤ q) (d : Option D)
    (brk : Nat) :
    LeavesOld m₀ { m with patch := Function.update m.patch q d, brk := brk } where
  client := hk.client
  patch r hr := by
    have hne : r ≠ q := by omega
    exact (Function.update_of_ne hne _ _).trans (hk.patch r hr)
  links := hk.links

/-! ## The search for an id -/

/-- The id of the first client that passes the test is found. -/
theorem MgrHolds.idOf (h : MgrHolds lists m clients) {test : E → Except MemoryFault Bool}
    {t : E → Bool} (htest : ∀ e, test e = .ok (t e)) (hfuel : clients.length < fuel) :
    m.idOf fuel test = .ok (registeredId clients t) := by
  have hnode : ∀ d ∈ clients, Memory.dataIs test m (.client d.addr) = .ok (t d.data) := by
    intro d hd
    rw [Memory.dataIs, h.clientAt hd]
    exact htest d.data
  obtain ⟨hnext, hsearch⟩ := h.search (t := fun d => t d.2) hnode hfuel
  unfold Memory.idOf
  rw [hnext]
  simp only [bind, Except.bind]
  rw [hsearch]
  unfold registeredId
  cases hfind : clients.find? (fun d => t d.data) with
  | none => rfl
  | some d =>
      dsimp only [Option.map_some]
      rw [h.clientAt (List.mem_of_find?_eq_some hfind)]
      rfl

/-! ## Copying -/

/-- The copies of some patches are linked to a head, and nothing old has changed. -/
structure Copied (m₀ m : Memory (Uuid × E) D) (done : List Nat) (news : List Nat) : Prop where
  keeps : LeavesOld m₀ m
  ring : m.links.Ring .patches (patchNodes news)
  dest : m.links.Ring .dest []
  old : m₀.brk ≤ m.brk
  range : ∀ q ∈ news, m₀.brk ≤ q ∧ q < m.brk
  contents : news.map m.patch = done.map m₀.patch

variable {done news : List Nat}

/-- One patch is copied. -/
theorem Copied.step (h : Copied m₀ m done news) (hlive : ∀ q ∈ done, (m₀.patch q).isSome = true)
    {a : Nat} (ha : a < m₀.brk) (halive : (m₀.patch a).isSome = true) :
    ∃ m', m.dupPatch .patches (.patch a) = .ok m' ∧
      Copied m₀ m' (done ++ [a]) (news ++ [m.brk]) := by
  obtain ⟨d, hd⟩ := Option.isSome_iff_exists.mp halive
  have hat : m.patchAt (.patch a) = .ok (a, d) := by
    rw [Memory.patchAt, h.keeps.patch a ha, hd]
  have hnew : m.brk ∉ news := fun hmem => Nat.lt_irrefl _ (h.range _ hmem).2
  have hcopyLive : ∀ q ∈ news, (m.patch q).isSome = true := by
    intro q hq
    have hmem : m.patch q ∈ done.map m₀.patch := by
      rw [← h.contents]
      exact List.mem_map_of_mem hq
    obtain ⟨r, hr, heq⟩ := List.mem_map.mp hmem
    rw [← heq]
    exact hlive r hr
  -- the last node of the copies is the head or a copy
  have hlast : m.links.prev .patches ∈ .patches :: patchNodes news :=
    h.ring.prev_mem List.mem_cons_self
  have hlastOld : ¬ (m.links.prev .patches).Old m₀.brk := by
    rcases List.mem_cons.mp hlast with heq | hmem
    · rw [heq]
      exact fun h => h
    · obtain ⟨q, hq, heq⟩ := mem_patchNodes.mp hmem
      rw [heq]
      exact Nat.not_lt.mpr (h.range q hq).1
  have hlastDest : m.links.prev .patches ≠ .dest := by
    intro heq
    rw [heq] at hlast
    simp [patchNodes] at hlast
  have hlastValid : (m.patchDup d).2.valid (m.links.prev .patches) = true := by
    rcases List.mem_cons.mp hlast with heq | hmem
    · rw [heq]
      rfl
    · obtain ⟨q, hq, heq⟩ := mem_patchNodes.mp hmem
      have hne : q ≠ m.brk := fun heq => hnew (heq ▸ hq)
      rw [heq]
      show (Function.update m.patch m.brk (some d) q).isSome = true
      rw [Function.update_of_ne hne]
      exact hcopyLive q hq
  have hnewValid : (m.patchDup d).2.valid (.patch m.brk) = true := by
    show (Function.update m.patch m.brk (some d) m.brk).isSome = true
    rw [Function.update_self]
    rfl
  have hadd : (m.patchDup d).2.listAddTail (.patch m.brk) .patches = .ok { (m.patchDup d).2 with
      links := m.links.insert (.patch m.brk) (m.links.prev .patches) .patches } :=
    Memory.listAddTail_eq rfl hlastValid hnewValid
  refine ⟨{ (m.patchDup d).2 with
    links := m.links.insert (.patch m.brk) (m.links.prev .patches) .patches }, ?_,
      ⟨?_, ?_, ?_, ?_, ?_, ?_⟩⟩
  · unfold Memory.dupPatch
    rw [hat]
    exact hadd
  · refine (h.keeps.update h.old (some d) (m.brk + 1)).insert ?_ hlastOld (fun h => h)
    exact Nat.not_lt.mpr h.old
  · show (m.links.insert (.patch m.brk) (m.links.prev .patches) .patches).Ring _ _
    unfold patchNodes
    rw [List.map_append]
    refine h.ring.insert_last ?_
    simpa [patchNodes] using hnew
  · refine h.dest.alike fun p hp => ?_
    rw [List.mem_singleton.mp hp]
    exact Links.alike_insert (by simp) hlastDest.symm (by simp)
  · exact Nat.le_succ_of_le h.old
  · intro q hq
    rcases List.mem_append.mp hq with hq | hq
    · exact ⟨(h.range q hq).1, Nat.lt_succ_of_lt (h.range q hq).2⟩
    · rw [List.mem_singleton.mp hq]
      exact ⟨h.old, Nat.lt_succ_self _⟩
  · rw [List.map_append, List.map_append, ← h.contents]
    congr 1
    · refine List.map_congr_left fun q hq => ?_
      exact Function.update_of_ne (fun heq : q = m.brk => hnew (heq ▸ hq)) _ _
    · show [Function.update m.patch m.brk (some d) m.brk] = [m₀.patch a]
      rw [Function.update_self, hd]

/-- The patches of a list are copied. -/
theorem dupPatches_copied (h : MgrHolds lists m clients) (hfresh : m.Fresh) (hc : c ∈ clients)
    (hw : .patches ∈ lists) (hlocal : m.links.Ring .patches []) (hdest : m.links.Ring .dest [])
    (hfuel : (c.lists .patches).length < fuel) :
    ∃ m' news, m.dupPatches fuel (.list c.addr .patches) .patches = .ok m' ∧
      Copied m m' (c.lists .patches) news := by
  have hring := (h.held c hc).rings .patches hw
  have hlive := (h.held c hc).live .patches hw
  have hlt : ∀ q ∈ c.lists .patches, q < m.brk :=
    fun q hq => h.lt_brk hfresh hc (List.mem_flatMap.mpr ⟨.patches, hw, hq⟩)
  let I (l : List Ptr) (m' : Memory (Uuid × E) D) : Prop :=
    ∃ done rest news, done ++ rest = c.lists .patches ∧ l = patchNodes rest ∧ Copied m m' done news
  have hloop : ∃ m', Memory.listForEachDo (.list c.addr .patches) (Memory.dupPatch .patches) fuel m
      ((patchNodes (c.lists .patches)).head?.getD (.list c.addr .patches)) = .ok m' ∧ I [] m' := by
    refine Memory.listForEachDo_run I ?_ ⟨[], _, [], rfl, rfl, ?_⟩ ?_
    · rintro x l m' ⟨done, rest, news, hsplit, hl, hcopied⟩
      cases rest with
      | nil => exact absurd hl (List.cons_ne_nil x l)
      | cons a rest =>
          obtain ⟨rfl, rfl⟩ := List.cons.inj hl
          have hmem : ∀ q ∈ done ++ a :: rest, q ∈ c.lists .patches := fun q hq => hsplit ▸ hq
          have ha := hmem a (by simp)
          obtain ⟨m'', hdup, hcopied'⟩ := hcopied.step
            (fun q hq => hlive q (hmem q (List.mem_append_left _ hq))) (hlt a ha) (hlive a ha)
          refine ⟨by simp, m'', hdup, ⟨done ++ [a], rest, _, ?_, rfl, hcopied'⟩, ?_⟩
          · rw [List.append_assoc]
            exact hsplit
          · have hvalid : m''.valid (.patch a) = true := by
              show (m''.patch a).isSome = true
              rw [hcopied'.keeps.patch a (hlt a ha)]
              exact hlive a ha
            rw [Memory.next_eq hvalid, ← (hcopied'.keeps.links (.patch a) (hlt a ha)).1]
            have hpath := hring.next
            rw [← hsplit, List.map_append, List.map_cons] at hpath
            exact congrArg Except.ok (LeadsOver.append.mp hpath).2.head_eq
    · exact ⟨.refl m, hlocal, hdest, Nat.le_refl _, fun q hq => absurd hq List.not_mem_nil, rfl⟩
    · rw [patchNodes, List.length_map]
      exact hfuel
  obtain ⟨m', hrun, done, rest, news, hsplit, hnil, hcopied⟩ := hloop
  have hall : done = c.lists .patches := by
    have hrest : rest = [] := List.map_eq_nil_iff.mp hnil.symm
    rw [← hsplit, hrest, List.append_nil]
  refine ⟨m', news, ?_, hall ▸ hcopied⟩
  have hvalid : m.valid (.list c.addr .patches) = true := h.valid_client hc
  unfold Memory.dupPatches
  rw [Memory.next_eq hvalid, hring.next_head]
  exact hrun

/-! ## Leading the copies over -/

variable [DecidableEq K] {kind : PatchKind E D} {annotate : ((E → Bool) → Option Uuid) → D → D}
  {key : D → K} {good : D → Prop}

/-- A node is that of a patch that passes a test. -/
def Memory.patchPasses (m : Memory (Uuid × E) D) (t : D → Bool) : Ptr → Bool
  | .patch q => (m.patch q).any t
  | _ => false

/-- Some copies have been dealt with: the list of the caller has the first one of each kind. The
copies that are left are linked as they were, up to the local head. -/
structure Collected (annotate : ((E → Bool) → Option Uuid) → D → D) (key : D → K)
    (clients : List (MgrClient E)) (m₀ m : Memory (Uuid × E) D) (done rest : List (Nat × D))
    (kept : List Nat) : Prop where
  keeps : LeavesOld m₀ m
  new : ∀ i ∈ done ++ rest, m₀.brk ≤ i.1
  nodup : ((done ++ rest).map Prod.fst).Nodup
  ring : m.links.Ring .dest (patchNodes kept)
  sub : ∀ q ∈ kept, q ∈ done.map Prod.fst
  contents : kept.map m.patch
    = (firsts key (done.map (fun i => annotate (registeredId clients) i.2))).map some
  left : ∀ i ∈ rest, m.patch i.1 = some i.2
  path : ∀ i tail, rest = i :: tail →
    LeadsOver m.links.next (.patch i.1) (patchNodes (tail.map Prod.fst)) .patches

variable {todo : List (Nat × D)} {i : Nat × D} {kept : List Nat} {before : List (Nat × D)}

/-- Whether there is an equal copy in the list of the caller. -/
theorem Collected.search (h : Collected annotate key clients m₀ m before todo kept)
    (hlaw : kind.Lawful annotate key good) (hgood : ∀ j ∈ before, good j.2) {d : D} (hd : good d)
    (hfuel : before.length < fuel) {m' : Memory (Uuid × E) D} (hlinks : m'.links = m.links)
    (hsame : ∀ q ∈ kept, m'.patch q = m.patch q) :
    ∃ found, m'.next .dest = .ok ((patchNodes kept).head?.getD .dest) ∧
      m'.listForEach .dest (Memory.sameAs kind d) fuel ((patchNodes kept).head?.getD .dest) =
        .ok found ∧
      (found = none ↔ key d ∉ before.map (fun i => key i.2)) := by
  have hcontents : kept.map m'.patch
      = (firsts key (before.map (fun i => annotate (registeredId clients) i.2))).map some := by
    rw [← h.contents]
    exact List.map_congr_left hsame
  have hgoodKept : ∀ q ∈ kept, ∃ u, m'.patch q = some u ∧ good u := by
    intro q hq
    have hmem := List.mem_map_of_mem (f := m'.patch) hq
    rw [hcontents] at hmem
    obtain ⟨u, hu, heq⟩ := List.mem_map.mp hmem
    obtain ⟨j, hj, rfl⟩ := List.mem_map.mp (firsts_sublist.subset hu)
    exact ⟨_, heq.symm, hlaw.good _ _ (hgood j hj)⟩
  have htest : ∀ x ∈ patchNodes kept, Memory.sameAs kind d m' x
      = .ok (m'.patchPasses (fun u => decide (key d = key u)) x) := by
    intro x hx
    obtain ⟨q, hq, rfl⟩ := mem_patchNodes.mp hx
    obtain ⟨u, hu, hgoodu⟩ := hgoodKept q hq
    have hat : m'.patchAt (.patch q) = .ok (q, u) := by
      rw [Memory.patchAt, hu]
    rw [Memory.sameAs, hat, Memory.patchPasses, hu]
    exact hlaw.same d u hd hgoodu
  have hlength : (patchNodes kept).length < fuel := by
    have hle : kept.length ≤ before.length := by
      have hlen := congrArg List.length h.contents
      rw [List.length_map, List.length_map] at hlen
      rw [hlen, ← List.length_map (fun i : Nat × D => annotate (registeredId clients) i.2)]
      exact firsts_sublist.length_le
    rw [patchNodes, List.length_map]
    omega
  refine ⟨(patchNodes kept).find? (m'.patchPasses (fun u => decide (key d = key u))), ?_, ?_, ?_⟩
  · rw [Memory.next_eq (show m'.valid .dest = true from rfl), hlinks, h.ring.next_head]
  · apply Memory.listForEach_eq (hlinks ▸ h.ring.next) (List.nodup_cons.mp h.ring.nodup).1 ?_ htest
      hlength
    intro x hx
    obtain ⟨q, hq, rfl⟩ := mem_patchNodes.mp hx
    obtain ⟨u, hu, -⟩ := hgoodKept q hq
    show (m'.patch q).isSome = true
    rw [hu]
    rfl
  · -- the keys of the copies that are kept are those of all that were dealt with
    have hkeys : key d ∈ before.map (fun i => key i.2) ↔ ∃ q ∈ kept, ∃ u, m'.patch q = some u ∧
        key d = key u := by
      have hmap : before.map (fun i => key i.2)
          = (before.map (fun i => annotate (registeredId clients) i.2)).map key := by
        rw [List.map_map]
        exact List.map_congr_left fun i _ => (hlaw.key _ i.2).symm
      rw [hmap, ← mem_map_firsts, List.mem_map]
      constructor
      · rintro ⟨u, hu, hkey⟩
        have hmem := List.mem_map_of_mem (f := some) hu
        rw [← hcontents] at hmem
        obtain ⟨q, hq, heq⟩ := List.mem_map.mp hmem
        exact ⟨q, hq, u, heq, hkey.symm⟩
      · rintro ⟨q, hq, u, hu, hkey⟩
        have hmem := List.mem_map_of_mem (f := m'.patch) hq
        rw [hcontents, hu] at hmem
        obtain ⟨v, hv, heq⟩ := List.mem_map.mp hmem
        exact ⟨u, Option.some.inj heq ▸ hv, hkey.symm⟩
    rw [hkeys, List.find?_eq_none]
    constructor
    · rintro hnone ⟨q, hq, u, hu, hkey⟩
      refine hnone (.patch q) (mem_patchNodes.mpr ⟨q, hq, rfl⟩) ?_
      rw [Memory.patchPasses, hu]
      exact decide_eq_true hkey
    · intro hnot x hx hpass
      obtain ⟨q, hq, rfl⟩ := mem_patchNodes.mp hx
      obtain ⟨u, hu, -⟩ := hgoodKept q hq
      rw [Memory.patchPasses, hu] at hpass
      exact hnot ⟨q, hq, u, hu, of_decide_eq_true hpass⟩

/-- A copy that is not needed is destroyed. -/
theorem Collected.destroy (h : Collected annotate key clients m₀ m before (i :: todo) kept) {d : D}
    (hkey : key (annotate (registeredId clients) i.2)
      ∈ (before.map (fun i => annotate (registeredId clients) i.2)).map key)
    (hi : m₀.brk ≤ i.1) (hapart : i.1 ∉ before.map Prod.fst ∧ i.1 ∉ todo.map Prod.fst) :
    ∃ m', ({ m with patch := Function.update m.patch i.1 (some d) } : Memory
      (Uuid × E) D).patchDestroy
        i.1 = .ok m' ∧ Collected annotate key clients m₀ m' (before ++ [i]) todo kept := by
  refine ⟨{ m with patch := Function.update (Function.update m.patch i.1 (some d)) i.1 none },
    ?_, ?_⟩
  · simp [Memory.patchDestroy]
  rw [Function.update_idem]
  refine ⟨h.keeps.update hi none m.brk, ?_, ?_, h.ring, ?_, ?_, ?_, ?_⟩
  · rw [List.append_assoc]
    exact h.new
  · rw [List.append_assoc]
    exact h.nodup
  · intro q hq
    rw [List.map_append]
    exact List.mem_append_left _ (h.sub q hq)
  · rw [List.map_append, List.map_singleton, firsts_concat, if_pos hkey, ← h.contents]
    refine List.map_congr_left fun q hq => ?_
    exact Function.update_of_ne (fun heq : q = i.1 => hapart.1 (heq ▸ h.sub q hq)) _ _
  · intro j hj
    have hne : j.1 ≠ i.1 := fun heq => hapart.2 (heq ▸ List.mem_map_of_mem hj)
    exact (Function.update_of_ne hne _ _).trans (h.left j (List.mem_cons_of_mem _ hj))
  · intro j tail htail
    have hpath := h.path i todo rfl
    rw [htail] at hpath
    exact hpath.2

/-- The first copy of a kind is led over to the list of the caller. -/
theorem Collected.lead (h : Collected annotate key clients m₀ m before (i :: todo) kept) {d : D}
    (hd : d = annotate (registeredId clients) i.2)
    (hkey : key (annotate (registeredId clients) i.2)
      ∉ (before.map (fun i => annotate (registeredId clients) i.2)).map key)
    (hi : m₀.brk ≤ i.1) (hapart : i.1 ∉ before.map Prod.fst ∧ i.1 ∉ todo.map Prod.fst)
    (hdisj : ∀ q ∈ before.map Prod.fst, q ∉ todo.map Prod.fst) :
    ∃ m', ({ m with patch := Function.update m.patch i.1 (some d) } :
        Memory (Uuid × E) D).listAddTail (.patch i.1) .dest = .ok m' ∧
      Collected annotate key clients m₀ m' (before ++ [i]) todo (kept ++ [i.1]) := by
  have hnew : i.1 ∉ kept := fun hmem => hapart.1 (h.sub _ hmem)
  have hlast : m.links.prev .dest ∈ .dest :: patchNodes kept := h.ring.prev_mem List.mem_cons_self
  have hlastCases : m.links.prev .dest = .dest ∨ ∃ q ∈ kept, m.links.prev .dest = .patch q := by
    rcases List.mem_cons.mp hlast with heq | hmem
    · exact Or.inl heq
    · exact Or.inr (mem_patchNodes.mp hmem)
  have hkeptLive : ∀ q ∈ kept, (m.patch q).isSome = true := by
    intro q hq
    have hmem := List.mem_map_of_mem (f := m.patch) hq
    rw [h.contents] at hmem
    obtain ⟨u, -, heq⟩ := List.mem_map.mp hmem
    rw [← heq]
    rfl
  have hlastOld : ¬ (m.links.prev .dest).Old m₀.brk := by
    rcases hlastCases with heq | ⟨q, hq, heq⟩
    · rw [heq]
      exact fun h => h
    · rw [heq]
      obtain ⟨j, hj, rfl⟩ := List.mem_map.mp (h.sub q hq)
      exact Nat.not_lt.mpr (h.new j (List.mem_append_left _ hj))
  let m₁ : Memory (Uuid × E) D :=
    { m with patch := Function.update m.patch i.1 (some d) }
  have hlastValid : m₁.valid (m.links.prev .dest) = true := by
    rcases hlastCases with heq | ⟨q, hq, heq⟩
    · rw [heq]
      rfl
    · rw [heq]
      show (Function.update m.patch i.1 _ q).isSome = true
      rw [Function.update_of_ne (fun heq : q = i.1 => hnew (heq ▸ hq))]
      exact hkeptLive q hq
  have hvalid : m₁.valid (.patch i.1) = true := by
    show (Function.update m.patch i.1 _ i.1).isSome = true
    rw [Function.update_self]
    rfl
  have hadd : m₁.listAddTail (.patch i.1) .dest
      = .ok { m₁ with links := m.links.insert (.patch i.1) (m.links.prev .dest) .dest } :=
    Memory.listAddTail_eq rfl hlastValid hvalid
  refine ⟨_, hadd, (h.keeps.update hi _ m.brk).insert (Nat.not_lt.mpr hi) hlastOld (fun h => h),
    ?_, ?_, ?_, ?_, ?_, ?_, ?_⟩
  · rw [List.append_assoc]
    exact h.new
  · rw [List.append_assoc]
    exact h.nodup
  · show (m.links.insert (.patch i.1) (m.links.prev .dest) .dest).Ring _ _
    unfold patchNodes
    rw [List.map_append]
    refine h.ring.insert_last ?_
    simpa [patchNodes] using hnew
  · intro q hq
    rw [List.map_append]
    rcases List.mem_append.mp hq with hq | hq
    · exact List.mem_append_left _ (h.sub q hq)
    · exact List.mem_append_right _ hq
  · have hfirsts : firsts key ((before ++ [i]).map (fun i => annotate (registeredId clients) i.2))
        = firsts key (before.map (fun i => annotate (registeredId clients) i.2))
          ++ [annotate (registeredId clients) i.2] := by
      rw [List.map_append, List.map_singleton, firsts_concat, if_neg hkey]
    rw [hfirsts, List.map_append, List.map_append, ← h.contents]
    congr 1
    · refine List.map_congr_left fun q hq => ?_
      exact Function.update_of_ne (fun heq : q = i.1 => hnew (heq ▸ hq)) _ _
    · show [Function.update m.patch i.1 (some d) i.1] = _
      rw [Function.update_self, hd]
      rfl
  · intro j hj
    have hne : j.1 ≠ i.1 := fun heq => hapart.2 (heq ▸ List.mem_map_of_mem hj)
    exact (Function.update_of_ne hne _ _).trans (h.left j (List.mem_cons_of_mem _ hj))
  · -- only the links of this copy and of the last one before it have changed
    intro j tail htail
    have hpath := h.path i todo rfl
    rw [htail] at hpath
    have hrest : LeadsOver m.links.next (.patch j.1) (patchNodes (tail.map Prod.fst)) .patches :=
      hpath.2
    refine hrest.congr fun p hp => ?_
    obtain ⟨q, hq, rfl⟩ : ∃ q ∈ todo.map Prod.fst, p = .patch q := by
      rw [htail]
      exact mem_patchNodes.mp hp
    refine (Links.alike_insert ?_ ?_ (by simp)).1
    · intro heq
      rw [Ptr.patch.inj heq] at hq
      exact hapart.2 hq
    · rcases hlastCases with heq | ⟨r, hr, heq⟩
      · rw [heq]
        simp
      · rw [heq]
        intro hqr
        rw [Ptr.patch.inj hqr] at hq
        exact hdisj r (h.sub r hr) hq

/-- One round of the loop over the copies. -/
theorem Collected.step (h : Collected annotate key clients m₀ m before (i :: todo) kept)
    (hlaw : kind.Lawful annotate key good) (hholds : MgrHolds lists m₀ clients) (hfresh : m₀.Fresh)
    (hgood : ∀ j ∈ before ++ i :: todo, good j.2)
    (hfuel : clients.length < fuel ∧ before.length < fuel) :
    ∃ m' kept', Memory.collectPatch kind fuel m (.patch i.1) = .ok m' ∧
      Collected annotate key clients m₀ m' (before ++ [i]) todo kept' := by
  have hi : m₀.brk ≤ i.1 := h.new i (by simp)
  have hgoodi : good i.2 := hgood i (by simp)
  have hnodup := h.nodup
  rw [List.map_append, List.map_cons] at hnodup
  have hmiddle := List.nodup_cons.mp (List.nodup_middle.mp hnodup)
  have hapart : i.1 ∉ before.map Prod.fst ∧ i.1 ∉ todo.map Prod.fst :=
    ⟨fun hmem => hmiddle.1 (List.mem_append_left _ hmem),
      fun hmem => hmiddle.1 (List.mem_append_right _ hmem)⟩
  have hdisj : ∀ q ∈ before.map Prod.fst, q ∉ todo.map Prod.fst :=
    fun q hq hq' => (List.nodup_append.mp hmiddle.2).2.2 q hq q hq' rfl
  have hset : kind.set (m.idOf fuel) i.2 = .ok (annotate (registeredId clients) i.2) := by
    refine hlaw.set _ _ _ hgoodi fun test t htest => ?_
    exact (h.keeps.holds hholds hfresh).idOf htest hfuel.1
  have hat : m.patchAt (.patch i.1) = .ok (i.1, i.2) := by
    rw [Memory.patchAt, h.left i List.mem_cons_self]
  have hwrite : ∀ q ∈ kept, Function.update m.patch i.1
      (some (annotate (registeredId clients) i.2)) q = m.patch q :=
    fun q hq => Function.update_of_ne (fun heq : q = i.1 => hapart.1 (heq ▸ h.sub q hq)) _ _
  let m₁ : Memory (Uuid × E) D :=
    { m with patch := Function.update m.patch i.1 (some (annotate (registeredId clients) i.2)) }
  obtain ⟨found, hnext, hsearch, hfound⟩ := h.search hlaw
    (fun j hj => hgood j (List.mem_append_left _ hj)) (hlaw.good (registeredId clients) i.2 hgoodi)
    hfuel.2 (show m₁.links = m.links from rfl) hwrite
  have hkeys : before.map (fun i => key i.2)
      = (before.map (fun i => annotate (registeredId clients) i.2)).map key := by
    rw [List.map_map]
    exact List.map_congr_left fun i _ => (hlaw.key _ i.2).symm
  rw [hkeys] at hfound
  unfold Memory.collectPatch
  rw [hat]
  simp only [bind, Except.bind]
  rw [hset]
  dsimp only
  rw [hnext]
  dsimp only
  rw [hsearch]
  cases found with
  | some x =>
      have hkey : key (annotate (registeredId clients) i.2)
          ∈ (before.map (fun i => annotate (registeredId clients) i.2)).map key := by
        by_contra hnot
        exact absurd (hfound.mpr hnot) (by simp)
      obtain ⟨m', hdestroy, hcollected⟩ := h.destroy hkey hi hapart
      exact ⟨m', kept, hdestroy, hcollected⟩
  | none =>
      obtain ⟨m', hadd, hcollected⟩ := h.lead rfl (hfound.mp rfl) hi hapart hdisj
      exact ⟨m', _, hadd, hcollected⟩

/-- The copies, before the first of them is dealt with. -/
theorem Copied.collected {m₁ m₂ : Memory (Uuid × E) D} {olds news : List Nat} {current : List D}
    (h : Copied m₁ m₂ olds news) (hkeeps : LeavesOld m m₁) (hbrk : m₁.brk = m.brk)
    (hnews : news.map m₂.patch = current.map some) :
    Collected annotate key clients m m₂ [] (news.zip current) [] := by
  have hlength : news.length = current.length := by
    have hlen := congrArg List.length hnews
    rwa [List.length_map, List.length_map] at hlen
  have hfst : (news.zip current).map Prod.fst = news := List.map_fst_zip (Nat.le_of_eq hlength)
  refine ⟨⟨h.keeps.client.trans hkeeps.client, fun q hq => ?_, fun p hp => ?_⟩, fun i hi => ?_, ?_,
    h.dest, fun q hq => absurd hq List.not_mem_nil, rfl, fun i hi => ?_, fun i tail htail => ?_⟩
  · exact (h.keeps.patch q (hbrk ▸ hq)).trans (hkeeps.patch q hq)
  · exact (hkeeps.links p hp).trans (h.keeps.links p (hbrk ▸ hp))
  · rw [← hbrk]
    exact (h.range i.1 (List.of_mem_zip hi).1).1
  · rw [List.nil_append, hfst]
    exact List.Nodup.of_map _ (List.nodup_cons.mp h.ring.nodup).2
  · obtain ⟨k, hk, rfl⟩ := List.mem_iff_getElem.mp hi
    rw [List.getElem_zip]
    have hget := congrArg (fun l => l[k]?) hnews
    rw [List.length_zip] at hk
    simpa [List.getElem?_map, List.getElem?_eq_getElem (show k < news.length by omega),
      List.getElem?_eq_getElem (show k < current.length by omega)] using hget
  · have hpath := h.ring.next
    rw [← hfst, htail, List.map_cons] at hpath
    exact hpath.2

/-- The loop finds the way to the next copy. -/
theorem Collected.next_left (h : Collected annotate key clients m₀ m before (i :: todo) kept) :
    m.next (.patch i.1) = .ok ((patchNodes (todo.map Prod.fst)).head?.getD .patches) := by
  have hvalid : m.valid (.patch i.1) = true := by
    show (m.patch i.1).isSome = true
    rw [h.left i List.mem_cons_self]
    rfl
  rw [Memory.next_eq hvalid]
  exact congrArg Except.ok (h.path i todo rfl).head_eq

/-- All rounds of the loop. -/
theorem Collected.run {items : List (Nat × D)} {n : Ptr}
    (h : Collected annotate key clients m₀ m [] items [])
    (hlaw : kind.Lawful annotate key good) (hholds : MgrHolds lists m₀ clients) (hfresh : m₀.Fresh)
    (hgood : ∀ j ∈ items, good j.2) (hfuel : clients.length + items.length < fuel)
    (hn : m.next ((patchNodes (items.map Prod.fst)).head?.getD .patches) = .ok n) :
    ∃ m' kept, Collected annotate key clients m₀ m' items [] kept ∧
      ∀ k, Memory.listForEachSafe .patches (Memory.collectPatch kind fuel)
        ((patchNodes (items.map Prod.fst)).length + k) m
          ((patchNodes (items.map Prod.fst)).head?.getD .patches) n
        = Memory.listForEachSafe .patches (Memory.collectPatch kind fuel) k m' .patches
          (m'.links.next .patches) := by
  -- what is left of the copies is the rest of the walk
  let I (l : List Ptr) (m' : Memory (Uuid × E) D) : Prop :=
    ∃ before todo kept, before ++ todo = items ∧ l = patchNodes (todo.map Prod.fst) ∧
      Collected annotate key clients m₀ m' before todo kept
  have hloop : ∃ m', I [] m' ∧ ∀ k, Memory.listForEachSafe .patches
      (Memory.collectPatch kind fuel) ((patchNodes (items.map Prod.fst)).length + k) m
        ((patchNodes (items.map Prod.fst)).head?.getD .patches) n
      = Memory.listForEachSafe .patches (Memory.collectPatch kind fuel) k m' .patches
        (m'.links.next .patches) := by
    refine Memory.listForEachSafe_run I ?_ ?_ (fun _ _ => rfl) ⟨[], items, [], rfl, rfl, h⟩ hn
    · rintro x l m' ⟨before, todo, kept, hsplit, hl, hcollected⟩
      cases todo with
      | nil => exact absurd hl (List.cons_ne_nil x l)
      | cons i todo =>
          obtain ⟨rfl, rfl⟩ := List.cons.inj hl
          have hle : before.length ≤ items.length := by
            rw [← hsplit, List.length_append]
            exact Nat.le_add_right _ _
          obtain ⟨m'', kept', hbody, hcollected'⟩ := hcollected.step hlaw hholds hfresh
            (fun j hj => hgood j (hsplit ▸ hj))
            (show clients.length < fuel ∧ before.length < fuel from ⟨by omega, by omega⟩)
          refine ⟨by simp, m'', hbody, before ++ [i], todo, kept', ?_, rfl, hcollected'⟩
          rw [List.append_assoc]
          exact hsplit
    · rintro x l m' ⟨before, todo, kept, -, hl, hcollected⟩
      cases todo with
      | nil => exact absurd hl (List.cons_ne_nil x l)
      | cons i todo =>
          obtain ⟨rfl, rfl⟩ := List.cons.inj hl
          exact hcollected.next_left
  obtain ⟨m', ⟨before, todo, kept, hsplit, hnil, hcollected⟩, hrun⟩ := hloop
  have htodo : todo = [] := by
    have hmap : todo.map Prod.fst = [] := List.map_eq_nil_iff.mp hnil.symm
    exact List.map_eq_nil_iff.mp hmap
  rw [htodo, List.append_nil] at hsplit
  rw [htodo, hsplit] at hcollected
  exact ⟨m', kept, hcollected, hrun⟩

/-- What collecting should do with an empty list of the caller: it has copies of the first patch
of each kind, in order and with the ids of the registered clients, and nothing that was there
before has changed. -/
structure CollectsFirsts (annotate : ((E → Bool) → Option Uuid) → D → D) (key : D → K)
    (clients : List (MgrClient E)) (current : List D) (m₀ m : Memory (Uuid × E) D) (kept : List Nat)
    (copies : List D) : Prop where
  keeps : LeavesOld m₀ m
  ring : m.links.Ring .dest (patchNodes kept)
  new : ∀ q ∈ kept, m₀.brk ≤ q
  contents : kept.map m.patch = copies.map some
  first : copies = firsts key (current.map (annotate (registeredId clients)))
  once : (copies.map key).Nodup
  every : ∀ d ∈ current, key d ∈ copies.map key

/-- **Collecting** ends, and does what it should. -/
theorem getClientPatches_collects (hlaw : kind.Lawful annotate key good)
    (h : MgrHolds lists m clients) (hfresh : m.Fresh) (hw : .patches ∈ lists)
    (hdest : m.links.Ring .dest []) (hfind : clients.find? (fun d => d.id = c.id) = some c)
    {current : List D} (hcurrent : (c.lists .patches).map m.patch = current.map some)
    (hgood : ∀ d ∈ current, good d) (hfuel : clients.length + current.length < fuel) :
    ∃ m' kept copies, m.getClientPatches kind fuel c.id = .ok m' ∧
      CollectsFirsts annotate key clients current m m' kept copies := by
  have hc := List.mem_of_find?_eq_some hfind
  have hlength : (c.lists .patches).length = current.length := by
    have hlen := congrArg List.length hcurrent
    rwa [List.length_map, List.length_map] at hlen
  -- the local list is made
  let m₁ : Memory (Uuid × E) D :=
    { m with links := (m.links.setNext .patches .patches).setPrev .patches .patches }
  have hlocal : m₁.links.Ring .patches [] := Links.ring_nil.mpr (by simp [m₁])
  have hsame : ∀ p, p ≠ .patches → m.links.Alike m₁.links p :=
    fun p hp => Links.alike_setPrev hp (Links.alike_setNext hp ⟨rfl, rfl⟩)
  have hkeeps₁ : LeavesOld m m₁ := by
    refine ⟨rfl, fun _ _ => rfl, fun p hp => hsame p ?_⟩
    rintro rfl
    exact hp
  have hholds₁ : MgrHolds lists m₁ clients := hkeeps₁.holds h hfresh
  have hdest₁ : m₁.links.Ring .dest [] := by
    refine hdest.alike fun p hp => hsame p ?_
    rw [List.mem_singleton.mp hp]
    simp
  -- the patches are copied
  obtain ⟨m₂, news, hdup, hcopied⟩ := dupPatches_copied hholds₁ hfresh hc hw hlocal hdest₁
    (show (c.lists .patches).length < fuel by omega)
  have hnews : news.map m₂.patch = current.map some := hcopied.contents.trans hcurrent
  have hnewsLength : news.length = current.length := by
    have hlen := congrArg List.length hnews
    rwa [List.length_map, List.length_map] at hlen
  have hfst : (news.zip current).map Prod.fst = news := List.map_fst_zip (Nat.le_of_eq hnewsLength)
  have hsnd : (news.zip current).map Prod.snd = current :=
    List.map_snd_zip (Nat.le_of_eq hnewsLength.symm)
  have hstart : Collected annotate key clients m m₂ [] (news.zip current) [] :=
    hcopied.collected hkeeps₁ rfl hnews
  -- they are led over
  have hfirst : ∃ n, m₂.next ((patchNodes news).head?.getD .patches) = .ok n := by
    cases hitems : news.zip current with
    | nil =>
        rw [hitems] at hfst
        rw [← hfst]
        exact ⟨_, Memory.next_eq rfl⟩
    | cons i rest =>
        rw [hitems] at hstart hfst
        rw [← hfst]
        exact ⟨_, hstart.next_left⟩
  obtain ⟨n, hn⟩ := hfirst
  have hcount : clients.length + (news.zip current).length < fuel := by
    rw [List.length_zip, hnewsLength, Nat.min_self]
    exact hfuel
  obtain ⟨m₃, kept, hcollected, hrun⟩ := hstart.run hlaw h hfresh
    (fun j hj => hgood j.2 (List.of_mem_zip hj).2) hcount (hfst.symm ▸ hn)
  rw [hfst] at hrun
  have hcopies : (news.zip current).map (fun i => annotate (registeredId clients) i.2)
      = current.map (annotate (registeredId clients)) := by
    calc (news.zip current).map (fun i => annotate (registeredId clients) i.2)
        = ((news.zip current).map Prod.snd).map (annotate (registeredId clients)) := by
          rw [List.map_map]
          rfl
      _ = current.map (annotate (registeredId clients)) := by rw [hsnd]
  have hcontents := hcollected.contents
  rw [hcopies] at hcontents
  have hkeys : (current.map (annotate (registeredId clients))).map key = current.map key := by
    rw [List.map_map]
    exact List.map_congr_left fun d _ => hlaw.key _ d
  refine ⟨m₃, kept, _, ?_, hcollected.keeps, hcollected.ring, fun q hq => ?_, hcontents, rfl,
    nodup_map_firsts, fun d hd => ?_⟩
  · obtain ⟨k, hk⟩ : ∃ k, fuel = (patchNodes news).length + (k + 1) := by
      refine ⟨fuel - news.length - 1, ?_⟩
      rw [patchNodes, List.length_map]
      omega
    unfold Memory.getClientPatches
    rw [Memory.initListHead_eq rfl]
    simp only [bind, Except.bind]
    rw [show ({ m with links := (m.links.setNext .patches .patches).setPrev .patches .patches } :
      Memory (Uuid × E) D) = m₁ from rfl, hholds₁.findClient hfind (by omega)]
    dsimp only
    rw [hdup]
    dsimp only
    unfold Memory.forEachSafe
    rw [Memory.next_eq (show m₂.valid .patches = true from rfl), hcopied.ring.next_head]
    simp only [bind, Except.bind]
    rw [hn]
    dsimp only
    have hend := hrun (k + 1)
    rw [← hk] at hend
    rw [hend]
    exact if_pos rfl
  · obtain ⟨j, hj, rfl⟩ := List.mem_map.mp (hcollected.sub q hq)
    exact hcollected.new j (List.mem_append_left _ hj)
  · rw [mem_map_firsts, hkeys]
    exact List.mem_map_of_mem hd

/-! ## Both managers -/

/-- A manager is in memory, with a client that has these current patches, and the list of the
caller is empty. -/
structure MgrReady (mgr : PatchManager) (m : Memory (Uuid × E) D) (clients : List (MgrClient E))
    (c : MgrClient E) (current : List D) : Prop where
  holds : MgrHolds mgr.lists m clients
  fresh : m.Fresh
  dest : m.links.Ring .dest []
  client : clients.find? (fun d => d.id = c.id) = some c
  current : (c.lists .patches).map m.patch = current.map some

/-- The client has the same patches in its list, and its manager the same clients. -/
theorem CollectsFirsts.ownList (h : CollectsFirsts annotate key clients current m m' kept copies)
    {mgr : PatchManager} (hready : MgrReady mgr m clients c current) (hw : .patches ∈ mgr.lists) :
    MgrHolds mgr.lists m' clients ∧ (c.lists .patches).map m'.patch = current.map some := by
  refine ⟨h.keeps.holds hready.holds hready.fresh, ?_⟩
  rw [← hready.current]
  refine List.map_congr_left fun q hq => h.keeps.patch q ?_
  exact hready.holds.lt_brk hready.fresh (List.mem_of_find?_eq_some hready.client)
    (List.mem_flatMap.mpr ⟨.patches, hw, hq⟩)

/-- **Collecting a client's patches** removes duplicates and nothing else, for both managers.
Patches are the same if their ends are, and for ALSA also the attributes of the subscription. -/
theorem patches_collected {σ : Type} (api : SubscribeApi σ) :
    (∀ (m : Memory (Uuid × UInt8) (SubPatch σ)) clients c current fuel,
      MgrReady .alsa m clients c current → clients.length + current.length < fuel →
      ∃ m' kept copies, m.alsaMgrGetClientPatches api fuel c.id = .ok m' ∧
        CollectsFirsts (alsaAnnotate api) (fun patch => api.get patch.sub) clients current m m' kept
          copies ∧
        MgrHolds PatchManager.alsa.lists m' clients ∧
          (c.lists .patches).map m'.patch = current.map some) ∧
    ∀ (m : Memory (Uuid × CStr) JackPatch) clients c current fuel,
      MgrReady .jack m clients c current → (∀ patch ∈ current, patch.Named) →
      clients.length + current.length < fuel →
      ∃ m' kept copies, m.jackMgrClientDupUniqPatches fuel c.id = .ok m' ∧
        CollectsFirsts jackAnnotate JackPatch.ends clients current m m' kept copies ∧
        MgrHolds PatchManager.jack.lists m' clients ∧
          (c.lists .patches).map m'.patch = current.map some := by
  constructor
  · intro m clients c current fuel hready hfuel
    obtain ⟨m', kept, copies, hrun, hcollects⟩ := getClientPatches_collects (alsaKind_lawful api)
      hready.holds hready.fresh (by decide) hready.dest hready.client hready.current
      (fun _ _ => trivial) hfuel
    exact ⟨m', kept, copies, hrun, hcollects, hcollects.ownList hready (by decide)⟩
  · intro m clients c current fuel hready hnamed hfuel
    obtain ⟨m', kept, copies, hrun, hcollects⟩ := getClientPatches_collects jackKind_lawful
      hready.holds hready.fresh (by decide) hready.dest hready.client hready.current hnamed hfuel
    exact ⟨m', kept, copies, hrun, hcollects, hcollects.ownList hready (by decide)⟩

/-- A manager with one client, which has two current patches. -/
def twoPatches (e : E) (a b : D) : Memory (Uuid × E) D :=
  let next : Ptr → Ptr
    | .clients => .client 0
    | .client 0 => .clients
    | .list 0 .patches => .patch 0
    | .patch 0 => .patch 1
    | .patch 1 => .list 0 .patches
    | p => p
  let prev : Ptr → Ptr
    | .clients => .client 0
    | .client 0 => .clients
    | .list 0 .patches => .patch 1
    | .patch 0 => .list 0 .patches
    | .patch 1 => .patch 0
    | p => p
  { links := { next := next, prev := prev }
    client := fun c => if c = 0 then some (1, e) else none
    patch := fun p => if p = 0 then some a else if p = 1 then some b else none
    brk := 2 }

/-- The client. -/
def patchedClient (e : E) : MgrClient E where
  addr := 0
  id := 1
  data := e
  lists := fun w => if w = .patches then [0, 1] else []

theorem twoPatches_ready (mgr : PatchManager) (e : E) (a b : D) :
    MgrReady mgr (twoPatches e a b) [patchedClient e] (patchedClient e) [a, b] where
  holds := by
    refine ⟨⟨⟨rfl, rfl⟩, ⟨rfl, rfl⟩, by simp⟩, fun c hc => ?_, ?_⟩
    · rw [List.mem_singleton.mp hc]
      refine ⟨rfl, fun w _ => ?_, fun w _ p hp => ?_⟩
      · cases w with
        | patches => exact ⟨⟨rfl, rfl, rfl⟩, ⟨rfl, rfl, rfl⟩, by simp [patchedClient]⟩
        | backupPatches => exact Links.ring_nil.mpr ⟨rfl, rfl⟩
        | oldPatches => exact Links.ring_nil.mpr ⟨rfl, rfl⟩
      · cases w with
        | patches =>
            rcases List.mem_cons.mp hp with rfl | hp
            · rfl
            · rw [List.mem_singleton.mp hp]
              rfl
        | backupPatches => exact absurd hp List.not_mem_nil
        | oldPatches => exact absurd hp List.not_mem_nil
    · cases mgr <;> simp [patchedClient, MgrClient.patches, PatchManager.lists,
        PatchManager.freedLists]
  fresh q hq := by
    have hle : 2 ≤ q := hq
    show (if q = 0 then some a else if q = 1 then some b else none) = none
    rw [if_neg (by omega), if_neg (by omega)]
  dest := Links.ring_nil.mpr ⟨rfl, rfl⟩
  client := by simp [patchedClient]
  current := rfl

/-- A connection of an ALSA client to itself. -/
def alsaLoop : SubPatch PortSubscribe := ⟨⟨⟨128, 0⟩, ⟨128, 1⟩, 0, false, false, false⟩, 0, 0⟩

/-- A connection of a JACK client to itself. -/
def jackLoop : JackPatch := ⟨some (cstr "synth"), 0, cstr "out", some (cstr "synth"), 0, cstr "in"⟩

/-- The client is connected to itself, twice in the same way. -/
theorem patches_collected_two :
    (∃ m' kept copies,
      (twoPatches 128 alsaLoop alsaLoop).alsaMgrGetClientPatches portSubscribeApi 9 1 = .ok m' ∧
        CollectsFirsts (alsaAnnotate portSubscribeApi) (fun patch => portSubscribeApi.get patch.sub)
          [patchedClient 128] [alsaLoop, alsaLoop] (twoPatches 128 alsaLoop alsaLoop) m' kept
            copies) ∧
      ∃ m' kept copies,
        (twoPatches (cstr "synth") jackLoop jackLoop).jackMgrClientDupUniqPatches 9 1 = .ok m' ∧
          CollectsFirsts jackAnnotate JackPatch.ends [patchedClient (cstr "synth")]
            [jackLoop, jackLoop] (twoPatches (cstr "synth") jackLoop jackLoop) m' kept copies := by
  constructor
  · obtain ⟨m', kept, copies, hrun, hcollects, -⟩ :=
      (patches_collected portSubscribeApi).1 _ _ _ _ 9
      (twoPatches_ready .alsa 128 alsaLoop alsaLoop) (by decide)
    exact ⟨m', kept, copies, hrun, hcollects⟩
  · have hnamed : ∀ patch ∈ [jackLoop, jackLoop], patch.Named := by
      intro patch hp
      have heq : patch = jackLoop := by simpa using hp
      rw [heq]
      exact ⟨by decide, by decide⟩
    obtain ⟨m', kept, copies, hrun, hcollects, -⟩ :=
      (patches_collected portSubscribeApi).2 _ _ _ _ 9
      (twoPatches_ready .jack (cstr "synth") jackLoop jackLoop) hnamed (by decide)
    exact ⟨m', kept, copies, hrun, hcollects⟩

end Lash
