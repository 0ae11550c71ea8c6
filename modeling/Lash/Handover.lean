import Lash.Memory
import Lash.Types
import Mathlib.Data.List.Find
import Mathlib.Data.List.Flatten
import Mathlib.Data.List.Pairwise

/-!
# Handing over the backup

When a client goes, its manager gives the backup of its patches to the caller and destroys its own
record of the client, with the patches in it. `list_splice` leads the nodes over to the list of
the caller and leaves the old head as it was: it still leads to the first patch. The destructor
that comes next walks from there over the patches, destroys every one of them, and goes on to the
head of the caller's list, which it takes for a patch. `list_splice_init` is what is needed, and
one of the three managers has it (`handed_over_iff`).
-/

namespace Lash

variable {E D : Type}

/-! ## The managers -/

/-- The three managers: `alsa_mgr.c`, `jack_mgr.c` and `jackdbus_mgr.c`. -/
inductive PatchManager where
  | alsa
  | jack
  | jackdbus
  deriving DecidableEq

namespace Memory

/-- Free a list of a client, or, where the destructor looks first, free it if it is not empty. -/
def freeClientList (fuel : Nat) (m : Memory (Uuid × E) D) (c : Nat) (which : PatchList)
    (looks : Bool) :
    Except MemoryFault (Memory (Uuid × E) D) := do
  if looks then
    if ← m.listEmpty (.list c which) then
      return m
  m.freePatchList fuel (.list c which)

/-- `free(client)` -/
def clientFree (m : Memory (Uuid × E) D) (c : Nat) : Except MemoryFault (Memory (Uuid × E) D) :=
  match m.client c with
  | some _ => .ok { m with client := Function.update m.client c none }
  | none => .error .invalid

/-- Free some lists of a client. -/
def freeLists (fuel : Nat) (c : Nat) : List (PatchList × Bool) → Memory (Uuid × E) D →
    Except MemoryFault (Memory (Uuid × E) D)
  | [], m => .ok m
  | (which, looks) :: rest, m => do
    let m ← m.freeClientList fuel c which looks
    freeLists fuel c rest m

end Memory

namespace PatchManager

/-- The lists that the destructor of a client frees, in its order, and whether it looks if they are
empty: `alsa_client_destroy`, and `jack_mgr_client_destroy` as it is built without and with
jackdbus. -/
def freedLists : PatchManager → List (PatchList × Bool)
  | .alsa => [(.patches, true), (.oldPatches, false), (.backupPatches, true)]
  | .jack => [(.oldPatches, false), (.backupPatches, false), (.patches, false)]
  | .jackdbus => [(.oldPatches, false), (.backupPatches, false)]

/-- The lists that a client has. -/
def lists (mgr : PatchManager) : List PatchList := mgr.freedLists.map Prod.fst

/-- How the backup is moved. -/
def splice (mgr : PatchManager) (m : Memory (Uuid × E) D) (list head : Ptr) :
    Except MemoryFault (Memory (Uuid × E) D) :=
  match mgr with
  | .alsa | .jack => m.listSplice list head
  | .jackdbus => m.listSpliceInit list head

end PatchManager

namespace Memory

/-- `uuid_compare(id, client->id) == 0` -/
def hasId (id : Uuid) (m : Memory (Uuid × E) D) (node : Ptr) : Except MemoryFault Bool := do
  let client ← m.clientAt node
  return client.2.1 = id

/-- `alsa_mgr_get_client`, `jack_mgr_client_find_by_id` -/
def findClient (fuel : Nat) (m : Memory (Uuid × E) D)
    (id : Uuid) : Except MemoryFault (Option Nat) := do
  let pos ← m.next .clients
  match ← m.listForEach .clients (hasId id) fuel pos with
  | none => return none
  | some node => do
    let client ← m.clientAt node
    return some client.1

/-- The body of the three functions, with what `lashd_jackdbus_mgr_remove_client` returns. -/
def removeClient (mgr : PatchManager) (fuel : Nat) (m : Memory (Uuid × E) D) (id : Uuid)
    (dest : Option Ptr) : Except MemoryFault (Bool × Memory (Uuid × E) D) := do
  match ← m.findClient fuel id with
  | none => return (false, m)
  | some c => do
    let m ← m.listDel (.client c)
    let m ← match dest with
      | some head => mgr.splice m (.list c .backupPatches) head
      | none => pure m
    let m ← freeLists fuel c mgr.freedLists m
    let m ← m.clientFree c
    return (true, m)

/-- `alsa_mgr_remove_client` -/
def alsaMgrRemoveClient (fuel : Nat) (m : Memory (Uuid × E) D) (id : Uuid) (dest : Option Ptr) :
    Except MemoryFault (Bool × Memory (Uuid × E) D) := removeClient .alsa fuel m id dest

/-- `jack_mgr_remove_client` -/
def jackMgrRemoveClient (fuel : Nat) (m : Memory (Uuid × E) D) (id : Uuid) (dest : Option Ptr) :
    Except MemoryFault (Bool × Memory (Uuid × E) D) := removeClient .jack fuel m id dest

/-- `lashd_jackdbus_mgr_remove_client` -/
def jackdbusMgrRemoveClient (fuel : Nat) (m : Memory (Uuid × E) D) (id : Uuid) (dest : Option Ptr) :
    Except MemoryFault (Bool × Memory (Uuid × E) D) := removeClient .jackdbus fuel m id dest

end Memory

/-! ## The state of a manager -/

/-- A client of a manager: where it is, what is in it, and where the patches on its lists are. -/
structure MgrClient (E : Type) where
  addr : Nat
  id : Uuid
  data : E
  lists : PatchList → List Nat

/-- A client is in memory. -/
structure ClientHeld (lists : List PatchList) (m : Memory (Uuid × E) D)
    (c : MgrClient E) : Prop where
  data : m.client c.addr = some (c.id, c.data)
  rings : ∀ w ∈ lists, m.links.Ring (.list c.addr w) ((c.lists w).map .patch)
  live : ∀ w ∈ lists, ∀ p ∈ c.lists w, (m.patch p).isSome = true

/-- The patches on the lists of a client. -/
def MgrClient.patches (lists : List PatchList) (c : MgrClient E) : List Nat := lists.flatMap c.lists

/-- A manager has these clients, and no patch is on two lists. -/
structure MgrHolds (lists : List PatchList) (m : Memory (Uuid × E) D)
    (clients : List (MgrClient E)) :
    Prop where
  ring : m.links.Ring .clients (clients.map (fun c => .client c.addr))
  held : ∀ c ∈ clients, ClientHeld lists m c
  distinct : (clients.flatMap (MgrClient.patches lists)).Nodup

variable {lists : List PatchList} {m m' : Memory (Uuid × E) D} {c d : MgrClient E}
  {clients l₁ l₂ : List (MgrClient E)} {mgr : PatchManager} {fuel : Nat}

/-- A link that belongs to a client. -/
def MgrClient.Has (lists : List PatchList) (c : MgrClient E) (p : Ptr) : Prop :=
  (∃ w, p = .list c.addr w) ∨ ∃ q ∈ c.patches lists, p = .patch q

/-- Only the links of a client and the structs of it and of its patches matter for it. -/
theorem ClientHeld.same (h : ClientHeld lists m c) (hclient : m'.client c.addr = m.client c.addr)
    (hpatch : ∀ q ∈ c.patches lists, m'.patch q = m.patch q)
    (hlinks : ∀ p, c.Has lists p → m.links.Alike m'.links p) : ClientHeld lists m' c where
  data := hclient.trans h.data
  rings w hw := by
    refine (h.rings w hw).alike fun p hp => ?_
    apply hlinks
    rcases List.mem_cons.mp hp with rfl | hp
    · exact Or.inl ⟨w, rfl⟩
    · obtain ⟨q, hq, rfl⟩ := List.mem_map.mp hp
      exact Or.inr ⟨q, List.mem_flatMap.mpr ⟨w, hw, hq⟩, rfl⟩
  live w hw p hp := by
    rw [hpatch p (List.mem_flatMap.mpr ⟨w, hw, hp⟩)]
    exact h.live w hw p hp

/-! ## Finding the client and taking it out -/

/-- A node is that of a client that passes a test. -/
def Memory.clientPasses (m : Memory (Uuid × E) D) (t : Uuid × E → Bool) : Ptr → Bool
  | .client c => (m.client c).any t
  | _ => false

theorem MgrHolds.valid_client (h : MgrHolds lists m clients) (hc : c ∈ clients) :
    m.valid (.client c.addr) = true := by
  show (m.client c.addr).isSome = true
  rw [(h.held c hc).data]
  rfl

theorem MgrHolds.clientAt (h : MgrHolds lists m clients) (hc : c ∈ clients) :
    m.clientAt (.client c.addr) = .ok (c.addr, (c.id, c.data)) := by
  rw [Memory.clientAt, (h.held c hc).data]

/-- A search in the list of clients ends at the first one that passes the test. -/
theorem MgrHolds.search (h : MgrHolds lists m clients) {t : Uuid × E → Bool}
    {test : Memory (Uuid × E) D → Ptr → Except MemoryFault Bool}
    (htest : ∀ d ∈ clients, test m (.client d.addr) = .ok (t (d.id, d.data)))
    (hfuel : clients.length < fuel) :
    m.next .clients = .ok ((clients.map (fun d => Ptr.client d.addr)).head?.getD .clients) ∧
      m.listForEach .clients test fuel
        ((clients.map (fun d => Ptr.client d.addr)).head?.getD .clients)
        = .ok ((clients.find? (fun d => t (d.id, d.data))).map (fun d => .client d.addr)) := by
  have hpasses : ∀ d ∈ clients, m.clientPasses t (.client d.addr) = t (d.id, d.data) := by
    intro d hd
    rw [Memory.clientPasses, (h.held d hd).data]
    rfl
  have hfound : (clients.map (fun d => Ptr.client d.addr)).find? (m.clientPasses t)
      = (clients.find? (fun d => t (d.id, d.data))).map (fun d => .client d.addr) := by
    rw [List.find?_map]
    exact congrArg _ (List.find?_congr hpasses)
  constructor
  · rw [Memory.next_eq (show m.valid .clients = true from rfl), h.ring.next_head]
  rw [Memory.listForEach_eq (t := m.clientPasses t) h.ring.next (List.nodup_cons.mp h.ring.nodup).1,
    hfound]
  · intro x hx
    obtain ⟨d, hd, rfl⟩ := List.mem_map.mp hx
    exact h.valid_client hd
  · intro x hx
    obtain ⟨d, hd, rfl⟩ := List.mem_map.mp hx
    rw [htest d hd, hpasses d hd]
  · rw [List.length_map]
    exact hfuel

/-- The first client with the id is found. -/
theorem MgrHolds.findClient (h : MgrHolds lists m clients) {id : Uuid}
    (hfind : clients.find? (fun d => d.id = id) = some c) (hfuel : clients.length < fuel) :
    m.findClient fuel id = .ok (some c.addr) := by
  have htest : ∀ d ∈ clients, Memory.hasId id m (.client d.addr) = .ok (decide (d.id = id)) := by
    intro d hd
    rw [Memory.hasId, h.clientAt hd]
    rfl
  obtain ⟨hnext, hsearch⟩ := h.search (t := fun d => d.1 = id) htest hfuel
  unfold Memory.findClient
  rw [hnext]
  simp only [bind, Except.bind]
  rw [hsearch, hfind]
  dsimp only [Option.map_some]
  rw [h.clientAt (List.mem_of_find?_eq_some hfind)]
  rfl

/-- A client is taken out of the list of its manager. -/
theorem MgrHolds.listDel (h : MgrHolds lists m (l₁ ++ c :: l₂)) :
    ∃ links, m.listDel (.client c.addr) = .ok { m with links := links } ∧
      links.Ring .clients ((l₁ ++ l₂).map (fun d => .client d.addr)) ∧
      ∀ p, p ≠ .clients → (∀ a, p ≠ .client a) → m.links.Alike links p := by
  have hring := h.ring
  rw [List.map_append, List.map_cons] at hring
  have hmem : Ptr.client c.addr ∈ Ptr.clients ::
      (l₁.map (fun d => Ptr.client d.addr) ++ .client c.addr :: l₂.map
      (fun d => Ptr.client d.addr)) := by
    simp
  -- the neighbours are the head or other clients
  have hnear : ∀ p ∈ Ptr.clients ::
      (l₁.map (fun d => Ptr.client d.addr) ++ .client c.addr :: l₂.map
        (fun d => Ptr.client d.addr)),
      m.valid p = true ∧ ∀ q, q ≠ .clients → (∀ a, q ≠ .client a) → q ≠ p := by
    intro p hp
    rcases List.mem_cons.mp hp with rfl | hp
    · exact ⟨rfl, fun q hq _ => hq⟩
    · rw [← List.map_cons (f := fun d : MgrClient E => Ptr.client d.addr), ← List.map_append] at hp
      obtain ⟨d, hd, rfl⟩ := List.mem_map.mp hp
      exact ⟨h.valid_client hd, fun q _ hq => hq d.addr⟩
  obtain ⟨hprev, hprevNe⟩ := hnear _ (hring.prev_mem hmem)
  obtain ⟨hnext, hnextNe⟩ := hnear _ (hring.next_mem hmem)
  have hself : m.valid (.client c.addr) = true := h.valid_client (by simp)
  refine ⟨_, Memory.listDel_eq hself hprev hnext, ?_, ?_⟩
  · rw [List.map_append]
    refine hring.bypass.alike fun p hp => ?_
    have hne : p ≠ .client c.addr := by
      rintro rfl
      have hnodup := (List.nodup_middle.mp (List.nodup_cons.mp hring.nodup).2)
      rcases List.mem_cons.mp hp with hp | hp
      · exact absurd hp (by simp)
      · exact (List.nodup_cons.mp hnodup).1 hp
    exact Links.alike_setPrev hne (Links.alike_setNext hne ⟨rfl, rfl⟩)
  · intro p hp hpc
    refine Links.alike_setPrev (hpc _) (Links.alike_setNext (hpc _) ?_)
    exact Links.alike_setNext (hprevNe p hp hpc) (Links.alike_setPrev (hnextNe p hp hpc) ⟨rfl, rfl⟩)

/-! ## Moving the backup -/

/-- The nodes of a ring of patches. -/
def patchNodes (ps : List Nat) : List Ptr := ps.map .patch

theorem mem_patchNodes {ps : List Nat} {p : Ptr} : p ∈ patchNodes ps ↔ ∃ q ∈ ps, p = .patch q := by
  unfold patchNodes
  rw [List.mem_map]
  exact exists_congr fun q => and_congr_right fun _ => eq_comm

/-- What moving the backup of a client to an empty list does: the list has the patches then, and no
other link has changed. -/
structure Moved (m : Memory (Uuid × E) D) (a : Nat) (ps : List Nat) (links : Links Ptr) : Prop where
  dest : links.Ring .dest (patchNodes ps)
  same : ∀ p, p ≠ .dest → p ≠ .list a .backupPatches → p ∉ patchNodes ps → m.links.Alike links p

variable {a : Nat} {ps : List Nat}

/-- `list_splice`, if there is a backup: the old head still leads to the first patch, and from
there the way goes to the list of the caller. -/
theorem listSplice_moved (hring : m.links.Ring (.list a .backupPatches) (patchNodes ps))
    (hne : ps ≠ []) (hdest : m.links.Ring .dest []) (hclient : (m.client a).isSome = true)
    (hlive : ∀ p ∈ ps, (m.patch p).isSome = true) :
    ∃ links, m.listSplice (.list a .backupPatches) .dest = .ok { m with links := links } ∧
      Moved m a ps links ∧ LeadsOver links.next (.list a .backupPatches) (patchNodes ps) .dest := by
  have hnodes : patchNodes ps ≠ [] := by
    unfold patchNodes
    exact fun h => hne (List.map_eq_nil_iff.mp h)
  have hnext : m.links.next (.list a .backupPatches) ∈ patchNodes ps := by
    rw [hring.next_head]
    obtain ⟨x, l, hl⟩ := List.exists_cons_of_ne_nil hnodes
    rw [hl]
    exact List.mem_cons_self
  have hprev : m.links.prev (.list a .backupPatches) ∈ patchNodes ps := by
    rw [hring.prev_head]
    cases hlast : (patchNodes ps).getLast? with
    | none => exact absurd (List.getLast?_eq_none_iff.mp hlast) hnodes
    | some y => exact List.mem_of_getLast? hlast
  have hvalid : ∀ p ∈ patchNodes ps, m.valid p = true := by
    intro p hp
    obtain ⟨q, hq, rfl⟩ := mem_patchNodes.mp hp
    exact hlive q hq
  have hbehind : m.links.next .dest = .dest := hdest.next
  have hfull : m.links.next (.list a .backupPatches) ≠ .list a .backupPatches :=
    fun heq => hnodes (hring.next_head_eq_iff.mp heq)
  have hdestNot : Ptr.dest ∉ Ptr.list a .backupPatches :: patchNodes ps := by
    intro h
    rcases List.mem_cons.mp h with h | h
    · exact absurd h (by simp)
    · obtain ⟨q, -, hq⟩ := mem_patchNodes.mp h
      exact absurd hq (by simp)
  obtain ⟨hmoved, hold⟩ := hring.splice hnodes hdest hdestNot
  refine ⟨m.links.splice (.list a .backupPatches) .dest, ?_, ⟨hmoved, ?_⟩, ?_⟩
  · have hhead : m.valid (.list a .backupPatches) = true := hclient
    have hend : m.valid (m.links.next .dest) = true := by
      rw [hbehind]
      rfl
    rw [Memory.listSplice_eq hhead rfl (hvalid _ hnext) (hvalid _ hprev) hend, if_neg hfull]
  · intro p hp _ hnot
    refine Links.alike_splice ?_ ?_ hp ?_
    · rintro rfl
      exact hnot hnext
    · rintro rfl
      exact hnot hprev
    · rw [hbehind]
      exact hp
  · refine hmoved.next.restart ?_ (fun _ _ => rfl)
    rw [hold, hring.next_head, hmoved.next_head]
    obtain ⟨x, l, hl⟩ := List.exists_cons_of_ne_nil hnodes
    rw [hl]
    rfl

/-- The backup is moved, and the old list is empty: there was none, or the head is made anew. -/
theorem splice_clean (hring : m.links.Ring (.list a .backupPatches) (patchNodes ps))
    (hdest : m.links.Ring .dest []) (hclient : (m.client a).isSome = true)
    (hlive : ∀ p ∈ ps, (m.patch p).isSome = true) (hmgr : mgr = .jackdbus ∨ ps = []) :
    ∃ links, mgr.splice m (.list a .backupPatches) .dest = .ok { m with links := links } ∧
      Moved m a ps links ∧ links.Ring (.list a .backupPatches) [] := by
  have hvalid : m.valid (.list a .backupPatches) = true := hclient
  by_cases hps : ps = []
  · -- nothing to move
    subst hps
    have hself : m.links.next (.list a .backupPatches) = .list a .backupPatches := hring.next
    have hempty : m.listEmpty (.list a .backupPatches) = .ok true := by
      rw [Memory.listEmpty_eq hvalid, hself]
      simp
    refine ⟨m.links, ?_, ⟨hdest, fun _ _ _ _ => ⟨rfl, rfl⟩⟩, hring⟩
    cases mgr <;>
      simp [PatchManager.splice, Memory.listSplice, Memory.listSpliceInit, hempty, bind,
        Except.bind, pure, Except.pure]
  · have hdbus : mgr = .jackdbus := hmgr.resolve_right hps
    subst hdbus
    obtain ⟨links, hsplice, hmoved, -⟩ := listSplice_moved hring hps hdest hclient hlive
    have hfull : m.links.next (.list a .backupPatches) ≠ .list a .backupPatches := by
      intro heq
      have hnil := hring.next_head_eq_iff.mp heq
      exact hps (List.map_eq_nil_iff.mp hnil)
    have hempty : m.listEmpty (.list a .backupPatches) = .ok false := by
      rw [Memory.listEmpty_eq hvalid, decide_eq_false hfull]
    refine ⟨(links.setNext (.list a .backupPatches) (.list a .backupPatches)).setPrev
      (.list a .backupPatches) (.list a .backupPatches), ?_, ⟨?_, ?_⟩, ?_⟩
    · show m.listSpliceInit (.list a .backupPatches) .dest = _
      unfold Memory.listSpliceInit
      rw [hempty]
      simp only [bind, Except.bind, Bool.false_eq_true, if_false]
      rw [hsplice]
      exact Memory.initListHead_eq hvalid
    · refine hmoved.dest.alike fun p hp => ?_
      have hne : p ≠ .list a .backupPatches := by
        rintro rfl
        rcases List.mem_cons.mp hp with h | h
        · exact absurd h (by simp)
        · obtain ⟨q, -, hq⟩ := mem_patchNodes.mp h
          exact absurd hq (by simp)
      exact Links.alike_setPrev hne (Links.alike_setNext hne ⟨rfl, rfl⟩)
    · intro p hp hne hnot
      exact Links.alike_setPrev hne (Links.alike_setNext hne (hmoved.same p hp hne hnot))
    · exact Links.ring_nil.mpr ⟨Function.update_self _ _ _, Function.update_self _ _ _⟩

/-! ## Destroying the client -/

namespace Memory

theorem freed_freed (m : Memory (Uuid × E) D) (ps qs : List Nat) :
    (m.freed ps).freed qs = m.freed (ps ++ qs) := by
  unfold freed
  congr 1
  funext p
  by_cases hq : p ∈ qs
  · simp [hq]
  · simp [hq]

/-- One list of a client is freed. -/
theorem freeClientList_eq {which : PatchList} (looks : Bool)
    (hring : m.links.Ring (.list a which) (patchNodes ps)) (hclient : (m.client a).isSome = true)
    (hlive : ∀ p ∈ ps, (m.patch p).isSome = true) (hfuel : ps.length < fuel) :
    m.freeClientList fuel a which looks = .ok (m.freed ps) := by
  have hvalid : m.valid (.list a which) = true := hclient
  have hfree : m.freePatchList fuel (.list a which) = .ok (m.freed ps) :=
    freePatchList_eq hring hlive hvalid (fun q => by simp) hfuel
  unfold freeClientList
  cases looks with
  | false => exact hfree
  | true =>
      rw [listEmpty_eq hvalid]
      by_cases hps : ps = []
      · subst hps
        have hself : m.links.next (.list a which) = .list a which := hring.next
        simp [hself, bind, Except.bind, pure, Except.pure, freed]
      · have hfull : m.links.next (.list a which) ≠ .list a which := by
          intro heq
          exact hps (List.map_eq_nil_iff.mp (hring.next_head_eq_iff.mp heq))
        simp only [bind, Except.bind, decide_eq_false hfull, Bool.false_eq_true, if_false]
        exact hfree

/-- Some lists of a client are freed. -/
theorem freeLists_eq {ws : List (PatchList × Bool)} (ls : PatchList → List Nat)
    (hrings : ∀ w ∈ ws.map Prod.fst, m.links.Ring (.list a w) (patchNodes (ls w)))
    (hclient : (m.client a).isSome = true)
    (hlive : ∀ w ∈ ws.map Prod.fst, ∀ p ∈ ls w, (m.patch p).isSome = true)
    (hdist : ((ws.map Prod.fst).flatMap ls).Nodup)
    (hfuel : ∀ w ∈ ws.map Prod.fst, (ls w).length < fuel) :
    freeLists fuel a ws m = .ok (m.freed ((ws.map Prod.fst).flatMap ls)) := by
  induction ws generalizing m with
  | nil => simp [freeLists, freed]
  | cons w ws ih =>
      obtain ⟨which, looks⟩ := w
      rw [List.map_cons, List.flatMap_cons] at hdist
      rw [freeLists, freeClientList_eq looks (hrings which List.mem_cons_self) hclient
        (hlive which List.mem_cons_self) (hfuel which List.mem_cons_self)]
      have hlive' : ∀ w ∈ ws.map Prod.fst, ∀ p ∈ ls w,
          ((m.freed (ls which)).patch p).isSome = true := by
        intro w hw p hp
        have hnot : p ∉ ls which := fun hmem => (List.nodup_append.mp hdist).2.2 p hmem p
          (List.mem_flatMap.mpr ⟨w, hw, hp⟩) rfl
        show (if p ∈ ls which then none else m.patch p).isSome = true
        rw [if_neg hnot]
        exact hlive w (List.mem_cons_of_mem _ hw) p hp
      have hrest : freeLists fuel a ws (m.freed (ls which)) = _ :=
        ih (fun w hw => hrings w (List.mem_cons_of_mem _ hw)) hclient hlive'
          (List.nodup_append.mp hdist).2.1 (fun w hw => hfuel w (List.mem_cons_of_mem _ hw))
      simp only [bind, Except.bind]
      rw [hrest, freed_freed]
      rfl

/-- The way from the head of a list leads to the list of the caller: that one is taken for a
patch. -/
theorem freeClientList_fault {which : PatchList} (looks : Bool) (hne : ps ≠ [])
    (hpath : LeadsOver m.links.next (.list a which) (patchNodes ps) .dest) (hdist : ps.Nodup)
    (hclient : (m.client a).isSome = true) (hlive : ∀ p ∈ ps, (m.patch p).isSome = true)
    (hfuel : ps.length < fuel) : m.freeClientList fuel a which looks = .error .invalid := by
  have hvalid : m.valid (.list a which) = true := hclient
  have hfree : m.freePatchList fuel (.list a which) = .error .invalid := by
    obtain ⟨k, rfl⟩ : ∃ k, fuel = ps.length + (k + 1) := ⟨fuel - ps.length - 1, by omega⟩
    rw [freePatchList_run hpath hdist hlive hvalid (fun q => by simp) rfl (fun q => by simp)]
    rfl
  unfold freeClientList
  cases looks with
  | false => exact hfree
  | true =>
      have hfull : m.links.next (.list a which) ≠ .list a which := by
        obtain ⟨p, qs, rfl⟩ := List.exists_cons_of_ne_nil hne
        rw [show m.links.next (.list a which) = .patch p from hpath.1]
        simp
      rw [listEmpty_eq hvalid]
      simp only [bind, Except.bind, decide_eq_false hfull, Bool.false_eq_true, if_false]
      exact hfree

end Memory

/-! ## The whole function -/

/-- What handing over should do to an empty list of the caller: it has the backup of the client in
order, with every patch alive and as it was, and the manager has the other clients as they were. -/
def HandsOver (mgr : PatchManager) (m : Memory (Uuid × E) D) (clients : List (MgrClient E))
    (c : MgrClient E) : Prop :=
  ∃ m' enough, (∀ fuel, enough ≤ fuel →
      m.removeClient mgr fuel c.id (some .dest) = .ok (true, m')) ∧
    MgrHolds mgr.lists m' (clients.eraseP (fun d => d.id = c.id)) ∧
    m'.links.Ring .dest (patchNodes (c.lists .backupPatches)) ∧
    (∀ p ∈ c.lists .backupPatches, m'.patch p = m.patch p) ∧
    ∀ d ∈ clients.eraseP (fun d => d.id = c.id), ∀ p ∈ d.patches mgr.lists, m'.patch p = m.patch p

theorem PatchManager.backup_mem (mgr : PatchManager) : .backupPatches ∈ mgr.lists := by
  cases mgr <;> decide

/-- The lists of a client without its backup. -/
def MgrClient.without (c : MgrClient E) : PatchList → List Nat :=
  Function.update c.lists .backupPatches []

theorem MgrClient.without_sublist (c : MgrClient E) (ws : List PatchList) :
    (ws.flatMap c.without).Sublist (c.patches ws) := by
  apply List.Sublist.flatMap_right
  intro w _
  by_cases hw : w = .backupPatches
  · rw [hw, MgrClient.without, Function.update_self]
    exact List.nil_sublist _
  · rw [MgrClient.without, Function.update_of_ne hw]

/-- A patch of the backup is on no other list. -/
theorem MgrClient.backup_not_without {ws : List PatchList} (hw : .backupPatches ∈ ws)
    (hdist : (c.patches ws).Nodup) {p : Nat} (hp : p ∈ c.lists .backupPatches) :
    p ∉ ws.flatMap c.without := by
  intro hmem
  obtain ⟨w, hws, hpw⟩ := List.mem_flatMap.mp hmem
  by_cases hb : w = .backupPatches
  · rw [hb, MgrClient.without, Function.update_self] at hpw
    exact absurd hpw List.not_mem_nil
  · rw [MgrClient.without, Function.update_of_ne hb] at hpw
    have hsymm : Std.Symm (Function.onFun List.Disjoint c.lists) := ⟨fun _ _ h _ hx hy => h hy hx⟩
    exact (List.nodup_flatMap.mp hdist).2.forall hws hw hb hpw hp

/-- The client is out of the list of its manager, and its backup is about to be moved. -/
structure Leaving (mgr : PatchManager) (m : Memory (Uuid × E) D) (c : MgrClient E)
    (links : Links Ptr) (clients : List (MgrClient E)) : Prop where
  split : ∃ l₁ l₂, clients = l₁ ++ c :: l₂ ∧ clients.eraseP (fun d => d.id = c.id) = l₁ ++ l₂
  deleted : m.listDel (.client c.addr) = .ok { m with links := links }
  ring : links.Ring .clients ((clients.eraseP (fun d => d.id = c.id)).map (fun d => .client d.addr))
  same : ∀ p, p ≠ .clients → (∀ a, p ≠ .client a) → m.links.Alike links p

theorem MgrHolds.leaving (h : MgrHolds mgr.lists m clients)
    (hfind : clients.find? (fun d => d.id = c.id) = some c) :
    ∃ links, Leaving mgr m c links clients := by
  obtain ⟨-, l₁, l₂, rfl, hfirst⟩ := List.find?_eq_some_iff_append.mp hfind
  have herase : (l₁ ++ c :: l₂).eraseP (fun d => d.id = c.id) = l₁ ++ l₂ := by
    rw [List.eraseP_append_right _ (fun d hd => by simpa using hfirst d hd),
      List.eraseP_cons_of_pos (by simp)]
  obtain ⟨links, hdel, hring, hsame⟩ := h.listDel
  exact ⟨links, ⟨⟨l₁, l₂, rfl, herase⟩, hdel, herase ▸ hring, hsame⟩⟩

/-- A ring of the client is the one it was. -/
theorem Leaving.client_ring {links : Links Ptr} (hl : Leaving mgr m c links clients)
    (hc : ClientHeld mgr.lists m c) {w : PatchList} (hw : w ∈ mgr.lists) :
    links.Ring (.list c.addr w) (patchNodes (c.lists w)) := by
  refine (hc.rings w hw).alike fun p hp => hl.same p ?_ ?_
  · rintro rfl
    rcases List.mem_cons.mp hp with hp | hp
    · exact absurd hp (by simp)
    · obtain ⟨q, -, hq⟩ := List.mem_map.mp hp
      exact absurd hq (by simp)
  · rintro b rfl
    rcases List.mem_cons.mp hp with hp | hp
    · exact absurd hp (by simp)
    · obtain ⟨q, -, hq⟩ := List.mem_map.mp hp
      exact absurd hq (by simp)

variable {links links' : Links Ptr}

/-- The function, once the client has been found and taken out. -/
theorem Leaving.removeClient_eq (hl : Leaving mgr m c links clients)
    (h : MgrHolds mgr.lists m clients)
    (hfind : clients.find? (fun d => d.id = c.id) = some c) (hfuel : clients.length < fuel)
    (hsplice : mgr.splice { m with links := links } (.list c.addr .backupPatches) .dest
      = .ok { m with links := links' }) :
    m.removeClient mgr fuel c.id (some .dest) = (do
      let m ← Memory.freeLists fuel c.addr mgr.freedLists { m with links := links' }
      let m ← m.clientFree c.addr
      return (true, m)) := by
  unfold Memory.removeClient
  rw [h.findClient hfind hfuel]
  simp only [bind, Except.bind]
  rw [hl.deleted]
  dsimp only
  rw [hsplice]

/-- The other clients are as they were, when the lists of the client have been freed. -/
theorem Leaving.rest (hl : Leaving mgr m c links clients) (h : MgrHolds mgr.lists m clients)
    (hmoved : Moved { m with links := links } c.addr (c.lists .backupPatches) links')
    {ps : List Nat} (hps : ps ⊆ c.patches mgr.lists) :
    let m' : Memory (Uuid × E) D :=
      { ({ m with links := links' } : Memory (Uuid × E) D).freed ps with
      client := Function.update m.client c.addr none }
    MgrHolds mgr.lists m' (clients.eraseP (fun d => d.id = c.id)) ∧
      ∀ d ∈ clients.eraseP (fun d => d.id = c.id), ∀ p ∈ d.patches mgr.lists,
        m'.patch p = m.patch p := by
  obtain ⟨l₁, l₂, hsplit, herase⟩ := hl.split
  have hperm : clients.Perm (c :: (l₁ ++ l₂)) := by
    rw [hsplit]
    exact List.perm_middle
  have hdist := ((hperm.flatMap_right (MgrClient.patches mgr.lists)).nodup_iff).mp h.distinct
  rw [List.flatMap_cons] at hdist
  have haddr : ∀ d ∈ l₁ ++ l₂, d.addr ≠ c.addr := by
    have hnodup := (List.nodup_cons.mp h.ring.nodup).2
    rw [((hperm.map (fun d => Ptr.client d.addr)).nodup_iff), List.map_cons] at hnodup
    intro d hd heq
    exact (List.nodup_cons.mp hnodup).1 (List.mem_map.mpr ⟨d, hd, by rw [heq]⟩)
  -- no patch of another client is on a list of this one
  have hapart : ∀ d ∈ l₁ ++ l₂, ∀ p ∈ d.patches mgr.lists, p ∉ c.patches mgr.lists := by
    intro d hd p hp hpc
    exact (List.nodup_append.mp hdist).2.2 p hpc p (List.mem_flatMap.mpr ⟨d, hd, hp⟩) rfl
  have hbackup : ∀ p ∈ c.lists .backupPatches, p ∈ c.patches mgr.lists :=
    fun p hp => List.mem_flatMap.mpr ⟨.backupPatches, mgr.backup_mem, hp⟩
  have hpatch : ∀ d ∈ l₁ ++ l₂, ∀ p ∈ d.patches mgr.lists,
      (if p ∈ ps then none else m.patch p) = m.patch p :=
    fun d hd p hp => if_neg fun hmem => hapart d hd p hp (hps hmem)
  intro m'
  rw [herase]
  refine ⟨⟨?_, fun d hd => ?_, (List.nodup_append.mp hdist).2.1⟩, hpatch⟩
  · have hring := hl.ring
    rw [herase] at hring
    refine hring.alike fun p hp => hmoved.same p ?_ ?_ ?_
    all_goals
      rcases List.mem_cons.mp hp with rfl | hp
      · simp [patchNodes]
      · obtain ⟨d, -, rfl⟩ := List.mem_map.mp hp
        simp [patchNodes]
  · refine (h.held d (hperm.symm.subset (List.mem_cons_of_mem _ hd))).same ?_ (hpatch d hd) ?_
    · exact Function.update_of_ne (haddr d hd) _ _
    · rintro p (⟨w, rfl⟩ | ⟨q, hq, rfl⟩)
      · refine (hl.same _ (by simp) (by simp)).trans
          (hmoved.same _ (by simp) ?_ (by simp [patchNodes]))
        intro heq
        exact haddr d hd (Ptr.list.inj heq).1
      · refine (hl.same _ (by simp) (by simp)).trans (hmoved.same _ (by simp) (by simp) ?_)
        intro hmem
        obtain ⟨r, hr, heq⟩ := mem_patchNodes.mp hmem
        rw [Ptr.patch.inj heq] at hq
        exact hapart d hd r hq (hbackup r hr)

/-- A list of the client other than its backup, after the backup has been moved. -/
theorem Leaving.without_ring (hl : Leaving mgr m c links clients) (hc : ClientHeld mgr.lists m c)
    (hdist : (c.patches mgr.lists).Nodup)
    (hmoved : Moved { m with links := links } c.addr
    (c.lists .backupPatches) links') {w : PatchList}
    (hw : w ∈ mgr.lists) (hne : w ≠ .backupPatches) :
    links'.Ring (.list c.addr w) (patchNodes (c.without w)) := by
  have hwithout : c.without w = c.lists w := Function.update_of_ne hne _ _
  rw [hwithout]
  refine (hl.client_ring hc hw).alike fun p hp => ?_
  rcases List.mem_cons.mp hp with rfl | hp
  · refine hmoved.same _ (by simp) ?_ (by simp [patchNodes])
    intro heq
    exact hne (Ptr.list.inj heq).2
  · obtain ⟨q, hq, rfl⟩ := mem_patchNodes.mp hp
    refine hmoved.same _ (by simp) (by simp) fun hmem => ?_
    obtain ⟨r, hr, heq⟩ := mem_patchNodes.mp hmem
    rw [← Ptr.patch.inj heq] at hr
    apply MgrClient.backup_not_without mgr.backup_mem hdist hr
    exact List.mem_flatMap.mpr ⟨w, hw, by rwa [hwithout]⟩

/-- The length of a list of the client is bounded by the number of its patches. -/
theorem MgrClient.length_le {ws : List PatchList} (c : MgrClient E) {w : PatchList} (hw : w ∈ ws) :
    (c.lists w).length ≤ (c.patches ws).length := by
  unfold MgrClient.patches
  obtain ⟨l, l', rfl⟩ := List.append_of_mem hw
  rw [List.flatMap_append, List.flatMap_cons, List.length_append, List.length_append]
  omega

theorem MgrClient.without_length_le {ws : List PatchList} (c : MgrClient E) {w : PatchList}
    (hw : w ∈ ws) : (c.without w).length ≤ (c.patches ws).length := by
  by_cases hne : w = .backupPatches
  · rw [hne, MgrClient.without, Function.update_self]
    exact Nat.zero_le _
  · rw [MgrClient.without, Function.update_of_ne hne]
    exact c.length_le hw

/-- The backup is handed over if there is none, or if the head of its list is made anew. -/
theorem handsOver (h : MgrHolds mgr.lists m clients) (hdest : m.links.Ring .dest [])
    (hfind : clients.find? (fun d => d.id = c.id) = some c)
    (hmgr : mgr = .jackdbus ∨ c.lists .backupPatches = []) : HandsOver mgr m clients c := by
  have hc := h.held c (List.mem_of_find?_eq_some hfind)
  have hclient : (m.client c.addr).isSome = true := by
    rw [hc.data]
    rfl
  have hdist : (c.patches mgr.lists).Nodup :=
    (List.nodup_flatMap.mp h.distinct).1 c (List.mem_of_find?_eq_some hfind)
  obtain ⟨links, hl⟩ := h.leaving hfind
  have hdest' : links.Ring .dest [] := by
    refine hdest.alike fun p hp => ?_
    rw [List.mem_singleton.mp hp]
    exact hl.same _ (by simp) (by simp)
  obtain ⟨links', hsplice, hmoved, hempty⟩ := splice_clean (m := { m with links := links })
    (hl.client_ring hc mgr.backup_mem) hdest' hclient (hc.live _ mgr.backup_mem) hmgr
  have hrings : ∀ w ∈ mgr.lists, links'.Ring (.list c.addr w) (patchNodes (c.without w)) := by
    intro w hw
    by_cases hne : w = .backupPatches
    · rw [hne, MgrClient.without, Function.update_self]
      exact hempty
    · exact hl.without_ring hc hdist hmoved hw hne
  have hlive : ∀ w ∈ mgr.lists, ∀ p ∈ c.without w, (m.patch p).isSome = true := by
    intro w hw p hp
    by_cases hne : w = .backupPatches
    · rw [hne, MgrClient.without, Function.update_self] at hp
      exact absurd hp List.not_mem_nil
    · rw [MgrClient.without, Function.update_of_ne hne] at hp
      exact hc.live w hw p hp
  obtain ⟨hrest, hothers⟩ := hl.rest h hmoved (c.without_sublist mgr.lists).subset
  refine ⟨_, clients.length + (c.patches mgr.lists).length + 1, fun fuel hfuel => ?_, hrest,
    hmoved.dest, fun p hp => if_neg (MgrClient.backup_not_without mgr.backup_mem hdist hp), hothers⟩
  have hfreed : Memory.freeLists fuel c.addr mgr.freedLists { m with links := links' }
      = .ok (({ m with links := links' } : Memory (Uuid × E) D).freed
        (mgr.lists.flatMap c.without)) := by
    refine Memory.freeLists_eq (m := { m with links := links' }) c.without hrings hclient
      hlive ?_ ?_
    · exact hdist.sublist (c.without_sublist _)
    · intro w hw
      have hle := c.without_length_le (show w ∈ mgr.lists from hw)
      omega
  rw [hl.removeClient_eq h hfind (by omega) hsplice, hfreed]
  simp only [bind, Except.bind]
  have hthere : (({ m with links := links' } : Memory (Uuid × E) D).freed
      (mgr.lists.flatMap c.without)).client c.addr = some (c.id, c.data) := hc.data
  have hfree : Memory.clientFree
      (({ m with links := links' } : Memory (Uuid × E) D).freed (mgr.lists.flatMap c.without))
      c.addr =
      .ok { ({ m with links := links' } : Memory (Uuid × E) D).freed
              (mgr.lists.flatMap c.without) with
            client := Function.update m.client c.addr none } := by
    rw [Memory.clientFree, hthere]
    rfl
  rw [hfree]
  rfl

theorem PatchManager.freedLists_split (mgr : PatchManager) :
    ∃ front looks rest, mgr.freedLists = front ++ (.backupPatches, looks) :: rest ∧
      .backupPatches ∉ front.map Prod.fst := by
  cases mgr with
  | alsa => exact ⟨[(.patches, true), (.oldPatches, false)], true, [], rfl, by decide⟩
  | jack => exact ⟨[(.oldPatches, false)], false, [(.patches, false)], rfl, by decide⟩
  | jackdbus => exact ⟨[(.oldPatches, false)], false, [], rfl, by decide⟩

/-- A list that cannot be freed stops the destructor. -/
theorem Memory.freeLists_fault {front rest : List (PatchList × Bool)} {w : PatchList × Bool}
    (hfront : freeLists fuel a front m = .ok m')
    (hfault : m'.freeClientList fuel a w.1 w.2 = .error .invalid) :
    freeLists fuel a (front ++ w :: rest) m = .error .invalid := by
  induction front generalizing m with
  | nil =>
      rw [Except.ok.inj hfront]
      simp [freeLists, hfault, bind, Except.bind]
  | cons v front ih =>
      rw [List.cons_append, freeLists]
      rw [freeLists] at hfront
      cases hv : m.freeClientList fuel a v.1 v.2 with
      | error e =>
          rw [hv] at hfront
          exact absurd hfront (by simp [bind, Except.bind])
      | ok u =>
          rw [hv] at hfront
          exact ih hfront

/-- The patches of the backup are destroyed where they are, and the list of the caller after them.
-/
theorem removeClient_fault (h : MgrHolds mgr.lists m clients) (hdest : m.links.Ring .dest [])
    (hfind : clients.find? (fun d => d.id = c.id) = some c) (hmgr : mgr ≠ .jackdbus)
    (hbackup : c.lists .backupPatches ≠ [])
    (hfuel : clients.length + (c.patches mgr.lists).length < fuel) :
    m.removeClient mgr fuel c.id (some .dest) = .error .invalid := by
  have hc := h.held c (List.mem_of_find?_eq_some hfind)
  have hclient : (m.client c.addr).isSome = true := by
    rw [hc.data]
    rfl
  have hdist : (c.patches mgr.lists).Nodup :=
    (List.nodup_flatMap.mp h.distinct).1 c (List.mem_of_find?_eq_some hfind)
  obtain ⟨links, hl⟩ := h.leaving hfind
  have hdest' : links.Ring .dest [] := by
    refine hdest.alike fun p hp => ?_
    rw [List.mem_singleton.mp hp]
    exact hl.same _ (by simp) (by simp)
  obtain ⟨links', hsplice, hmoved, hpath⟩ := listSplice_moved (m := { m with links := links })
    (hl.client_ring hc mgr.backup_mem) hbackup hdest' hclient (hc.live _ mgr.backup_mem)
  have hsplice : mgr.splice { m with links := links } (.list c.addr .backupPatches) .dest
      = .ok { m with links := links' } := by
    cases mgr with
    | alsa => exact hsplice
    | jack => exact hsplice
    | jackdbus => exact absurd rfl hmgr
  rw [hl.removeClient_eq h hfind (by omega) hsplice]
  obtain ⟨front, looks, rest, hsplit, hfront⟩ := mgr.freedLists_split
  have hlists : mgr.lists = front.map Prod.fst ++ .backupPatches :: rest.map Prod.fst := by
    rw [PatchManager.lists, hsplit, List.map_append, List.map_cons]
  have hmem : ∀ w ∈ front.map Prod.fst, w ∈ mgr.lists ∧ w ≠ .backupPatches := by
    intro w hw
    refine ⟨?_, fun heq => hfront (heq ▸ hw)⟩
    rw [hlists]
    exact List.mem_append_left _ hw
  have hsub : ((front.map Prod.fst).flatMap c.without).Sublist (mgr.lists.flatMap c.without) := by
    rw [hlists, List.flatMap_append]
    exact List.sublist_append_left _ _
  -- the lists in front of the backup are freed
  have hfreed : Memory.freeLists fuel c.addr front { m with links := links' }
      = .ok (({ m with links := links' } : Memory (Uuid × E) D).freed
          ((front.map Prod.fst).flatMap c.without)) := by
    apply Memory.freeLists_eq c.without
    · intro w hw
      exact hl.without_ring hc hdist hmoved (hmem w hw).1 (hmem w hw).2
    · exact hclient
    · intro w hw p hp
      rw [MgrClient.without, Function.update_of_ne (hmem w hw).2] at hp
      exact hc.live w (hmem w hw).1 p hp
    · exact hdist.sublist (hsub.trans (c.without_sublist _))
    · intro w hw
      have hle := c.without_length_le (hmem w hw).1
      omega
  have hfault : Memory.freeLists fuel c.addr mgr.freedLists { m with links := links' }
      = .error .invalid := by
    rw [hsplit]
    refine Memory.freeLists_fault hfreed
      (Memory.freeClientList_fault looks hbackup hpath ?_ hclient ?_ ?_)
    · exact (List.nodup_flatMap.mp hdist).1 _ mgr.backup_mem
    · intro p hp
      show (if p ∈ (front.map Prod.fst).flatMap c.without then none else m.patch p).isSome = true
      rw [if_neg fun hin =>
        MgrClient.backup_not_without mgr.backup_mem hdist hp (hsub.subset hin)]
      exact hc.live _ mgr.backup_mem p hp
    · have hle := c.length_le mgr.backup_mem
      omega
  rw [hfault]
  rfl

/-- **The backup is handed over intact** by the manager for jackdbus, and by the other two only if
there is none; so all three do the same exactly if there is none. -/
theorem handed_over_iff (m : PatchManager → Memory (Uuid × E) D) (clients : List (MgrClient E))
    (c : MgrClient E) (h : ∀ mgr, MgrHolds mgr.lists (m mgr) clients)
    (hdest : ∀ mgr, (m mgr).links.Ring .dest [])
    (hfind : clients.find? (fun d => d.id = c.id) = some c) :
    (∀ mgr, HandsOver mgr (m mgr) clients c ↔ mgr = .jackdbus ∨ c.lists .backupPatches = []) ∧
      ((∀ mgr, HandsOver mgr (m mgr) clients c) ↔ c.lists .backupPatches = []) := by
  have hiff : ∀ mgr, HandsOver mgr (m mgr) clients c ↔
      mgr = .jackdbus ∨ c.lists .backupPatches = [] := by
    intro mgr
    constructor
    · rintro ⟨m', enough, hrun, -⟩
      by_contra hnot
      obtain ⟨hmgr, hbackup⟩ := not_or.mp hnot
      have hok := hrun (enough + (clients.length + (c.patches mgr.lists).length) + 1) (by omega)
      rw [removeClient_fault (h mgr) (hdest mgr) hfind hmgr hbackup (by omega)] at hok
      exact absurd hok (by simp)
    · exact handsOver (h mgr) (hdest mgr) hfind
  refine ⟨hiff, fun hall => ?_, fun hnil mgr => (hiff mgr).mpr (Or.inr hnil)⟩
  exact ((hiff .alsa).mp (hall .alsa)).resolve_left (by decide)

/-- A manager with one client, of which one patch has been backed up. -/
def oneBackup : Memory (Uuid × UInt8) Unit :=
  let link : Ptr → Ptr
    | .clients => .client 0
    | .client 0 => .clients
    | .list 0 .backupPatches => .patch 0
    | .patch 0 => .list 0 .backupPatches
    | p => p
  { links := { next := link, prev := link }
    client := fun c => if c = 0 then some (1, 128) else none
    patch := fun p => if p = 0 then some () else none
    brk := 1 }

/-- The client. -/
def backedUp : MgrClient UInt8 where
  addr := 0
  id := 1
  data := 128
  lists := fun w => if w = .backupPatches then [0] else []

theorem oneBackup_holds (mgr : PatchManager) : MgrHolds mgr.lists oneBackup [backedUp] where
  ring := ⟨⟨rfl, rfl⟩, ⟨rfl, rfl⟩, by decide⟩
  held c hc := by
    rw [List.mem_singleton.mp hc]
    refine ⟨rfl, fun w _ => ?_, fun w _ p hp => ?_⟩
    · cases w with
      | backupPatches => exact ⟨⟨rfl, rfl⟩, ⟨rfl, rfl⟩, by decide⟩
      | patches => exact Links.ring_nil.mpr ⟨rfl, rfl⟩
      | oldPatches => exact Links.ring_nil.mpr ⟨rfl, rfl⟩
    · cases w with
      | backupPatches =>
          rw [List.mem_singleton.mp hp]
          rfl
      | patches => exact absurd hp List.not_mem_nil
      | oldPatches => exact absurd hp List.not_mem_nil
  distinct := by cases mgr <;> decide

/-- What this says of one backup. -/
theorem handed_over_iff_one :
    (∀ mgr, HandsOver mgr oneBackup [backedUp] backedUp ↔
        mgr = .jackdbus ∨ backedUp.lists .backupPatches = []) ∧
      ((∀ mgr, HandsOver mgr oneBackup [backedUp] backedUp) ↔
        backedUp.lists .backupPatches = []) :=
  handed_over_iff (fun _ => oneBackup) [backedUp] backedUp oneBackup_holds
    (fun _ => Links.ring_nil.mpr ⟨rfl, rfl⟩) rfl

/-- The ALSA manager, and the one for JACK without jackdbus, do not hand this backup over: it is
destroyed, and lashd goes on to destroy the list that it was to go to. -/
theorem backup_not_handed_over :
    ¬ HandsOver .alsa oneBackup [backedUp] backedUp ∧
      ¬ HandsOver .jack oneBackup [backedUp] backedUp ∧
      oneBackup.alsaMgrRemoveClient 9 1 (some .dest) = .error .invalid ∧
        oneBackup.jackMgrRemoveClient 9 1 (some .dest) = .error .invalid := by
  have hdest : oneBackup.links.Ring .dest [] := Links.ring_nil.mpr ⟨rfl, rfl⟩
  have hfault : ∀ mgr : PatchManager, mgr ≠ .jackdbus → ∀ fuel, 2 < fuel →
      oneBackup.removeClient mgr fuel 1 (some .dest) = .error .invalid := by
    intro mgr hmgr fuel hfuel
    apply removeClient_fault (oneBackup_holds mgr) hdest (c := backedUp) rfl hmgr (by decide)
    have hlength : (backedUp.patches mgr.lists).length = 1 := by
      cases mgr <;> rfl
    rw [hlength]
    exact hfuel
  have hnot : ∀ mgr : PatchManager,
      mgr ≠ .jackdbus → ¬ HandsOver mgr oneBackup [backedUp] backedUp := by
    rintro mgr hmgr ⟨m', enough, hrun, -⟩
    have hok := hrun (enough + 3) (by omega)
    rw [show backedUp.id = 1 from rfl, hfault mgr hmgr (enough + 3) (by omega)] at hok
    exact absurd hok (by simp)
  exact ⟨hnot .alsa (by decide), hnot .jack (by decide), hfault .alsa (by decide) 9 (by decide),
    hfault .jack (by decide) 9 (by decide)⟩

end Lash
