import Lash.Lib.Ring
import Mathlib.Data.List.Basic

/-!
# Lists in memory

`common/klist.h`, for the lists of the managers: a manager has a list of clients, and each of its
clients some lists of patches. The links lie in the structs that are linked, so a list is only as
good as the structs on it are alive. Reading or writing a link that lies in a struct that has been
freed, or in none, is a fault, and so is taking a list head for a patch.

The loops are given fuel. Running out of it is told apart from a fault.
-/

namespace Lash

/-! ## Addresses -/

/-- The lists of patches in a client of a manager. -/
inductive PatchList where
  | patches
  | oldPatches
  | backupPatches
  deriving DecidableEq

/-- The addresses of links: in the structs, in the local variables of a function, and the two that
`list_del` leaves in a node. -/
inductive Ptr where
  | poison1
  | poison2
  /-- `&mgr->clients` -/
  | clients
  /-- `&client->siblings` -/
  | client (c : Nat)
  /-- `&client->patches`, `&client->old_patches`, `&client->backup_patches` -/
  | list (c : Nat) (which : PatchList)
  /-- `&patch->siblings` -/
  | patch (p : Nat)
  /-- `LIST_HEAD(patches)` -/
  | patches
  /-- The list of the caller. -/
  | dest
  deriving DecidableEq

/-- Why a function does not return. -/
inductive MemoryFault where
  | invalid
  | fuel
  deriving DecidableEq

/-- The links, and the structs that are alive. Addresses from `brk` on have not been used yet. -/
structure Memory (C D : Type) where
  links : Links Ptr
  client : Nat → Option C
  patch : Nat → Option D
  brk : Nat

namespace Memory

variable {C D : Type}

/-- There is a link at this address. -/
def valid (m : Memory C D) : Ptr → Bool
  | .poison1 | .poison2 => false
  | .clients | .patches | .dest => true
  | .client c | .list c _ => (m.client c).isSome
  | .patch p => (m.patch p).isSome

/-- `ptr->next` -/
def next (m : Memory C D) (p : Ptr) : Except MemoryFault Ptr :=
  if m.valid p then .ok (m.links.next p) else .error .invalid

/-- `ptr->prev` -/
def prev (m : Memory C D) (p : Ptr) : Except MemoryFault Ptr :=
  if m.valid p then .ok (m.links.prev p) else .error .invalid

/-- `ptr->next = q` -/
def setNext (m : Memory C D) (p q : Ptr) : Except MemoryFault (Memory C D) :=
  if m.valid p then .ok { m with links := m.links.setNext p q } else .error .invalid

/-- `ptr->prev = q` -/
def setPrev (m : Memory C D) (p q : Ptr) : Except MemoryFault (Memory C D) :=
  if m.valid p then .ok { m with links := m.links.setPrev p q } else .error .invalid

/-! ## The operations -/

/-- `INIT_LIST_HEAD` -/
def initListHead (m : Memory C D) (list : Ptr) : Except MemoryFault (Memory C D) := do
  let m ← m.setNext list list
  m.setPrev list list

/-- `__list_add` -/
def listAddBetween (m : Memory C D) (new prev next : Ptr) : Except MemoryFault (Memory C D) := do
  let m ← m.setPrev next new
  let m ← m.setNext new next
  let m ← m.setPrev new prev
  m.setNext prev new

/-- `list_add_tail` -/
def listAddTail (m : Memory C D) (new head : Ptr) : Except MemoryFault (Memory C D) := do
  let prev ← m.prev head
  m.listAddBetween new prev head

/-- `list_del` -/
def listDel (m : Memory C D) (entry : Ptr) : Except MemoryFault (Memory C D) := do
  let prev ← m.prev entry
  let next ← m.next entry
  let m ← m.setPrev next prev
  let m ← m.setNext prev next
  let m ← m.setNext entry .poison1
  m.setPrev entry .poison2

/-- `list_empty` -/
def listEmpty (m : Memory C D) (head : Ptr) : Except MemoryFault Bool := do
  let next ← m.next head
  return next = head

/-- `list_splice` -/
def listSplice (m : Memory C D) (list head : Ptr) : Except MemoryFault (Memory C D) := do
  if ← m.listEmpty list then
    return m
  let first ← m.next list
  let last ← m.prev list
  let behind ← m.next head
  let m ← m.setPrev first head
  let m ← m.setNext head first
  let m ← m.setNext last behind
  m.setPrev behind last

/-- `list_splice_init` -/
def listSpliceInit (m : Memory C D) (list head : Ptr) : Except MemoryFault (Memory C D) := do
  if ← m.listEmpty list then
    return m
  let m ← m.listSplice list head
  m.initListHead list

/-! ## The loops -/

/-- `list_for_each`, left with the first node that passes a test. -/
def listForEach (head : Ptr) (test : Memory C D → Ptr → Except MemoryFault Bool) (m : Memory C D) :
    Nat → Ptr → Except MemoryFault (Option Ptr)
  | 0, _ => .error .fuel
  | fuel + 1, pos =>
    if pos = head then .ok none
    else do
      if ← test m pos then
        return some pos
      let n ← m.next pos
      listForEach head test m fuel n

/-- `list_for_each` with a body that changes the memory, from the node `pos` on. -/
def listForEachDo (head : Ptr) (body : Memory C D → Ptr → Except MemoryFault (Memory C D)) :
    Nat → Memory C D → Ptr → Except MemoryFault (Memory C D)
  | 0, _, _ => .error .fuel
  | fuel + 1, m, pos =>
    if pos = head then .ok m
    else do
      let m ← body m pos
      let n ← m.next pos
      listForEachDo head body fuel m n

/-- `list_for_each_safe`, from the node `pos` on, behind which `n` was read. -/
def listForEachSafe (head : Ptr) (body : Memory C D → Ptr → Except MemoryFault (Memory C D)) :
    Nat → Memory C D → Ptr → Ptr → Except MemoryFault (Memory C D)
  | 0, _, _, _ => .error .fuel
  | fuel + 1, m, pos, n =>
    if pos = head then .ok m
    else do
      let m ← body m pos
      let n' ← m.next n
      listForEachSafe head body fuel m n n'

/-- `list_for_each_safe` -/
def forEachSafe (fuel : Nat) (head : Ptr)
    (body : Memory C D → Ptr → Except MemoryFault (Memory C D))
    (m : Memory C D) : Except MemoryFault (Memory C D) := do
  let pos ← m.next head
  let n ← m.next pos
  listForEachSafe head body fuel m pos n

/-! ## The structs -/

/-- `list_entry(node, patch_t, siblings)`, with what is in the patch. -/
def patchAt (m : Memory C D) : Ptr → Except MemoryFault (Nat × D)
  | .patch p =>
    match m.patch p with
    | some d => .ok (p, d)
    | none => .error .invalid
  | _ => .error .invalid

/-- `list_entry(node, client_t, siblings)`, with what is in the client. -/
def clientAt (m : Memory C D) : Ptr → Except MemoryFault (Nat × C)
  | .client c =>
    match m.client c with
    | some d => .ok (c, d)
    | none => .error .invalid
  | _ => .error .invalid

/-- `alsa_patch_destroy`, `jack_patch_destroy` -/
def patchDestroy (m : Memory C D) (p : Nat) : Except MemoryFault (Memory C D) :=
  match m.patch p with
  | some _ => .ok { m with patch := Function.update m.patch p none }
  | none => .error .invalid

/-- `alsa_patch_destroy(list_entry(node, alsa_patch_t, siblings))`, and the same for JACK. -/
def nodeDestroy (m : Memory C D) (node : Ptr) : Except MemoryFault (Memory C D) := do
  let patch ← m.patchAt node
  m.patchDestroy patch.1

/-- `alsa_client_free_patch_list`, `jack_mgr_client_free_patch_list` -/
def freePatchList (fuel : Nat) (m : Memory C D) (head : Ptr) : Except MemoryFault (Memory C D) :=
  m.forEachSafe fuel head nodeDestroy

/-! ## What the operations do -/

@[simp] theorem valid_links (m : Memory C D) (links : Links Ptr) (p : Ptr) :
    { m with links := links }.valid p = m.valid p := by
  cases p <;> rfl

variable {m : Memory C D} {p q head list entry : Ptr} {l : List Ptr}

theorem next_eq (h : m.valid p = true) : m.next p = .ok (m.links.next p) := if_pos h

theorem initListHead_eq (h : m.valid list = true) :
    m.initListHead list =
      .ok { m with links := (m.links.setNext list list).setPrev list list } := by
  simp [initListHead, setNext, setPrev, h, bind, Except.bind]

theorem listAddTail_eq (hhead : m.valid head = true) (hlast : m.valid (m.links.prev head) = true)
    (hp : m.valid p = true) : m.listAddTail p head =
      .ok { m with links := m.links.insert p (m.links.prev head) head } := by
  simp [listAddTail, listAddBetween, Memory.prev, setNext, setPrev, hhead, hlast, hp, bind,
    Except.bind, Links.insert]

theorem listDel_eq (h : m.valid entry = true) (hprev : m.valid (m.links.prev entry) = true)
    (hnext : m.valid (m.links.next entry) = true) : m.listDel entry =
      .ok { m with
        links := ((m.links.bypass (m.links.prev entry) (m.links.next entry)).setNext
          entry .poison1).setPrev entry .poison2 } := by
  simp [listDel, Memory.prev, Memory.next, setNext, setPrev, h, hprev, hnext, bind, Except.bind,
    Links.bypass]

theorem listEmpty_eq (h : m.valid head = true) :
    m.listEmpty head = .ok (decide (m.links.next head = head)) := by
  simp [listEmpty, Memory.next, h, bind, Except.bind, pure, Except.pure]

theorem listSplice_eq (hlist : m.valid list = true) (hhead : m.valid head = true)
    (hfirst : m.valid (m.links.next list) = true) (hlast : m.valid (m.links.prev list) = true)
    (hbehind : m.valid (m.links.next head) = true) : m.listSplice list head =
      .ok (if m.links.next list = list then m
        else { m with links := m.links.splice list head }) := by
  unfold listSplice
  rw [listEmpty_eq hlist]
  by_cases hempty : m.links.next list = list
  · simp [hempty, bind, Except.bind, pure, Except.pure]
  · simp [hempty, Memory.prev, Memory.next, setNext, setPrev, hlist, hhead, hfirst, hlast, hbehind,
      bind, Except.bind, Links.splice]

/-! ## What the loops do -/

/-- A search finds the first node that passes the test. -/
theorem listForEach_eq {test : Memory C D → Ptr → Except MemoryFault Bool} {t : Ptr → Bool}
    {a : Ptr} {fuel : Nat} (hpath : LeadsOver m.links.next a l head) (hnot : head ∉ l)
    (hvalid : ∀ x ∈ l, m.valid x = true) (htest : ∀ x ∈ l, test m x = .ok (t x))
    (hfuel : l.length < fuel) :
    m.listForEach head test fuel (l.head?.getD head) = .ok (l.find? t) := by
  induction l generalizing a fuel with
  | nil =>
      obtain ⟨k, rfl⟩ := Nat.exists_eq_succ_of_ne_zero (Nat.ne_of_gt hfuel)
      exact if_pos rfl
  | cons x l ih =>
      obtain ⟨k, rfl⟩ := Nat.exists_eq_succ_of_ne_zero (Nat.ne_of_gt (Nat.zero_lt_of_lt hfuel))
      have hne : x ≠ head := fun heq => hnot (heq ▸ List.mem_cons_self)
      rw [List.head?_cons, Option.getD_some, listForEach, if_neg hne, htest x List.mem_cons_self]
      cases htx : t x with
      | true =>
          rw [List.find?_cons_of_pos htx]
          rfl
      | false =>
          rw [List.find?_cons_of_neg (by simp [htx]), ← ih hpath.2
            (fun hmem => hnot (List.mem_cons_of_mem _ hmem))
            (fun y hy => hvalid y (List.mem_cons_of_mem _ hy))
            (fun y hy => htest y (List.mem_cons_of_mem _ hy))
            (Nat.lt_of_succ_lt_succ hfuel), ← hpath.2.head_eq]
          simp only [bind, Except.bind, Bool.false_eq_true, if_false]
          rw [next_eq (hvalid x List.mem_cons_self)]

/-- A loop over the nodes of a list, with a body that keeps the link of its node. -/
theorem listForEachDo_run {body : Memory C D → Ptr → Except MemoryFault (Memory C D)} {fuel : Nat}
    (I : List Ptr → Memory C D → Prop)
    (hstep : ∀ x l m, I (x :: l) m → x ≠ head ∧
      ∃ m', body m x = .ok m' ∧ I l m' ∧ m'.next x = .ok (l.head?.getD head))
    (hI : I l m) (hfuel : l.length < fuel) :
    ∃ m', listForEachDo head body fuel m (l.head?.getD head) = .ok m' ∧ I [] m' := by
  induction l generalizing m fuel with
  | nil =>
      obtain ⟨k, rfl⟩ := Nat.exists_eq_succ_of_ne_zero (Nat.ne_of_gt hfuel)
      exact ⟨m, if_pos rfl, hI⟩
  | cons x l ih =>
      obtain ⟨k, rfl⟩ := Nat.exists_eq_succ_of_ne_zero (Nat.ne_of_gt (Nat.zero_lt_of_lt hfuel))
      obtain ⟨hne, m', hbody, hI', hnext⟩ := hstep x l m hI
      obtain ⟨m'', hrun, hI''⟩ := ih hI' (Nat.lt_of_succ_lt_succ hfuel)
      refine ⟨m'', ?_, hI''⟩
      rw [List.head?_cons, Option.getD_some, listForEachDo, if_neg hne, hbody]
      simp only [bind, Except.bind]
      rw [hnext]
      exact hrun

/-- A loop over nodes that lead to `stop`: what holds of the nodes that are left and the memory
holds when it gets there. -/
theorem listForEachSafe_run {body : Memory C D → Ptr → Except MemoryFault (Memory C D)}
    {stop n : Ptr} (I : List Ptr → Memory C D → Prop)
    (hstep : ∀ x l m, I (x :: l) m → x ≠ head ∧ ∃ m', body m x = .ok m' ∧ I l m')
    (hnext : ∀ x l m, I (x :: l) m → m.next x = .ok (l.head?.getD stop))
    (hstop : ∀ m, I [] m → m.valid stop = true) (hI : I l m)
    (hn : m.next (l.head?.getD stop) = .ok n) :
    ∃ m', I [] m' ∧ ∀ fuel, listForEachSafe head body (l.length + fuel) m (l.head?.getD stop) n
      = listForEachSafe head body fuel m' stop (m'.links.next stop) := by
  induction l generalizing m n with
  | nil =>
      have hn : m.next stop = .ok n := hn
      rw [next_eq (hstop m hI)] at hn
      refine ⟨m, hI, fun fuel => ?_⟩
      rw [Except.ok.inj hn, List.length_nil, Nat.zero_add]
      rfl
  | cons x l ih =>
      obtain ⟨hne, m', hbody, hI'⟩ := hstep x l m hI
      have hn : n = l.head?.getD stop := by
        have hx := hnext x l m hI
        exact Except.ok.inj (hn.symm.trans hx)
      have hn' : ∃ n', m'.next n = .ok n' := by
        rw [hn]
        cases l with
        | nil => exact ⟨_, next_eq (hstop m' hI')⟩
        | cons y l => exact ⟨_, hnext y l m' hI'⟩
      obtain ⟨n', hn'⟩ := hn'
      obtain ⟨m'', hI'', hrun⟩ := ih hI' (n := n') (by rw [← hn, hn'])
      refine ⟨m'', hI'', fun fuel => ?_⟩
      rw [← hrun, ← hn, List.length_cons, Nat.succ_add]
      rw [List.head?_cons, Option.getD_some, listForEachSafe, if_neg hne, hbody]
      simp only [bind, Except.bind]
      rw [hn']

/-- The memory without some patches. -/
def freed (m : Memory C D) (ps : List Nat) : Memory C D :=
  { m with patch := fun p => if p ∈ ps then none else m.patch p }

theorem valid_freed (m : Memory C D) (ps : List Nat) (hp : ∀ q, p ≠ .patch q) :
    (m.freed ps).valid p = m.valid p := by
  cases p with
  | patch q => exact absurd rfl (hp q)
  | poison1 | poison2 | clients | client c | list c which | patches | dest => rfl

/-- A live patch is destroyed. -/
theorem nodeDestroy_freed {ps : List Nat} {a : Nat} (hlive : (m.patch a).isSome = true)
    (ha : a ∉ ps) : (m.freed ps).nodeDestroy (.patch a) = .ok (m.freed (ps ++ [a])) := by
  obtain ⟨d, hd⟩ := Option.isSome_iff_exists.mp hlive
  have hpatch : (m.freed ps).patch a = some d := by
    rw [← hd]
    exact if_neg ha
  have hupdate : Function.update (m.freed ps).patch a none = (m.freed (ps ++ [a])).patch := by
    funext q
    by_cases hq : q = a
    · rw [hq, Function.update_self]
      exact (if_pos (by simp)).symm
    · rw [Function.update_of_ne hq]
      show (if q ∈ ps then none else m.patch q) = if q ∈ ps ++ [a] then none else m.patch q
      simp [hq]
  simp only [nodeDestroy, patchAt, hpatch, bind, Except.bind, patchDestroy]
  rw [hupdate]
  rfl

/-- The patches on the way from a head to `stop` are destroyed. -/
theorem freePatchList_run {ps : List Nat} {stop : Ptr}
    (hpath : LeadsOver m.links.next head (ps.map .patch) stop) (hdist : ps.Nodup)
    (hlive : ∀ p ∈ ps, (m.patch p).isSome = true) (hhead : m.valid head = true)
    (hnot : ∀ q, head ≠ .patch q) (hstop : m.valid stop = true) (hstopNot : ∀ q, stop ≠ .patch q)
    (fuel : Nat) : m.freePatchList (ps.length + fuel) head =
      listForEachSafe head nodeDestroy fuel (m.freed ps) stop (m.links.next stop) := by
  have hnext : ∀ done a rest, done ++ a :: rest = ps →
      (m.freed done).next (.patch a) = .ok ((rest.map Ptr.patch).head?.getD stop) := by
    rintro done a rest rfl
    have hnotin : a ∉ done := fun ha =>
      (List.nodup_append.mp hdist).2.2 a ha a List.mem_cons_self rfl
    have hvalid : (m.freed done).valid (.patch a) = true := by
      show (if a ∈ done then none else m.patch a).isSome = true
      rw [if_neg hnotin]
      exact hlive a (by simp)
    rw [List.map_append, List.map_cons] at hpath
    rw [next_eq hvalid]
    exact congrArg Except.ok (LeadsOver.append.mp hpath).2.head_eq
  have hfirst : m.next head = .ok ((ps.map Ptr.patch).head?.getD stop) := by
    rw [next_eq hhead, hpath.head_eq]
  have hsecond : ∃ n, m.next ((ps.map Ptr.patch).head?.getD stop) = .ok n := by
    cases ps with
    | nil => exact ⟨_, next_eq hstop⟩
    | cons a rest => exact ⟨_, hnext [] a rest rfl⟩
  obtain ⟨n, hn⟩ := hsecond
  -- the nodes that are left are those of the patches that are still alive
  let I (l : List Ptr) (m' : Memory C D) : Prop :=
    ∃ done rest, done ++ rest = ps ∧ l = rest.map Ptr.patch ∧ m' = m.freed done
  have hloop : ∃ m', I [] m' ∧ ∀ fuel, listForEachSafe head nodeDestroy
      ((ps.map Ptr.patch).length + fuel) m ((ps.map Ptr.patch).head?.getD stop) n
        = listForEachSafe head nodeDestroy fuel m' stop (m'.links.next stop) := by
    refine listForEachSafe_run I ?_ ?_ ?_ ⟨[], ps, rfl, rfl, rfl⟩ hn
    · rintro x l _ ⟨done, rest, hrest, hl, rfl⟩
      cases rest with
      | nil => exact absurd hl (List.cons_ne_nil x l)
      | cons a rest =>
          obtain ⟨rfl, rfl⟩ := List.cons.inj hl
          have hnotin : a ∉ done := by
            rw [← hrest] at hdist
            exact fun ha => (List.nodup_append.mp hdist).2.2 a ha a List.mem_cons_self rfl
          have ha : a ∈ ps := by
            rw [← hrest]
            simp
          refine ⟨(hnot a).symm, m.freed (done ++ [a]), nodeDestroy_freed (hlive a ha) hnotin,
            done ++ [a], rest, ?_, rfl, rfl⟩
          rw [List.append_assoc]
          exact hrest
    · rintro x l _ ⟨done, rest, hrest, hl, rfl⟩
      cases rest with
      | nil => exact absurd hl (List.cons_ne_nil x l)
      | cons a rest =>
          obtain ⟨rfl, rfl⟩ := List.cons.inj hl
          exact hnext done a rest hrest
    · rintro _ ⟨done, rest, -, -, rfl⟩
      rw [valid_freed m done hstopNot]
      exact hstop
  obtain ⟨_, ⟨done, rest, hrest, hnil, rfl⟩, hrun⟩ := hloop
  have hall : done = ps := by
    rw [← hrest, List.map_eq_nil_iff.mp hnil.symm, List.append_nil]
  rw [hall] at hrun
  have hrun := hrun fuel
  rw [List.length_map] at hrun
  unfold freePatchList forEachSafe
  rw [hfirst]
  simp only [bind, Except.bind]
  rw [hn]
  exact hrun

/-- The patches of a ring are destroyed. -/
theorem freePatchList_eq {ps : List Nat} (h : m.links.Ring head (ps.map .patch))
    (hlive : ∀ p ∈ ps, (m.patch p).isSome = true) (hhead : m.valid head = true)
    (hnot : ∀ q, head ≠ .patch q) {fuel : Nat} (hfuel : ps.length < fuel) :
    m.freePatchList fuel head = .ok (m.freed ps) := by
  have hdist : ps.Nodup := List.Nodup.of_map _ (List.nodup_cons.mp h.nodup).2
  obtain ⟨k, rfl⟩ : ∃ k, fuel = ps.length + (k + 1) := ⟨fuel - ps.length - 1, by omega⟩
  rw [freePatchList_run h.next hdist hlive hhead hnot hhead hnot]
  exact if_pos rfl

end Memory

end Lash
