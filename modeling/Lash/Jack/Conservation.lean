import Lash.Jack.Registry
import Mathlib.Data.List.Perm.Basic
import Mathlib.Data.List.InsertIdx

/-!
# Where the patches of a LASH client are

The patches that were recorded for a client are either with the client or, as a backup, with the
entry of its JACK client (`Kept`). Binding moves them to the entry and losing the client brings
them back. What is bound a second time while the entry is still there gets nothing; as long as
that does not happen, a JACK client is given what was recorded last (`patches_are_conserved`).
-/

namespace Lash

open First

/-! ## The record -/

/-- The patches that were recorded for a client, one list after the other. -/
def recordsOf (a : Nat) (log : List JackEvent) : List (List JackPatch) :=
  log.filterMap (fun e => match e with
    | .recorded b patches => if b = a then some patches else none
    | _ => none)

/-- The patches that were recorded last. -/
def lastRecorded (a : Nat) (log : List JackEvent) : List JackPatch :=
    (recordsOf a log).getLast?.getD []

/-- Every JACK client that was bound was given the patches that had been recorded last. -/
def Conserves (log : List JackEvent) : Prop :=
  ∀ l₁ l₂ a patches, log = l₁ ++ .bound a patches :: l₂ → patches.Perm (lastRecorded a l₁)

section

variable {a b : Nat} {log l : List JackEvent} {patches : List JackPatch} {e : JackEvent}

theorem recordsOf_append (a : Nat) (log l : List JackEvent) :
    recordsOf a (log ++ l) = recordsOf a log ++ recordsOf a l := List.filterMap_append

theorem recordsOf_requests (h : ∀ e ∈ l, e.isRequest = true) : recordsOf a l = [] := by
  apply List.filterMap_eq_nil_iff.mpr
  intro e he
  have hr := h e he
  cases e with
  | request c₁ p₁ c₂ p₂ => rfl
  | bound c ps => exact absurd hr (by simp [JackEvent.isRequest])
  | recorded c ps => exact absurd hr (by simp [JackEvent.isRequest])

theorem lastRecorded_append (h : recordsOf a l = []) :
    lastRecorded a (log ++ l) = lastRecorded a log := by
  rw [lastRecorded, recordsOf_append, h, List.append_nil, lastRecorded]

theorem lastRecorded_recorded : lastRecorded a (log ++ [.recorded a patches]) = patches := by
  rw [lastRecorded, recordsOf_append]
  simp [recordsOf]

theorem lastRecorded_other (h : b ≠ a) :
    lastRecorded a (log ++ [.recorded b patches]) = lastRecorded a log := by
  apply lastRecorded_append
  simp [recordsOf, h]

/-- One more event. -/
theorem Conserves.append_one (h : Conserves log)
    (he : ∀ a patches, e = .bound a patches → patches.Perm (lastRecorded a log)) :
    Conserves (log ++ [e]) := by
  intro l₁ l₂ a patches heq
  rcases List.eq_nil_or_concat' l₂ with rfl | ⟨l, x, rfl⟩
  · obtain ⟨rfl, hx⟩ := List.append_inj' heq rfl
    exact he a patches (List.singleton_inj.mp hx)
  · rw [← List.cons_append, ← List.append_assoc] at heq
    obtain ⟨rfl, -⟩ := List.append_inj' heq rfl
    exact h l₁ l a patches rfl

theorem Conserves.append (h : Conserves log) (hl : ∀ e ∈ l, e.isRequest = true) :
    Conserves (log ++ l) := by
  induction l generalizing log with
  | nil => rwa [List.append_nil]
  | cons e l ih =>
      rw [List.append_cons]
      apply ih
      · apply h.append_one
        rintro a patches rfl
        have hr := hl (.bound a patches) List.mem_cons_self
        exact absurd hr (by simp [JackEvent.isRequest])
      · exact fun f hf => hl f (List.mem_cons_of_mem _ hf)

end

/-! ## Backups -/

/-- The backups in the entries that have an id. -/
def JackDbusMgr.backupsOf (m : JackDbusMgr) (id : Uuid) : List (List JackPatch) :=
  (m.clients.filter (fun c => c.id = id)).map JackMgrClient.backupPatches

section

variable {m m' : JackDbusMgr} {id id' : Uuid}

theorem backupsOf_eq_nil : m.backupsOf id = [] ↔ ∀ e ∈ m.clients, e.id ≠ id := by
  rw [JackDbusMgr.backupsOf, List.map_eq_nil_iff, List.filter_eq_nil_iff]
  simp

/-- The backups depend on the ids and the backups of the entries only. -/
theorem backupsOf_congr
    (h : m'.clients.map (fun c => (c.id, c.backupPatches))
      = m.clients.map (fun c => (c.id, c.backupPatches))) (id : Uuid) :
    m'.backupsOf id = m.backupsOf id := by
  have hview : ∀ m : JackDbusMgr, m.backupsOf id
      = ((m.clients.map (fun c => (c.id, c.backupPatches))).filter (fun r => r.1 = id)).map
        Prod.snd := by
    intro m
    rw [JackDbusMgr.backupsOf, List.filter_map, List.map_map]
    rfl
  rw [hview, hview, h]

theorem backupsOf_append_self {clients : List JackMgrClient} {e : JackMgrClient}
    (h : m'.clients = clients ++ [e]) (hm : m.clients = clients) :
    m'.backupsOf e.id = m.backupsOf e.id ++ [e.backupPatches] := by
  rw [JackDbusMgr.backupsOf, JackDbusMgr.backupsOf, h, hm, List.filter_append,
    List.filter_cons_of_pos (by simp), List.map_append]
  rfl

theorem backupsOf_append_ne {clients : List JackMgrClient} {e : JackMgrClient}
    (h : m'.clients = clients ++ [e]) (hm : m.clients = clients) (hne : e.id ≠ id) :
    m'.backupsOf id = m.backupsOf id := by
  rw [JackDbusMgr.backupsOf, JackDbusMgr.backupsOf, h, hm, List.filter_append,
    List.filter_cons_of_neg (by simpa using hne), List.filter_nil, List.append_nil]

/-- The first backup is the one of the entry that is found. -/
theorem backupsOf_find {c : JackMgrClient} (h : jackMgrClientFindById m.clients id = some c) :
    ∃ l, m.backupsOf id = c.backupPatches :: l := by
  have hfilter : ∀ l : List JackMgrClient, l.find? (fun c => c.id = id) = some c →
      ∃ l', (l.filter (fun c => c.id = id)) = c :: l' := by
    intro l
    induction l with
    | nil => exact fun h => absurd h (by simp)
    | cons d l ih =>
        intro h
        by_cases hd : d.id = id
        · rw [List.find?_cons_of_pos (by simpa using hd)] at h
          rw [List.filter_cons_of_pos (by simpa using hd), ← Option.some.inj h]
          exact ⟨_, rfl⟩
        · rw [List.find?_cons_of_neg (by simpa using hd)] at h
          rw [List.filter_cons_of_neg (by simpa using hd)]
          exact ih h
  obtain ⟨l, hl⟩ := hfilter m.clients h
  exact ⟨l.map JackMgrClient.backupPatches, by rw [JackDbusMgr.backupsOf, hl, List.map_cons]⟩

theorem find_of_backupsOf (h : m.backupsOf id ≠ []) :
    ∃ c, jackMgrClientFindById m.clients id = some c := by
  cases hfind : jackMgrClientFindById m.clients id with
  | some c => exact ⟨c, rfl⟩
  | none =>
      refine absurd (backupsOf_eq_nil.mpr fun e he => ?_) h
      simpa using List.find?_eq_none.mp hfind e he

/-- Taking out the first entry with an id takes out its backup. -/
theorem backupsOf_eraseP (id : Uuid) (m : JackDbusMgr) :
    ({ m with clients := m.clients.eraseP (fun d => d.id = id) } : JackDbusMgr).backupsOf id
        = (m.backupsOf id).tail ∧
      ∀ id', id' ≠ id →
        ({ m with clients := m.clients.eraseP (fun d => d.id = id) } : JackDbusMgr).backupsOf id'
          = m.backupsOf id' := by
  simp only [JackDbusMgr.backupsOf]
  induction m.clients with
  | nil => exact ⟨rfl, fun _ _ => rfl⟩
  | cons d l ih =>
      by_cases hd : d.id = id
      · rw [List.eraseP_cons_of_pos (by simpa using hd),
          List.filter_cons_of_pos (by simpa using hd)]
        refine ⟨rfl, fun id' hne => ?_⟩
        rw [List.filter_cons_of_neg (by simpa [hd] using hne.symm)]
      · rw [List.eraseP_cons_of_neg (by simpa using hd),
          List.filter_cons_of_neg (by simpa using hd),
          List.filter_cons_of_neg (by simpa using hd)]
        refine ⟨ih.1, fun id' hne => ?_⟩
        by_cases hd' : d.id = id'
        · rw [List.filter_cons_of_pos (by simpa using hd'),
            List.filter_cons_of_pos (by simpa using hd'),
            List.map_cons, List.map_cons, ih.2 id' hne]
        · rw [List.filter_cons_of_neg (by simpa using hd'),
            List.filter_cons_of_neg (by simpa using hd'),
            ih.2 id' hne]

/-- A new backup for the first entry with an id. -/
theorem backupsOf_modifyFirst (id : Uuid) (patches : List JackPatch) (l : List JackMgrClient) :
    (((modifyFirst (fun d => d.id = id) (fun d => { d with backupPatches := patches }) l).filter
        (fun c => c.id = id)).map JackMgrClient.backupPatches
      = match (l.filter (fun c => c.id = id)).map JackMgrClient.backupPatches with
        | [] => []
        | _ :: rest => patches :: rest) ∧
      ∀ id', id' ≠ id →
        ((modifyFirst (fun d => d.id = id) (fun d => { d with backupPatches := patches }) l).filter
          (fun c => c.id = id')).map JackMgrClient.backupPatches
          = (l.filter (fun c => c.id = id')).map JackMgrClient.backupPatches := by
  induction l with
  | nil => exact ⟨rfl, fun _ _ => rfl⟩
  | cons d l ih =>
      rw [modifyFirst]
      by_cases hd : d.id = id
      · rw [if_pos (by simpa using hd), List.filter_cons_of_pos (by simpa using hd),
          List.filter_cons_of_pos (by simpa using hd)]
        refine ⟨rfl, fun id' hne => ?_⟩
        rw [List.filter_cons_of_neg (by simpa [hd] using hne.symm),
          List.filter_cons_of_neg (by simpa [hd] using hne.symm)]
      · rw [if_neg (by simpa using hd), List.filter_cons_of_neg (by simpa using hd),
          List.filter_cons_of_neg (by simpa using hd)]
        refine ⟨ih.1, fun id' hne => ?_⟩
        by_cases hd' : d.id = id'
        · rw [List.filter_cons_of_pos (by simpa using hd'),
            List.filter_cons_of_pos (by simpa using hd'),
            List.map_cons, List.map_cons, ih.2 id' hne]
        · rw [List.filter_cons_of_neg (by simpa using hd'),
            List.filter_cons_of_neg (by simpa using hd'),
            ih.2 id' hne]

end

namespace JackSession

variable {s t : JackSession} {i : JackInput} {jc : JackMgrClient} {lc c : SessionClient}

/-! ## Home and away -/

/-- The patches that were recorded for a client are with it, and then it is not bound; or the backup
in its one entry are these patches. -/
def Kept (s : JackSession) (c : SessionClient) : Prop :=
  (c.jackPatches.Perm (lastRecorded c.addr s.log) ∧
    (c.jackClientName = none ∨ s.mgr.backupsOf c.id = [])) ∨
  (c.jackPatches = [] ∧ c.jackClientName ≠ none ∧
    ∃ backup, s.mgr.backupsOf c.id = [backup] ∧ backup.Perm (lastRecorded c.addr s.log))

/-- What carries `Conserves` from step to step. -/
structure Conserved (s : JackSession) : Prop where
  addrs : ((s.live ++ s.lost).map SessionClient.addr).Nodup
  ids : s.ids.Nodup
  old : ∀ c ∈ s.live ++ s.lost, c.addr < s.nextAddr
  fresh : ∀ a, s.nextAddr ≤ a → recordsOf a s.log = []
  kept : ∀ c ∈ s.live ++ s.lost, s.Kept c
  unknown : ∀ e ∈ s.mgr.unknownClients, e.backupPatches = []
  given : Conserves s.log

theorem Kept.congr (h : s.Kept c) (hbackups : t.mgr.backupsOf c.id = s.mgr.backupsOf c.id)
    (hlog : lastRecorded c.addr t.log = lastRecorded c.addr s.log) : t.Kept c := by
  unfold Kept
  rw [hbackups, hlog]
  exact h

/-- A client without an entry has its patches. -/
theorem Kept.home (h : s.Kept c) (hnone : ∀ e ∈ s.mgr.clients, e.id ≠ c.id) :
    c.jackPatches.Perm (lastRecorded c.addr s.log) := by
  rcases h with ⟨hpatches, -⟩ | ⟨-, -, backup, hbackup, -⟩
  · exact hpatches
  · rw [backupsOf_eq_nil.mpr hnone] at hbackup
    exact absurd hbackup (by simp)

/-! ## Steps that move no patches -/

/-- The LASH clients stay, in some order, and so do the backups. -/
theorem Conserved.same (h : s.Conserved) (hclients : (t.live ++ t.lost).Perm (s.live ++ s.lost))
    (hnext : t.nextAddr = s.nextAddr) (hbackups : ∀ id, t.mgr.backupsOf id = s.mgr.backupsOf id)
    (hunknown : ∀ e ∈ t.mgr.unknownClients, e.backupPatches = [])
    (hlog : ∃ l, t.log = s.log ++ l ∧ ∀ e ∈ l, e.isRequest = true) : t.Conserved := by
  obtain ⟨l, hlog, hl⟩ := hlog
  have hrecords : ∀ a, recordsOf a t.log = recordsOf a s.log := by
    intro a
    rw [hlog, recordsOf_append, recordsOf_requests hl, List.append_nil]
  refine ⟨(hclients.map _).nodup_iff.mpr h.addrs, (hclients.map _).nodup_iff.mpr h.ids, ?_, ?_, ?_,
    hunknown, ?_⟩
  · intro c hc
    rw [hnext]
    exact h.old c (hclients.subset hc)
  · intro a ha
    rw [hrecords]
    exact h.fresh a (hnext ▸ ha)
  · intro c hc
    refine (h.kept c (hclients.subset hc)).congr (hbackups c.id) ?_
    rw [lastRecorded, hrecords, lastRecorded]
  · rw [hlog]
    exact h.given.append hl

/-- Only the pids of the clients change, or some are forgotten. -/
theorem Conserved.sublist (h : s.Conserved) {f : SessionClient → SessionClient}
    (hf : ∀ c, (f c).addr = c.addr ∧ (f c).id = c.id ∧ (f c).jackPatches = c.jackPatches ∧
      (f c).jackClientName = c.jackClientName)
    (hlive : t.live.Sublist s.live) (hlost : t.lost.Sublist (s.lost.map f))
    (hnext : t.nextAddr = s.nextAddr)
    (hbackups : ∀ c ∈ t.live ++ t.lost, t.mgr.backupsOf c.id = s.mgr.backupsOf c.id)
    (hunknown : t.mgr.unknownClients = s.mgr.unknownClients) (hlog : t.log = s.log) :
    t.Conserved := by
  have hview : ∀ {β : Type} (g : SessionClient → β), (∀ c, g (f c) = g c) →
      ((t.live ++ t.lost).map g).Sublist ((s.live ++ s.lost).map g) := by
    intro β g hg
    rw [List.map_append, List.map_append]
    have hmap : (s.lost.map f).map g = s.lost.map g := by
      rw [List.map_map]
      exact List.map_congr_left (fun c _ => hg c)
    rw [← hmap]
    exact (hlive.map g).append (hlost.map g)
  have hold : ∀ c ∈ t.live ++ t.lost, ∃ d ∈ s.live ++ s.lost, c.addr = d.addr ∧ c.id = d.id ∧
      c.jackPatches = d.jackPatches ∧ c.jackClientName = d.jackClientName := by
    intro c hc
    rcases List.mem_append.mp hc with hc | hc
    · exact ⟨c, List.mem_append_left _ (hlive.subset hc), rfl, rfl, rfl, rfl⟩
    · obtain ⟨d, hd, rfl⟩ := List.mem_map.mp (hlost.subset hc)
      exact ⟨d, List.mem_append_right _ hd, hf d⟩
  refine ⟨h.addrs.sublist (hview _ fun c => (hf c).1), h.ids.sublist (hview _ fun c => (hf c).2.1),
    ?_, ?_, ?_, ?_, hlog ▸ h.given⟩
  · intro c hc
    obtain ⟨d, hd, haddr, -⟩ := hold c hc
    rw [haddr, hnext]
    exact h.old d hd
  · rw [hnext, hlog]
    exact h.fresh
  · intro c hc
    obtain ⟨d, hd, haddr, hid, hpatches, hname⟩ := hold c hc
    have hkept := h.kept d hd
    unfold Kept at hkept ⊢
    rw [hbackups c hc, hlog, haddr, hid, hpatches, hname]
    exact hkept
  · rw [hunknown]
    exact h.unknown

/-! ## Steps that move patches -/

/-- One client is changed, and the other ones keep their patches or their backup. -/
theorem Conserved.move (h : s.Conserved) {rest : List SessionClient} {d : SessionClient}
    (hs : (s.live ++ s.lost).Perm (lc :: rest)) (ht : (t.live ++ t.lost).Perm (d :: rest))
    (haddr : d.addr = lc.addr) (hid : d.id = lc.id) (hnext : t.nextAddr = s.nextAddr)
    (hothers : ∀ c, c.addr ≠ lc.addr → c.id ≠ lc.id → s.Kept c → t.Kept c) (hkept : t.Kept d)
    (hfresh : ∀ a, s.nextAddr ≤ a → recordsOf a t.log = [])
    (hunknown : ∀ e ∈ t.mgr.unknownClients, e.backupPatches = []) (hgiven : Conserves t.log) :
    t.Conserved := by
  have haddrs := (hs.map SessionClient.addr).nodup_iff.mp h.addrs
  have hids := (hs.map SessionClient.id).nodup_iff.mp h.ids
  refine ⟨?_, ?_, ?_, ?_, ?_, hunknown, hgiven⟩
  · rw [(ht.map SessionClient.addr).nodup_iff, List.map_cons, haddr]
    exact haddrs
  · rw [JackSession.ids, (ht.map SessionClient.id).nodup_iff, List.map_cons, hid]
    exact hids
  · intro c hc
    rw [hnext]
    rcases List.mem_cons.mp (ht.subset hc) with rfl | hc
    · rw [haddr]
      exact h.old lc (hs.symm.subset (by simp))
    · exact h.old c (hs.symm.subset (List.mem_cons_of_mem _ hc))
  · intro a ha
    exact hfresh a (hnext ▸ ha)
  · intro c hc
    rcases List.mem_cons.mp (ht.subset hc) with rfl | hc
    · exact hkept
    · refine hothers c ?_ ?_ (h.kept c (hs.symm.subset (List.mem_cons_of_mem _ hc)))
      · intro he
        exact (List.nodup_cons.mp haddrs).1 (he ▸ List.mem_map_of_mem hc)
      · intro he
        exact (List.nodup_cons.mp hids).1 (he ▸ List.mem_map_of_mem hc)

/-- A client comes that nothing was recorded for before. -/
theorem Conserved.add (h : s.Conserved) (ht : (t.live ++ t.lost).Perm (lc :: (s.live ++ s.lost)))
    (haddr : lc.addr = s.nextAddr) (hnext : t.nextAddr = s.nextAddr + 1) (hid : lc.id ∉ s.ids)
    (hname : lc.jackClientName = none) (hmgr : t.mgr = s.mgr)
    (hlog : (t.log = s.log ∧ lc.jackPatches = []) ∨
      t.log = s.log ++ [.recorded lc.addr lc.jackPatches]) : t.Conserved := by
  have hrecorded : lastRecorded lc.addr t.log = lc.jackPatches := by
    rcases hlog with ⟨hlog, hnil⟩ | hlog
    · rw [hlog, hnil, lastRecorded, h.fresh _ (le_of_eq haddr.symm)]
      rfl
    · rw [hlog, lastRecorded_recorded]
  have hother : ∀ a, a ≠ lc.addr → recordsOf a t.log = recordsOf a s.log := by
    intro a ha
    rcases hlog with ⟨hlog, -⟩ | hlog
    · rw [hlog]
    · rw [hlog, recordsOf_append]
      simp [recordsOf, ha.symm]
  have hne : ∀ c ∈ s.live ++ s.lost, c.addr ≠ lc.addr := by
    intro c hc he
    have hlt := h.old c hc
    omega
  refine ⟨?_, ?_, ?_, ?_, ?_, hmgr ▸ h.unknown, ?_⟩
  · rw [(ht.map SessionClient.addr).nodup_iff, List.map_cons, List.nodup_cons]
    refine ⟨fun hmem => ?_, h.addrs⟩
    obtain ⟨c, hc, hca⟩ := List.mem_map.mp hmem
    exact hne c hc hca
  · rw [JackSession.ids, (ht.map SessionClient.id).nodup_iff, List.map_cons, List.nodup_cons]
    exact ⟨hid, h.ids⟩
  · intro c hc
    rcases List.mem_cons.mp (ht.subset hc) with rfl | hc
    · omega
    · have hlt := h.old c hc
      omega
  · intro a ha
    rw [hother a (by omega)]
    exact h.fresh a (by omega)
  · intro c hc
    rcases List.mem_cons.mp (ht.subset hc) with rfl | hc
    · exact Or.inl ⟨by rw [hrecorded], Or.inl hname⟩
    · refine (h.kept c hc).congr (by rw [hmgr]) ?_
      rw [lastRecorded, hother c.addr (hne c hc), lastRecorded]
  · rcases hlog with ⟨hlog, -⟩ | hlog
    · rw [hlog]
      exact h.given
    · rw [hlog]
      apply h.given.append_one
      intro a patches he
      exact absurd he (by simp)

/-- **Binding** a client that has no entry moves its patches there, as its backup. -/
theorem Conserved.bind (h : s.Conserved) (hlc : lc ∈ s.live ++ s.lost)
    (hnone : ∀ e ∈ s.mgr.clients, e.id ≠ lc.id) (hjc : jc.backupPatches = [])
    (ht : s.bind jc lc = some t) : t.Conserved := by
  obtain ⟨e, requests, hclients, heid, -, hbackup, hunknown, -, hlive, hlost, hnext, hlog, -,
      hreq⟩ :=
    bind_frame ht
  have hhome := (h.kept lc hlc).home hnone
  have hrecords : ∀ a, recordsOf a t.log = recordsOf a s.log := by
    intro a
    rw [hlog, List.append_cons, recordsOf_append, recordsOf_append, recordsOf_requests hreq]
    simp [recordsOf]
  have hput : t.live ++ t.lost = Keyed.put SessionClient.addr (lc.give jc) (s.live ++ s.lost) := by
    rw [hlive, hlost]
    exact List.map_append.symm
  refine h.move (Keyed.cons_del_perm h.addrs hlc).symm
    (d := lc.give jc) ?_ rfl rfl hnext ?_ ?_ ?_ ?_ ?_
  · rw [hput]
    exact Keyed.put_perm h.addrs hlc rfl
  · intro c _ hid hc
    apply hc.congr
    · exact backupsOf_append_ne hclients rfl (by rw [heid]; exact hid.symm)
    · rw [lastRecorded, hrecords, lastRecorded]
  · right
    refine ⟨rfl, by simp [SessionClient.give], e.backupPatches, ?_, ?_⟩
    · show t.mgr.backupsOf lc.id = _
      rw [← heid, backupsOf_append_self hclients rfl, heid, backupsOf_eq_nil.mpr hnone,
        List.nil_append]
    · rw [hbackup, hjc, List.nil_append]
      show lc.jackPatches.Perm (lastRecorded lc.addr t.log)
      rw [lastRecorded, hrecords, ← lastRecorded]
      exact hhome
  · intro a ha
    rw [hrecords]
    exact h.fresh a ha
  · rw [hunknown]
    exact h.unknown
  · rw [hlog, List.append_cons]
    apply Conserves.append
    · apply h.given.append_one
      intro a patches he
      obtain ⟨rfl, rfl⟩ := JackEvent.bound.inj he
      exact hhome
    · exact hreq

/-- Losing a client brings the backup back, if it has an entry. -/
theorem Conserved.loseClient (h : s.Conserved) (hlc : lc ∈ s.live) (place : Nat) :
    (s.loseClient lc place).Conserved := by
  have hkept := h.kept lc (List.mem_append_left _ hlc)
  have haddrs : (s.live.map SessionClient.addr).Nodup := by
    have haddrs := h.addrs
    rw [List.map_append] at haddrs
    exact (List.nodup_append.mp haddrs).1
  have hlist : ∀ d : SessionClient, (Keyed.del SessionClient.addr lc.addr s.live ++
      s.lost.insertIdx (min place s.lost.length) d).Perm
        (d :: (Keyed.del SessionClient.addr lc.addr s.live ++ s.lost)) := by
    intro d
    refine ((List.perm_insertIdx d s.lost (Nat.min_le_right _ _)).append_left _).trans ?_
    exact List.perm_middle
  have hs : (s.live ++ s.lost).Perm
      (lc :: (Keyed.del SessionClient.addr lc.addr s.live ++ s.lost)) :=
    ((Keyed.cons_del_perm haddrs hlc).append_right s.lost).symm
  rcases hkept with ⟨hpatches, hnot⟩ | ⟨hnil, hname, backup, hbackup, hperm⟩
  · have hback : s.takeBack lc = (s.mgr, lc) := by
      unfold takeBack
      split
      · rfl
      · next hname =>
          have hnone : removeClient s.mgr lc.id = none := by
            refine Option.map_eq_none_iff.mpr ?_
            rw [jackMgrClientFindById, List.find?_eq_none]
            intro e he
            simpa using backupsOf_eq_nil.mp (hnot.resolve_left hname) e he
          rw [hnone]
    refine h.move hs (d := { lc with pid := 0 }) ?_ rfl rfl rfl ?_ ?_ h.fresh ?_ h.given
    · rw [JackSession.loseClient, hback]
      exact hlist _
    · intro c _ _ hc
      refine hc.congr ?_ rfl
      rw [JackSession.loseClient, hback]
    · refine Or.inl ⟨hpatches, ?_⟩
      rw [JackSession.loseClient, hback]
      exact hnot
    · rw [JackSession.loseClient, hback]
      exact h.unknown
  · obtain ⟨e, he⟩ := @find_of_backupsOf s.mgr lc.id (by rw [hbackup]; simp)
    obtain ⟨l, hl⟩ := backupsOf_find he
    have hebackup : e.backupPatches = backup := by
      rw [hbackup] at hl
      exact (List.cons.inj hl).1.symm
    have hback :
        s.takeBack lc = ({ s.mgr with clients := s.mgr.clients.eraseP (fun d => d.id = lc.id) },
        { lc with jackPatches := backup }) := by
      rw [takeBack, if_neg hname, removeClient, he, Option.map_some]
      dsimp only
      rw [hebackup, hnil, List.append_nil]
    obtain ⟨htail, hothers⟩ := backupsOf_eraseP lc.id s.mgr
    refine h.move hs (d := { lc with jackPatches := backup, pid := 0 }) ?_ rfl rfl rfl ?_ ?_
      h.fresh ?_
      h.given
    · rw [JackSession.loseClient, hback]
      exact hlist _
    · intro c _ hid hc
      refine hc.congr ?_ rfl
      rw [JackSession.loseClient, hback]
      exact hothers c.id hid
    · refine Or.inl ⟨hperm, Or.inr ?_⟩
      rw [JackSession.loseClient, hback]
      show JackDbusMgr.backupsOf _ lc.id = []
      rw [htail, hbackup]
      rfl
    · rw [JackSession.loseClient, hback]
      exact h.unknown

/-- A save records the patches of the graph and makes them the backup. -/
theorem Conserved.writePatches (h : s.Conserved) (hlc : lc ∈ s.live ++ s.lost) :
    (s.writePatches lc).Conserved ∧ (s.writePatches lc).live = s.live ∧
      (s.writePatches lc).lost = s.lost := by
  unfold JackSession.writePatches
  split
  · exact ⟨h, rfl, rfl⟩
  · next hname =>
      split
      · exact ⟨h, rfl, rfl⟩
      · next m patches hget =>
          obtain ⟨⟨e, he⟩, clients, rfl, hclients⟩ := getClientPatches_frame hget
          obtain ⟨hself, hothers⟩ := backupsOf_modifyFirst lc.id patches s.mgr.clients
          rw [← hclients] at hself hothers
          refine ⟨?_, rfl, rfl⟩
          -- the client has an entry, so its patches are there
          rcases h.kept lc hlc with ⟨-, hnot⟩ | ⟨hnil, -, backup, hbackup, -⟩
          · obtain ⟨l, hl⟩ := backupsOf_find he
            rw [hnot.resolve_left hname] at hl
            exact absurd hl (by simp)
          · refine h.move (Keyed.cons_del_perm h.addrs hlc).symm
              (Keyed.cons_del_perm h.addrs hlc).symm
              rfl rfl rfl ?_ ?_ ?_ h.unknown ?_
            · intro c haddr hid hc
              exact hc.congr (hothers c.id hid) (lastRecorded_other haddr.symm)
            · refine Or.inr ⟨hnil, hname, patches, ?_, ?_⟩
              · rw [JackDbusMgr.backupsOf] at hbackup
                rw [JackDbusMgr.backupsOf, hself, hbackup]
              · rw [lastRecorded_recorded]
            · intro a ha
              have hlt := h.old lc hlc
              rw [recordsOf_append, h.fresh a ha]
              have hne : lc.addr ≠ a := by omega
              simp [recordsOf, hne]
            · apply h.given.append_one
              intro a ps hbound
              exact absurd hbound (by simp)

/-! ## One step -/

theorem initial_conserved : initial.Conserved where
  addrs := List.nodup_nil
  ids := List.nodup_nil
  old _ hc := absurd hc (by simp [initial])
  fresh _ _ := rfl
  kept _ hc := absurd hc (by simp [initial])
  unknown _ he := absurd he (by simp [initial])
  given l₁ l₂ a patches h := absurd h (by simp [initial])

/-- The manager may be asked for another graph, and the JACK server may change. -/
theorem Conserved.server (h : s.Conserved) (hmgr : t.mgr.clients = s.mgr.clients)
    (hunknown : ∀ e ∈ t.mgr.unknownClients, e.backupPatches = []) (hlive : t.live = s.live)
    (hlost : t.lost = s.lost) (hnext : t.nextAddr = s.nextAddr)
    (hlog : ∃ l, t.log = s.log ++ l ∧ ∀ e ∈ l, e.isRequest = true) : t.Conserved := by
  apply h.same _ hnext _ hunknown hlog
  · rw [hlive, hlost]
  · intro id
    apply backupsOf_congr
    rw [hmgr]

/-- What the JACK server does moves nothing. -/
theorem Conserved.change (h : s.Conserved) (j : JackServer) :
    ({ s with jack := j } : JackSession).Conserved :=
  h.server rfl h.unknown rfl rfl rfl ⟨[], (List.append_nil _).symm, by simp⟩

/-- `lashd_jackdbus_on_client_appeared` -/
theorem Conserved.clientAppeared (h : s.Conserved) {id : Nat} {name : CStr}
    (honce : 0 < getClientPid s.jack id → ∀ lc, s.findByPid (getClientPid s.jack id) = some lc →
      ∀ e ∈ s.mgr.clients, e.id ≠ lc.id)
    (ht : s.onClientAppeared name id = some t) : t.Conserved := by
  rcases onClientAppeared_cases ht with rfl | ⟨hpos, lc, hlc, hbind⟩ | rfl
  · exact h
  · exact h.bind (mem_of_findByPid hlc) (honce hpos lc hlc) rfl hbind
  · refine h.server rfl ?_ rfl rfl rfl ⟨[], (List.append_nil _).symm, by simp⟩
    intro e he
    rcases List.mem_append.mp he with he | he
    · exact h.unknown e he
    · rw [List.mem_singleton.mp he]
      rfl

/-- The entries of the unknown clients are made without patches. -/
theorem backup_addUnknownClients {j : JackServer} {l l' : List JackMgrClient}
    {gcs : List GraphClient}
    (hl : ∀ e ∈ l, e.backupPatches = []) (h : addUnknownClients j l gcs = some l') :
    ∀ e ∈ l', e.backupPatches = [] := by
  induction gcs generalizing l with
  | nil =>
      rw [← Option.some.inj h]
      exact hl
  | cons gc gcs ih =>
      rw [addUnknownClients] at h
      split at h
      · obtain ⟨k, hk, h⟩ := Option.bind_eq_some_iff.mp h
        unfold addUnknown at hk
        split at hk
        · exact absurd hk (by simp)
        · apply ih _ h
          rw [← Option.some.inj hk]
          intro e he
          rcases List.mem_append.mp he with he | he
          · exact hl e he
          · rw [List.mem_singleton.mp he]
            rfl
      · exact ih hl h

/-- `lashd_jackdbus_mgr_new_client_port` and `lashd_jackdbus_mgr_new_foreign_port` only ask. -/
theorem Conserved.portAppeared (h : s.Conserved) (id : Nat) (name port : CStr) :
    (s.onPortAppeared id name port).Conserved := by
  obtain ⟨requests, hrequests, hall⟩ := s.onPortAppeared_frame id name port
  rw [hrequests]
  exact h.server rfl h.unknown rfl rfl rfl ⟨requests, rfl, hall⟩

/-- `lashd_jackdbus_mgr_ports_connected` takes nothing out of a backup. -/
theorem Conserved.portsConnected (h : s.Conserved) {p : GraphPatch}
    (ht : s.portsConnected p = some t) : t.Conserved := by
  obtain ⟨clients, rfl, hkey, hbackup, -⟩ := portsConnected_frame ht
  refine h.same (.refl _) rfl ?_ h.unknown ⟨[], (List.append_nil _).symm, by simp⟩
  apply backupsOf_congr
  have hzip : ∀ l : List JackMgrClient, l.map (fun c => (c.id, c.backupPatches))
      = ((l.map JackMgrClient.key).map Prod.fst).zip (l.map JackMgrClient.backupPatches) := by
    intro l
    rw [List.map_map, List.zip_map']
    rfl
  rw [hzip, hzip]
  dsimp only
  rw [hkey, hbackup]

/-- The clients of a project that is loaded come with the patches of its file. -/
theorem Conserved.load (h : s.Conserved) {clients : List (Uuid × List JackPatch)}
    (hids : (s.ids ++ clients.map Prod.fst).Nodup) : (clients.foldl restoreClient s).Conserved := by
  induction clients generalizing s with
  | nil => exact h
  | cons r clients ih =>
      rw [List.map_cons, List.nodup_middle, List.nodup_cons, List.mem_append, not_or] at hids
      obtain ⟨⟨hnew, hrest⟩, hids⟩ := hids
      have hperm : ((s.restoreClient r).live ++ (s.restoreClient r).lost).Perm
          ({ addr := s.nextAddr, id := r.1, pid := 0, jackPatches := r.2, jackClientName := none }
            :: (s.live ++ s.lost)) := List.perm_middle
      apply ih
      · exact h.add hperm rfl rfl hnew rfl rfl (Or.inr rfl)
      · refine (((hperm.map SessionClient.id).append_right (clients.map Prod.fst)).nodup_iff).mpr ?_
        rw [List.map_cons, List.cons_append, List.nodup_cons, List.mem_append, not_or]
        exact ⟨⟨hnew, hrest⟩, hids⟩

/-- The client of a `Connect` call comes out of the lost ones, or is a new one without patches. -/
theorem Conserved.connected (h : s.Conserved) {pid : Int} {id : Uuid} (hid : id ∉ s.ids)
    (place : Nat) :
    (s.connected pid id place).1.Conserved ∧
      (s.connected pid id place).2 ∈ (s.connected pid id place).1.live := by
  unfold JackSession.connected
  have hmem : ∀ lc : SessionClient, lc ∈ s.live.insertIdx (min place s.live.length) lc := by
    intro lc
    exact (List.mem_insertIdx (Nat.min_le_right _ _)).mpr (Or.inl rfl)
  have hinsert : ∀ lc : SessionClient, ∀ l,
      (s.live.insertIdx (min place s.live.length) lc ++ l).Perm
      (lc :: (s.live ++ l)) := by
    intro lc l
    exact (List.perm_insertIdx lc s.live (Nat.min_le_right _ _)).append_right l
  split
  · next lc hfind =>
      split at hfind
      · exact absurd hfind (by simp)
      · have hlc := List.mem_of_find?_eq_some hfind
        have hlost : (s.lost.map SessionClient.addr).Nodup := by
          have haddrs := h.addrs
          rw [List.map_append] at haddrs
          exact (List.nodup_append.mp haddrs).2.1
        refine ⟨h.same ?_ rfl (fun _ => rfl) h.unknown ⟨[], (List.append_nil _).symm, by simp⟩,
          hmem lc⟩
        refine (hinsert lc _).trans (List.perm_middle.symm.trans ?_)
        exact (Keyed.cons_del_perm hlost hlc).append_left s.live
  · exact ⟨h.add (hinsert _ s.lost) rfl rfl hid rfl rfl (Or.inl ⟨rfl, rfl⟩), hmem _⟩

/-- `server_add_client` -/
theorem Conserved.connect (h : s.Conserved) {pid : Int} {id : Uuid} {place : Nat} (hid : id ∉ s.ids)
    (hfresh : ∀ e ∈ s.mgr.clients, e.id ≠ id) (honce : s.BindsOnce (.connect pid id place))
    (ht : s.serverAddClient pid id place = some t) : t.Conserved := by
  obtain ⟨hu, hmem⟩ := @Conserved.connected s h pid id hid place
  obtain ⟨hmgr, -, hlc⟩ := s.connected_frame pid id place
  rcases serverAddClient_cases ht with rfl | ⟨jc, hfind, hbind⟩
  · exact hu
  · have hjc := List.mem_of_find?_eq_some hfind
    have hv : ({ (s.connected pid id place).1 with mgr := { s.mgr with
        unknownClients := s.mgr.unknownClients.eraseP (fun c => c.pid = pid) } } :
        JackSession).Conserved := by
      refine hu.server ?_ ?_ rfl rfl rfl ⟨[], (List.append_nil _).symm, by simp⟩
      · rw [hmgr]
      · exact fun e he => h.unknown e (List.eraseP_sublist.subset he)
    refine hv.bind (List.mem_append_left _ hmem) ?_ (h.unknown jc hjc) hbind
    intro e he
    rcases hlc with ⟨hlost, -⟩ | hid
    · have hpid : jc.pid = pid := by simpa using List.find?_some hfind
      have hany : s.mgr.unknownClients.any (fun jc => jc.pid = pid) = true :=
        List.any_eq_true.mpr ⟨jc, hjc, by simpa using hpid⟩
      refine honce _ ?_ e he
      rw [bindsTo, if_pos hany]
      exact hlost
    · rw [hid]
      exact hfresh e he

/-- `project_unload` removes the entries of its own clients only. -/
theorem Conserved.unload (h : s.Conserved) (addrs : List Nat) : (s.unload addrs).Conserved := by
  have hfold : ∀ (l : List SessionClient) (m : JackDbusMgr),
      (l.foldl (fun m c => ((removeClient m c.id).map Prod.fst).getD m) m).unknownClients
          = m.unknownClients ∧
        ∀ id, (∀ c ∈ l, c.id ≠ id) →
          (l.foldl (fun m c => ((removeClient m c.id).map Prod.fst).getD m) m).backupsOf id
            = m.backupsOf id := by
    intro l
    induction l with
    | nil => exact fun m => ⟨rfl, fun _ _ => rfl⟩
    | cons c l ih =>
        intro m
        rw [List.foldl_cons]
        have hfirst : (((removeClient m c.id).map Prod.fst).getD m).unknownClients =
            m.unknownClients ∧
            ∀ id, c.id ≠ id →
              (((removeClient m c.id).map Prod.fst).getD m).backupsOf id = m.backupsOf id := by
          cases hr : removeClient m c.id with
          | none => exact ⟨rfl, fun _ _ => rfl⟩
          | some r =>
              obtain ⟨d, -, -, hm⟩ := @removeClient_eq m r.1 c.id r.2 hr
              rw [Option.map_some, Option.getD_some, hm]
              exact ⟨rfl, fun id hne => (backupsOf_eraseP c.id m).2 id hne.symm⟩
        obtain ⟨hunknown, hbackups⟩ := ih (((removeClient m c.id).map Prod.fst).getD m)
        refine ⟨hunknown.trans hfirst.1, fun id hne => ?_⟩
        rw [hbackups id (fun d hd => hne d (List.mem_cons_of_mem _ hd))]
        exact hfirst.2 id (hne c List.mem_cons_self)
  obtain ⟨hunknown, hbackups⟩ :=
    hfold (s.live.filter (fun c => c.addr ∈ addrs ∧ c.jackClientName ≠ none)) s.mgr
  refine h.sublist (f := id) (fun c => ⟨rfl, rfl, rfl, rfl⟩) List.filter_sublist ?_ rfl ?_ hunknown
    rfl
  · rw [List.map_id]
    exact List.filter_sublist
  · intro c hc
    apply hbackups
    -- a client that stays is not one that leaves, and no two have one id
    intro d hd he
    obtain ⟨hd, hleaves⟩ := List.mem_filter.mp hd
    have hleaves : d.addr ∈ addrs := (of_decide_eq_true hleaves).1
    have hc' : c ∈ s.live ++ s.lost ∧ c.addr ∉ addrs := by
      rcases List.mem_append.mp hc with hc | hc
      · obtain ⟨hc, hstays⟩ := List.mem_filter.mp hc
        exact ⟨List.mem_append_left _ hc, by simpa using hstays⟩
      · obtain ⟨hc, hstays⟩ := List.mem_filter.mp hc
        exact ⟨List.mem_append_right _ hc, by simpa using hstays⟩
    have heq : d = c := List.inj_on_of_nodup_map h.ids (List.mem_append_left _ hd) hc'.1 he
    exact hc'.2 (heq ▸ hleaves)

/-- The end of a save: the patches of every client of the project are taken. -/
theorem Conserved.writeInfo (h : s.Conserved)
    (addrs : List Nat) : (s.writeInfo addrs).Conserved := by
  have hfold : ∀ (l : List SessionClient) (u : JackSession), u.Conserved →
      (∀ c ∈ l, c ∈ u.live ++ u.lost) → (l.foldl JackSession.writePatches u).Conserved := by
    intro l
    induction l with
    | nil => exact fun u hu _ => hu
    | cons lc l ih =>
        intro u hu hl
        obtain ⟨hfirst, hlive, hlost⟩ := hu.writePatches (hl lc List.mem_cons_self)
        apply ih _ hfirst
        rw [hlive, hlost]
        exact fun c hc => hl c (List.mem_cons_of_mem _ hc)
  exact hfold _ s h (fun c hc => List.mem_append_left _ (List.mem_of_mem_filter hc))

/-- **One step** loses no patches. -/
theorem Conserved.step (h : s.Conserved) (hok : s.Promised i) (honce : s.BindsOnce i)
    (ht : s.step i = some t) : t.Conserved := by
  have hquiet : ∃ l, s.log = s.log ++ l ∧ ∀ e ∈ l, e.isRequest = true :=
    ⟨[], (List.append_nil _).symm, by simp⟩
  cases i with
  | clientAppeared id name pid =>
      obtain ⟨hrun, -, -⟩ := hok
      have hpid := @JackServer.getClientPid_addClient s.jack id name pid hrun
      refine (h.change (s.jack.addClient id name pid)).clientAppeared ?_ ht
      intro hpos lc hlc
      have hpos : 0 < getClientPid (s.jack.addClient id name pid) id := hpos
      have hlc : s.findByPid (getClientPid (s.jack.addClient id name pid) id) = some lc := hlc
      rw [hpid] at hpos hlc
      apply honce lc
      rw [bindsTo, if_pos hpos]
      exact hlc
  | clientDisappeared id =>
      rw [onClientDisappeared_mgr ht]
      exact (h.change (s.jack.delClient id)).server rfl
        (fun e he => h.unknown e (List.eraseP_sublist.subset he)) rfl rfl rfl hquiet
  | portAppeared id port =>
      rw [← Option.some.inj ht]
      exact (h.change (s.jack.addPort id port)).portAppeared id _ port
  | portDisappeared id port =>
      rw [← Option.some.inj ht]
      exact h.change (s.jack.delPort id port)
  | portsConnected p =>
      exact (h.change (s.jack.connect p)).portsConnected ht
  | portsDisconnected p =>
      rw [← Option.some.inj ht]
      exact h.change (s.jack.disconnect p)
  | serverStarted g pid =>
      rw [JackSession.step, onServerStarted, getUnknownClients] at ht
      dsimp only at ht
      split at ht
      · rw [← Option.some.inj ht]
        refine h.server (getGraph_clients _ _) ?_ rfl rfl rfl hquiet
        dsimp only
        rw [getGraph_unknownClients]
        exact h.unknown
      · obtain ⟨l, hl, rfl⟩ := Option.map_eq_some_iff.mp ht
        rw [getGraph_unknownClients] at hl
        exact h.server (getGraph_clients _ _) (backup_addUnknownClients h.unknown hl) rfl rfl rfl
          hquiet
  | serverStopped =>
      rw [JackSession.step, clear] at ht
      split at ht
      · exact absurd ht (by simp)
      · rw [← Option.some.inj ht]
        refine h.server rfl ?_ rfl rfl rfl hquiet
        intro e he
        obtain ⟨d, hd, rfl⟩ := List.mem_map.mp he
        exact h.unknown d hd
  | load clients =>
      rw [← Option.some.inj ht]
      exact h.load hok
  | launch addr pid =>
      rw [← Option.some.inj ht]
      refine h.sublist (f := fun c => if c.addr = addr then { c with pid := pid } else c) ?_
        (.refl _) (.refl _) rfl (fun _ _ => rfl) rfl rfl
      intro c
      split_ifs <;> exact ⟨rfl, rfl, rfl, rfl⟩
  | connect pid id place => exact h.connect hok.1 hok.2 honce ht
  | lose addr place =>
      rw [JackSession.step] at ht
      split at ht
      · rw [← Option.some.inj ht]
        exact h
      · next lc hfind =>
          rw [← Option.some.inj ht]
          exact h.loseClient (List.mem_of_find?_eq_some hfind) place
  | save =>
      rw [← Option.some.inj ht]
      refine h.server (getGraph_clients _ _) ?_ rfl rfl rfl hquiet
      dsimp only
      rw [getGraph_unknownClients]
      exact h.unknown
  | clearLost addrs =>
      rw [← Option.some.inj ht]
      refine h.sublist (f := id) (fun c => ⟨rfl, rfl, rfl, rfl⟩) (.refl _) ?_ rfl
        (fun _ _ => rfl) rfl rfl
      rw [List.map_id]
      exact List.filter_sublist
  | writeInfo addrs =>
      rw [← Option.some.inj ht]
      exact h.writeInfo addrs
  | unload addrs =>
      rw [← Option.some.inj ht]
      exact h.unload addrs

/-- A saved patch between the client with the id 5 and the loudspeakers. -/
def synthPatch : JackPatch :=
  jackPatchNewWithAll (some 5) none [] (cstr "system") (cstr "out") (cstr "playback")

/-- A saved client with a patch is loaded and launched, its JACK client comes up, and it connects.
-/
def patchedRun : List JackInput :=
  [.serverStarted { version := 1, clients := [], patches := [] } (fun _ => 0),
    .load [(5, [synthPatch])],
    .launch 0 7, .clientAppeared 1 (cstr "synth") 7, .connect 7 6 0]

end JackSession

end Lash
