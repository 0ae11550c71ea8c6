import Lash.ClientStores
import Lash.Departures
import Lash.InStep

/-!
# The daemon handles an input

What the daemon sends when it handles an input goes onto the wire (`letters`). A process stays in
step by it, whether the input came from the process itself, as a report (`Peer.InStep.serve`) or as
its `Connect` (`Peer.InStep.connect`), or from somebody else (`Peer.InStep.handle`).

The input has to be in turn (`Network.InTurn`): a project is saved or renamed when all its clients
are open, the requests keep apart what the daemon tells apart by name, and the messages of the
daemon are such that the bus accepts them.
-/

namespace Lash

namespace Server

variable {s s' : Server} {n : CStr} {a b : Addr} {c d : Client} {i : Input}

/-- Two clients of a project are not the same structure. -/
theorem Lists.same {m : CStr} (hc : s.Lists n a c) (hd : s.Lists m a d) (hw : s.Wf)
    (haddr : d.addr = c.addr) : d = c := by
  have hnodup : ((s.project a).clients.map Client.addr).Nodup := by
    have hlive := (hw.distinct a).live
    rw [show (s.view a).live = (s.project a).clients.map Client.job from rfl, List.map_map] at hlive
    exact hlive
  exact List.inj_on_of_nodup_map hnodup hd.live hc.live haddr

/-- A name on the bus belongs to one client. -/
theorem Lists.unique (hc : s.Lists n a c) (hd : s.Lists n b d) (hw : s.Wf) (h : s.OnePerName) :
    b = a ∧ d = c := by
  obtain ⟨rfl, haddr⟩ := h a hc.loaded b hd.loaded c hc.live d hd.live n hc.name hd.name
  exact ⟨rfl, hc.same hd hw haddr.symm⟩

theorem Lists.of_find (h : s.findClientByDbusName n = some (a, c)) : s.Lists n a c := by
  obtain ⟨ha, hc, hname⟩ := findClient_some h
  exact ⟨ha, hc, of_decide_eq_true hname⟩

/-- A client that the daemon has under a name is the one it looks up. -/
theorem Lists.find (hc : s.Lists n a c) (hw : s.Wf) (h : s.OnePerName) :
    s.findClientByDbusName n = some (a, c) := by
  have hsome : (s.findClientByDbusName n).isSome = true := by
    unfold findClientByDbusName findClient
    rw [List.findSome?_isSome_iff]
    refine ⟨a, hc.loaded, ?_⟩
    rw [Option.isSome_map, List.find?_isSome]
    exact ⟨c, hc.live, decide_eq_true hc.name⟩
  obtain ⟨⟨b, d⟩, hfind⟩ := Option.isSome_iff_exists.mp hsome
  obtain ⟨rfl, rfl⟩ := hc.unique (.of_find hfind) hw h
  exact hfind

/-- Only a report of the task that the client is at passes the check. -/
theorem checkTasks_eq {method : String} {args rest : List Arg}
    (h : checkTasks method c args = .ok rest) :
    args = .uint64 c.pendingTask :: rest := by
  unfold checkTasks at h
  split at h
  · split at h
    · exact absurd h (by simp)
    · split at h
      · exact absurd h (by simp)
      · next htask =>
          cases h
          rw [not_not.mp htask]
  · exact absurd h (by simp)

/-- Whose end of a task the daemon hears. -/
theorem ends_of_reporting {u : Session} {ok : Bool} (h : s.reporting i = some (a, u, c, ok)) :
    ∃ n d, i.sender = some n ∧ s.Lists n a d ∧ c.addr = d.addr ∧ i.ends = some d.pendingTask := by
  cases i with
  | progress sender args =>
      unfold reporting at h
      dsimp only at h
      split at h
      · exact absurd h (by simp)
      · next b d hfind =>
          split at h
          · next percentage rest hcheck =>
              have hargs := checkTasks_eq hcheck
              have hends : (percentage.toNat = 0 ∨ percentage.toNat = 255) →
                  Input.ends (.progress sender args) = some d.pendingTask := by
                intro hx
                rw [hargs]
                exact if_pos hx
              split at h
              · next hzero =>
                  simp only [Option.some.injEq, Prod.mk.injEq] at h
                  obtain ⟨rfl, -, rfl, -⟩ := h
                  exact ⟨sender, d, rfl, .of_find hfind, rfl, hends (Or.inl hzero)⟩
              · split at h
                · next hmax =>
                    simp only [Option.some.injEq, Prod.mk.injEq] at h
                    obtain ⟨rfl, -, rfl, -⟩ := h
                    exact ⟨sender, d, rfl, .of_find hfind, rfl, hends (Or.inr hmax)⟩
                · exact absurd h (by simp)
          · exact absurd h (by simp)
  | commitDataSet sender args =>
      unfold reporting at h
      dsimp only at h
      split at h
      · exact absurd h (by simp)
      · next b d hfind =>
          split at h
          · next elem elems rest st hcheck hst =>
              have hargs := checkTasks_eq hcheck
              simp only [Option.some.injEq, Prod.mk.injEq] at h
              obtain ⟨rfl, -, rfl, -⟩ := h
              refine ⟨sender, d, rfl, .of_find hfind, rfl, ?_⟩
              rw [hargs]
              rfl
          · exact absurd h (by simp)
  | _ => exact absurd h (by simp [reporting])

theorem checkTasks_self (method : String) (htask : c.pendingTask ≠ 0) (rest : List Arg) :
    checkTasks method c (.uint64 c.pendingTask :: rest) = .ok rest := by
  unfold checkTasks
  dsimp only
  rw [if_neg htask, if_neg (not_not.mpr rfl)]

/-- The daemon takes a report of the task that the client is at. -/
theorem Lists.reporting (hc : s.Lists n a c) (hw : s.Wf) (h : s.OnePerName)
    (hi : i.sender = some n) (hends : i.ends = some c.pendingTask) (htask : c.pendingTask ≠ 0)
    (hstore : (∃ args, i = .commitDataSet n args) → c.store ≠ none) :
    ∃ u d ok, s.reporting i = some (a, u, d, ok) ∧ d.addr = c.addr := by
  have hfind := hc.find hw h
  cases i with
  | progress sender args =>
      obtain rfl : sender = n := Option.some.inj hi
      unfold Input.ends at hends
      split at hends
      · next x _ heq =>
          cases heq
          split at hends
          · next hx =>
              cases Option.some.inj hends
              unfold Server.reporting
              dsimp only
              rw [hfind]
              dsimp only
              rw [checkTasks_self _ htask]
              dsimp only
              by_cases hzero : x.toNat = 0
              · rw [if_pos hzero]
                exact ⟨_, _, _, rfl, rfl⟩
              · rw [if_neg hzero, if_pos (hx.resolve_left hzero)]
                exact ⟨_, _, _, rfl, rfl⟩
          · exact absurd hends (by simp)
      · next heq => exact absurd heq (by simp)
      · exact absurd hends (by simp)
  | commitDataSet sender args =>
      obtain rfl : sender = n := Option.some.inj hi
      obtain ⟨st, hst⟩ := Option.ne_none_iff_exists'.mp (hstore ⟨args, rfl⟩)
      unfold Input.ends at hends
      split at hends
      · next heq => exact absurd heq (by simp)
      · next heq =>
          cases heq
          cases Option.some.inj hends
          unfold Server.reporting
          dsimp only
          rw [hfind]
          dsimp only
          rw [checkTasks_self _ htask, hst]
          exact ⟨_, _, _, rfl, rfl⟩
      · exact absurd hends (by simp)
  | _ => exact absurd hends (by simp [Input.ends])

end Server

/-! ## Acting in turn -/

namespace Network

/-- All processes of clients of a project are open. -/
def AllReady (w : Network) (a : Addr) : Prop :=
  ∀ c ∈ (w.server.project a).clients, ∀ n ∈ c.dbusName, ∀ p ∈ w.peers n,
    p.alive = true → p.phase = .ready

/-- What the daemon sends when it handles an input, the bus accepts, and a reply to `Connect` can be
read. -/
def Sendable (s s' : Server) (i : Input) (r : Reply) : Prop :=
  (∀ e ∈ mail (s.news s'), e.letter.isSome = true) ∧
    (i.isConnect = true → ∃ x ∈ r.connectReply, x.Fine)

/-- An input of the daemon is in turn. -/
structure InTurn (w : Network) (i : Input) : Prop where
  resumes : w.server.ResumesFresh i
  restores : w.server.RestoresApart i
  renames : w.server.RenamesApart i
  stores : ¬ w.server.MissesStore i
  sendable : ∀ r ∈ w.server.handle i, Sendable w.server r.1 i r.2
  saved : ∀ a ∈ w.server.saving i, w.AllReady a
  renamed : ∀ old new, i = .projectRename old new → new ≠ [] ∧
    ∀ a ∈ w.server.findProjectByName old, w.AllReady a

/-- Nobody acts out of turn. -/
def Careful (w : Network) (t : Turn) : Prop :=
  (∀ i ∈ w.input t, w.InTurn i) ∧
    match t with
    | .dispatch n env =>
      env.Plain ∧ ∀ p ∈ w.peers n, ∀ l ∈ p.inbox.head?, l.Fits env.oldApi p.app
    | .call n a => ∀ p ∈ w.peers n, a.Fits p.app
    | _ => True

instance (w : Network) (a : Addr) : Decidable (w.AllReady a) :=
  inferInstanceAs (Decidable (∀ c ∈ (w.server.project a).clients, _))

instance (r : ConnectReply) : Decidable r.Fine :=
  decidable_of_iff
    (uuidParse r.id.1 ≠ none ∧ r.project.1 ≠ [] ∧ r.flags &&& flagServerInterface = 0)
    ⟨fun h => ⟨h.1, h.2.1, h.2.2⟩, fun h => ⟨h.id, h.project, h.plain⟩⟩

instance (s s' : Server) (i : Input) (r : Reply) : Decidable (Sendable s s' i r) :=
  inferInstanceAs (Decidable (_ ∧ (_ → ∃ x ∈ r.connectReply, x.Fine)))

instance (s : Server) (i : Input) : Decidable (s.MissesStore i) :=
  @instDecidableOr _ _
    (match s.resuming i with
    | none => isFalse (fun ⟨_, _, hr, _⟩ => nomatch hr)
    | some (a, c) => decidable_of_iff (configDataSet c.flags ∧ loadsDataSet c.flags = false ∧
        c.store.map Store.dir ≠ some (projectGetClientConfigDir (s.project a) c))
        ⟨fun hc => ⟨a, c, rfl, hc⟩, by
          rintro ⟨a', c', hr, hc⟩
          obtain ⟨rfl, rfl⟩ := Prod.mk.inj (Option.some.inj hr)
          exact hc⟩)
    (match i with
    | .projectMove name path => decidable_of_iff (∃ a ∈ s.findProjectByName name,
        (s.session a).TriesMove path ∧ (s.session a).moveWorks path = false ∧
          ∃ c ∈ (s.project a).clients, configDataSet c.flags)
        ⟨fun ⟨a, ha, h⟩ => ⟨name, path, a, rfl, ha, h⟩, by
          rintro ⟨name', path', a, he, ha, h⟩
          obtain ⟨rfl, rfl⟩ := Input.projectMove.inj he
          exact ⟨a, ha, h⟩⟩
    | .connect .. | .nameLost _ | .progress .. | .commitDataSet .. | .projectOpen _
    | .loadProjectPath _ | .projectSave _ | .saveRound _ | .projectClose _ | .closeRound _
    | .addDependency .. | .removeDependency .. | .lostClientLaunch .. | .projectRename ..
    | .projectSetDescription .. | .projectSetNotes .. | .sigchld _ | .bury | .outside .. =>
        isFalse (fun ⟨_, _, _, he, _⟩ => nomatch he))

instance (w : Network) (i : Input) : Decidable (∀ old new, i = .projectRename old new →
    new ≠ [] ∧ ∀ a ∈ w.server.findProjectByName old, w.AllReady a) :=
  match i with
  | .projectRename old new => decidable_of_iff
      (new ≠ [] ∧ ∀ a ∈ w.server.findProjectByName old, w.AllReady a)
      ⟨by
        rintro h old' new' he
        obtain ⟨rfl, rfl⟩ := Input.projectRename.inj he
        exact h, fun h => h old new rfl⟩
  | .connect .. | .nameLost _ | .progress .. | .commitDataSet .. | .projectOpen _
  | .loadProjectPath _ | .projectSave _ | .saveRound _ | .projectClose _ | .closeRound _
  | .addDependency .. | .removeDependency .. | .lostClientLaunch .. | .projectMove ..
  | .projectSetDescription .. | .projectSetNotes .. | .sigchld _ | .bury | .outside .. =>
      isTrue (fun _ _ he => nomatch he)

instance (w : Network) (i : Input) : Decidable (w.InTurn i) :=
  decidable_of_iff (w.server.ResumesFresh i ∧ w.server.RestoresApart i ∧ w.server.RenamesApart i ∧
      ¬ w.server.MissesStore i ∧ (∀ r ∈ w.server.handle i, Sendable w.server r.1 i r.2) ∧
      (∀ a ∈ w.server.saving i, w.AllReady a) ∧ ∀ old new, i = .projectRename old new →
        new ≠ [] ∧ ∀ a ∈ w.server.findProjectByName old, w.AllReady a)
    ⟨fun ⟨h₁, h₂, h₃, h₄, h₅, h₆, h₇⟩ => ⟨h₁, h₂, h₃, h₄, h₅, h₆, h₇⟩,
      fun ⟨h₁, h₂, h₃, h₄, h₅, h₆, h₇⟩ => ⟨h₁, h₂, h₃, h₄, h₅, h₆, h₇⟩⟩

/-- A turn in which no message is dispatched; this can be decided. -/
def Calm (w : Network) (t : Turn) : Prop :=
  (∀ i ∈ w.input t, w.InTurn i) ∧
    match t with
    | .dispatch .. => False
    | .call n a => ∀ p ∈ w.peers n, a.Fits p.app
    | _ => True

instance (w : Network) (t : Turn) : Decidable (w.Calm t) :=
  @instDecidableAnd _ _ inferInstance
    (match t with
    | .dispatch .. => isFalse id
    | .call n a => inferInstanceAs (Decidable (∀ p ∈ w.peers n, a.Fits p.app))
    | .start .. | .serve _ | .control _ | .route | .handleReply _ | .addMatch _ | .exit _ =>
        isTrue trivial)

theorem Calm.careful {w : Network} {t : Turn} (h : w.Calm t) : w.Careful t := by
  refine ⟨h.1, ?_⟩
  cases t with
  | dispatch => exact h.2.elim
  | call => exact h.2
  | _ => trivial

end Network

/-! ## The daemon handles an input -/

/-- What the daemon sends when it handles an input. -/
def letters (s s' : Server) (i : Input) (r : Reply) : List Letter :=
  (s.news s').filterMap Event.letter ++ (i.letter r).toList

theorem letter_of_not_mail {e : Event} (h : e.isMail = false) : e.letter = none := by
  cases e <;> first | rfl | exact absurd h (by simp [Event.isMail])

theorem filterMap_letter_mail (l : List Event) :
    (mail l).filterMap Event.letter = l.filterMap Event.letter := by
  unfold mail
  rw [List.filterMap_filter]
  apply List.filterMap_congr
  intro e _
  cases hmail : e.isMail with
  | true => rfl
  | false => exact (letter_of_not_mail hmail).symm

section

variable {n : CStr} {p : Peer} {wire L : List Letter} {name name' : CStr} {c d : Client}
  {s s' : Server} {a b : Addr} {i : Input} {r : Reply}

/-- More messages are on the wire. -/
theorem Peer.InStep.append (h : p.InStep n wire name c) (hbadge : d.badge = c.badge)
    (hL : ∀ flags, hasInternalState flags = hasInternalState c.flags →
      (ear n).final (some (name, flags)) L = some (name', flags) ∧
      (ear n).Passes (fun l => p.hears n l = false) (some (name, flags)) L ∧
      ((ear n).outs (some (name, flags)) L = [] ∧ d.pendingTask = c.pendingTask ∨
        c.pendingTask = 0 ∧ (ear n).outs (some (name, flags)) L = taskList d.pendingTask)) :
    p.InStep n (wire ++ L) name' d := by
  obtain ⟨htasks, ⟨flags, hfinal, hstate, hset⟩, hpasses⟩ := h
  obtain ⟨hfinal', hpasses', hmore⟩ := hL flags hstate
  have hdstate : hasInternalState d.flags = hasInternalState c.flags :=
    congrArg (fun r => r.2.2.1) hbadge
  have hdset : configDataSet d.flags = configDataSet c.flags :=
    congrArg (fun r => r.2.2.2) hbadge
  have hassoc : p.inbox ++ (wire ++ L) = (p.inbox ++ wire) ++ L := (List.append_assoc _ _ _).symm
  refine ⟨?_, ⟨flags, ?_, hstate.trans hdstate.symm, hset.trans hdset.symm⟩, ?_⟩
  · rw [hassoc, Reader.outs_append, hfinal]
    rcases hmore with ⟨hnone, hpend⟩ | ⟨hfree, houts⟩
    · rw [hnone, List.append_nil, hpend]
      exact htasks
    · rw [hfree] at htasks
      obtain ⟨hasked, hrest⟩ := List.append_eq_nil_iff.mp htasks
      rw [hasked, hrest, List.append_nil, houts]
      rfl
  · rw [hassoc, Reader.final_append, hfinal]
    exact hfinal'
  · rw [hassoc, Reader.passes_append, hfinal]
    exact ⟨hpasses, hpasses'⟩

/-- More messages are on the wire that the process passes over. -/
theorem Peer.InStep.skips (h : p.InStep n wire (s.project a).name c) (hbadge : d.badge = c.badge)
    (hpend : d.pendingTask = c.pendingTask) (hname : (s'.project a).name = (s.project a).name)
    (hL : ∀ flags, ∀ l ∈ L, (ear n).Skips (some ((s.project a).name, flags)) l) :
    p.InStep n (wire ++ L) (s'.project a).name d := by
  apply h.append hbadge
  intro flags _
  rw [hname]
  refine ⟨Reader.final_of_skips (hL flags), ?_, Or.inl ⟨Reader.outs_of_skips (hL flags), hpend⟩⟩
  exact Reader.Passes.of_skips (fun l hl _ => hL flags l hl) (fun l hl _ => (hL flags l hl).next)

/-- A client that is kept as it is, and nothing on the wire is for it. -/
theorem Peer.InStep.keep (hi : ∀ c, s.Lists n a c → p.InStep n wire (s.project a).name c)
    (hkeep : s.Keeps s' n a d) (hL : a ∈ s.loaded → ∀ flags, ∀ l ∈ L,
      (ear n).Skips (some ((s.project a).name, flags)) l) :
    p.InStep n (wire ++ L) (s'.project a).name d := by
  obtain ⟨c, hc, hbadge, hpend, hname⟩ := hkeep
  exact (hi c hc).skips hbadge hpend hname (hL hc.loaded)

/-- The clients of its project are asked to save. -/
theorem Peer.InStep.asked {ds : DbusString} {task : Nat} (h : p.InStep n wire ds.1 c)
    (hready : p.phase = .ready) (ht : task ≠ 0) (hfree : c.pendingTask = 0)
    (hbadge : d.badge = c.badge)
    (hpend : d.pendingTask = if hasInternalState c.flags then task else 0)
    (hL : ∀ l ∈ L, ∀ e, (ear n).Skips e l) : p.InStep n (wire ++ .save ds task :: L) ds.1 d := by
  apply h.append hbadge
  intro flags hstate
  have hskip : ∀ l ∈ L, (ear n).Skips (some (ds.1, flags)) l := fun l hl => hL l hl _
  refine ⟨?_, ⟨?_, ?_⟩, Or.inr ⟨hfree, ?_⟩⟩
  · show (ear n).final (some (ds.1, flags)) L = _
    exact Reader.final_of_skips hskip
  · intro hdeaf
    simp [Peer.hears, hready] at hdeaf
  · exact Reader.Passes.of_skips (fun l hl _ => hskip l hl) (fun l hl _ => (hskip l hl).next)
  · show (if ds.1 = ds.1 ∧ hasInternalState flags = true then [task] else []) ++
      (ear n).outs (some (ds.1, flags)) L = _
    rw [Reader.outs_of_skips hskip, List.append_nil, hpend, hstate]
    unfold taskList
    by_cases hs : hasInternalState c.flags = true
    · rw [if_pos ⟨rfl, hs⟩, if_pos hs, if_neg ht]
    · rw [if_neg (fun h => hs h.2), if_neg hs, if_pos rfl]

/-- Its project has a new name. -/
theorem Peer.InStep.renamed {old new : DbusString} (h : p.InStep n wire old.1 c)
    (hready : p.phase = .ready) (hbadge : d.badge = c.badge)
    (hpend : d.pendingTask = c.pendingTask) (hL : ∀ l ∈ L, ∀ e, (ear n).Skips e l) :
    p.InStep n (wire ++ .renamed old new :: L) new.1 d := by
  apply h.append hbadge
  intro flags _
  have hskip : ∀ l ∈ L, (ear n).Skips (some (new.1, flags)) l := fun l hl => hL l hl _
  have hnext : (ear n).next (some (old.1, flags)) (.renamed old new) = some (new.1, flags) := by
    show some (if old.1 = old.1 then new.1 else _, flags) = _
    rw [if_pos rfl]
  refine ⟨?_, ⟨?_, ?_⟩, Or.inl ⟨?_, hpend⟩⟩
  · show (ear n).final ((ear n).next _ (.renamed old new)) _ = _
    rw [hnext]
    exact Reader.final_of_skips hskip
  · intro hdeaf
    simp [Peer.hears, hready] at hdeaf
  · rw [hnext]
    exact Reader.Passes.of_skips (fun l hl _ => hskip l hl) (fun l hl _ => (hskip l hl).next)
  · show [] ++ (ear n).outs ((ear n).next _ (.renamed old new)) _ = _
    rw [hnext]
    exact Reader.outs_of_skips hskip

/-- The reply to `Connect` is for its sender only. -/
theorem reply_skips (hother : i.sender ≠ some n) : ∀ l ∈ (i.letter r).toList, ∀ e,
    (ear n).Skips e l := by
  intro l hl e
  obtain ⟨dest, hdest, hne⟩ : ∃ dest, l.dest = some dest ∧ dest ≠ n := by
    cases i with
    | connect sender =>
        obtain ⟨x, -, rfl⟩ := Option.map_eq_some_iff.mp (Option.mem_toList.mp hl)
        exact ⟨sender, rfl, fun he => hother (congrArg some he)⟩
    | _ => exact absurd hl (by simp [Input.letter])
  exact ear_skips_of_dest hdest hne

/-- What a client that connects is told is for it only. -/
theorem told_skips {sender : CStr} {task : Nat} {evs : List Event} (h : Server.Told sender task evs)
    (hne : n ≠ sender) : ∀ l ∈ evs.filterMap Event.letter, ∀ e, (ear n).Skips e l := by
  intro l hl e
  obtain ⟨ev, hev, hletter⟩ := List.mem_filterMap.mp hl
  have hdest : l.dest = some sender := by
    cases h with
    | nothing => exact absurd hev List.not_mem_nil
    | load =>
        cases List.mem_singleton.mp hev
        obtain ⟨path, -, rfl⟩ := Option.map_eq_some_iff.mp hletter
        rfl
    | loadDataSet =>
        cases List.mem_singleton.mp hev
        cases Option.some.inj hletter
        rfl
  exact ear_skips_of_dest hdest hne.symm

/-- **What the daemon sends keeps a process in step** that is not the sender of the input. -/
theorem Peer.InStep.handle (hw : s.Wf) (hpost : s.Post i s' (mail (s.news s')))
    (hnames : s.NamesIdentify) (hsend : Network.Sendable s s' i r) (hother : i.sender ≠ some n)
    (hready : ∀ c, s.Lists n a c → (a ∈ s.saving i ∨ ∃ old new, i = .projectRename old new ∧
      s.findProjectByName old = some a) → p.phase = .ready)
    (hi : ∀ c, s.Lists n a c → p.InStep n wire (s.project a).name c) (hd : s'.Lists n a d) :
    p.InStep n (wire ++ letters s s' i r) (s'.project a).name d := by
  have hreply := reply_skips (r := r) hother
  unfold letters
  rw [← filterMap_letter_mail]
  obtain ⟨hmail, -⟩ := hsend
  generalize mail (s.news s') = evs at hpost hmail
  cases hpost with
  | quiet _ h => exact .keep hi (h n a d hd) (fun _ flags l hl => hreply l hl _)
  | @connect sender pid cls flags wd argv id _ _ htold h =>
      have hne : n ≠ sender := fun he => hother (congrArg some he.symm)
      obtain ⟨task, htold⟩ := htold
      refine .keep hi ((h n a d hd).resolve_right (fun hself => hne hself.1)) ?_
      intro _ flags l hl
      exact (List.mem_append.mp hl).elim (told_skips htold hne l · _) (hreply l · _)
  | @done _ _ b x hrep hname h hself =>
      obtain ⟨u, c', ok, hrep, hx⟩ := hrep
      obtain ⟨m, c₀, hsender, hc₀, haddr, -⟩ := Server.ends_of_reporting hrep
      refine .keep hi (h n a d hd ?_) (fun _ flags l hl => hreply l hl _)
      rintro ⟨rfl, hdx⟩
      obtain ⟨-, c, hc, hbadge⟩ := hself n d hd hdx
      have hcaddr : c.addr = c₀.addr :=
        (congrArg Prod.fst hbadge).symm.trans (hdx.trans (hx.symm.trans haddr))
      have hcc := hc₀.same hc hw hcaddr
      rw [hcc] at hc
      apply hother
      rw [hsender, ← hc.name, ← hc₀.name]
  | @asked _ _ b task ht hsave hname hfree h hself =>
      obtain ⟨project, hproject⟩ := Option.isSome_iff_exists.mp (hmail _ List.mem_cons_self)
      obtain ⟨ds, hds, rfl⟩ := Option.map_eq_some_iff.mp hproject
      have hval := toDbusString_some hds
      rw [show List.filterMap Event.letter [.save b (s.project b).name task] = [.save ds task] from
        List.filterMap_cons_some hproject]
      by_cases hab : a = b
      · subst hab
        obtain ⟨c, hc, hbadge, hpend⟩ := hself n d hd
        rw [hname, ← hval]
        exact Peer.InStep.asked (hval ▸ hi c hc) (hready c hc (Or.inl hsave)) ht (hfree c hc.live)
          hbadge hpend hreply
      · refine .keep hi (h n a d hd hab) ?_
        intro ha flags l hl
        rcases List.mem_cons.mp hl with rfl | hl
        · refine ⟨rfl, if_neg ?_⟩
          rintro ⟨hn, -⟩
          rw [hval] at hn
          exact hab (hnames.unique a ha b (Server.saving_loaded hsave) hn)
        · exact hreply l hl _
  | @renamed old new _ b hfind hname h =>
      obtain ⟨letter, hletter⟩ := Option.isSome_iff_exists.mp (hmail _ List.mem_cons_self)
      obtain ⟨dold, hdold, hrest⟩ := Option.bind_eq_some_iff.mp hletter
      obtain ⟨dnew, hdnew, he⟩ := Option.bind_eq_some_iff.mp hrest
      cases Option.some.inj he
      have hold := toDbusString_some hdold
      have hnew := toDbusString_some hdnew
      have hfound := Server.findProjectByName_eq hfind
      rw [show List.filterMap Event.letter [.projectNameChanged b old new] = [.renamed dold dnew]
        from List.filterMap_cons_some hletter]
      obtain ⟨c, hc, hbadge, hpend, hsame⟩ := h n a d hd
      by_cases hab : a = b
      · subst hab
        have hc' := hi c hc
        rw [hfound, ← hold] at hc'
        rw [hname, ← hnew]
        exact hc'.renamed (hready c hc (Or.inr ⟨old, new, rfl, hfind⟩)) hbadge hpend hreply
      · refine .keep hi ⟨c, hc, hbadge, hpend, hsame hab⟩ ?_
        intro ha flags l hl
        rcases List.mem_cons.mp hl with rfl | hl
        · refine ⟨congrArg (fun x => some (x, flags)) (if_neg ?_), rfl⟩
          intro hn
          rw [hold] at hn
          exact hab (hnames.unique a ha b (Server.findProjectByName_mem hfind)
            (hn.symm.trans hfound.symm))
        · exact hreply l hl _

/-! ## The daemon hears of a client -/

/-- The flags of a client change with a reply only. -/
theorem ear_final_flags (name : CStr) (flags : Flags) {l : List Letter}
    (hl : ∀ x ∈ l, x.repliesTo n = false) :
    ∃ name', (ear n).final (some (name, flags)) l = some (name', flags) := by
  induction l generalizing name with
  | nil => exact ⟨name, rfl⟩
  | cons x l ih =>
      have hrest := fun y hy => hl y (List.mem_cons_of_mem x hy)
      rw [Reader.final_cons]
      cases x with
      | renamed old new => exact ih _ hrest
      | save | load | loadDataSet => exact ih _ hrest
      | reply dest r =>
          have hdest : dest ≠ n := of_decide_eq_false (hl _ List.mem_cons_self)
          have hnext : (ear n).next (some (name, flags)) (.reply dest r) = some (name, flags) :=
            if_neg hdest
          rw [hnext]
          exact ih _ hrest

/-- Whoever reports a data set is counted as a data-set client. -/
theorem Peer.InStep.commits (h : p.InStep n wire name c) (hs : p.Sane n wire) {args : List Arg}
    (hi : .commitDataSet n args ∈ p.outbox) : configDataSet c.flags = true := by
  obtain ⟨hset, hphase⟩ := hs.commit args hi
  obtain ⟨place, hplace, -⟩ := hs.placed hphase
  have hbelieves : p.believes = some (place, p.app.client.flags) := by
    unfold Peer.believes LashClient.believes
    rw [if_neg hphase, hplace]
    rfl
  have hnone : ∀ x ∈ p.inbox ++ wire, x.repliesTo n = false := by
    have honce := hs.once
    rw [if_neg hphase, Nat.le_zero, List.countP_eq_zero] at honce
    intro x hx
    simpa using honce x hx
  obtain ⟨flags, hfinal, -, hsame⟩ := h.hears
  obtain ⟨name', hflags⟩ := ear_final_flags place p.app.client.flags hnone
  rw [hbelieves, hflags] at hfinal
  obtain ⟨-, rfl⟩ := Prod.mk.inj (Option.some.inj hfinal)
  exact hsame.symm.trans hset

/-- The first report in a queue is of the task that the client is at. -/
theorem Peer.InStep.ends_head (h : p.InStep n wire name c) {rest : List Input}
    (hout : p.outbox = i :: rest) {task : Nat} (hends : i.ends = some task) :
    task = c.pendingTask ∧ task ≠ 0 ∧ (ear n).outs p.believes (p.inbox ++ wire) = [] ∧
      p.app.client.working = [] ∧ rest.filterMap Input.ends = [] := by
  have htasks := h.tasks
  have hreported : p.reported = task :: rest.filterMap Input.ends := by
    unfold Peer.reported
    rw [hout, List.filterMap_cons_some hends]
  rw [hreported] at htasks
  have hlen := taskList_length c.pendingTask
  rw [← htasks] at hlen
  simp only [List.length_append, List.length_cons] at hlen
  have hasked : (ear n).outs p.believes (p.inbox ++ wire) = [] :=
    List.length_eq_zero_iff.mp (by omega)
  have hworking : p.app.client.working = [] := List.length_eq_zero_iff.mp (by omega)
  have hrest : rest.filterMap Input.ends = [] := List.length_eq_zero_iff.mp (by omega)
  rw [hasked, hworking, hrest, List.nil_append, List.nil_append] at htasks
  unfold taskList at htasks
  split at htasks
  · exact absurd htasks (by simp)
  · next hne =>
      obtain rfl : task = c.pendingTask := (List.cons.inj htasks).1
      exact ⟨rfl, hne, hasked, hworking, hrest⟩

/-- **The daemon takes every report that ends a task.** -/
theorem Peer.InStep.reporting (h : p.InStep n wire (s.project a).name c) (hs : p.Sane n wire)
    (hq : p.Queued n) (hw : s.Wf) (honce : s.OnePerName) (hopen : s.StoresOpen)
    (hc : s.Lists n a c) {rest : List Input} (hout : p.outbox = i :: rest)
    (hends : i.ends ≠ none) :
    ∃ u d ok, s.reporting i = some (a, u, d, ok) ∧ d.addr = c.addr := by
  obtain ⟨task, htask⟩ := Option.ne_none_iff_exists'.mp hends
  obtain ⟨rfl, hne, -⟩ := h.ends_head hout htask
  have hmem : i ∈ p.outbox := by
    rw [hout]
    exact List.mem_cons_self
  refine hc.reporting hw honce (hq.sender i hmem) htask hne ?_
  rintro ⟨args, rfl⟩
  have hstore := hopen a hc.loaded c hc.live (h.commits hs hmem)
  intro hnone
  rw [hnone] at hstore
  exact absurd hstore (by simp)

/-- **A report is heard**, and the process is in step with what the daemon makes of it. -/
theorem Peer.InStep.serve {rest : List Input} (hw : s.Wf) (honce : s.OnePerName)
    (hopen : s.StoresOpen) (hpost : s.Post i s' (mail (s.news s'))) (hs : p.Sane n wire)
    (hq : p.Queued n) (hout : p.outbox = i :: rest) (hconn : i.isConnect = false)
    (hsave : s.saving i = none) (hren : ∀ old new, i ≠ .projectRename old new)
    (hi : ∀ b c, s.Lists n b c → p.InStep n wire (s.project b).name c) (hd : s'.Lists n a d) :
    ({ p with outbox := rest } : Peer).InStep n (wire ++ letters s s' i r)
      (s'.project a).name d := by
  have hsender : i.sender = some n := hq.sender i (by rw [hout]; exact List.mem_cons_self)
  have hreply : i.letter r = none := by
    cases i with
    | connect => exact absurd hconn (by simp [Input.isConnect])
    | _ => rfl
  unfold letters
  rw [hreply, ← filterMap_letter_mail]
  generalize mail (s.news s') = evs at hpost
  -- what is left when a message that ends no task was heard
  have hless : ∀ {c : Client}, p.InStep n wire (s.project a).name c → i.ends = none →
      ({ p with outbox := rest } : Peer).InStep n wire (s.project a).name c := by
    intro c h hends
    refine ⟨?_, h.hears, h.passes⟩
    have htasks := h.tasks
    unfold Peer.reported at htasks
    rw [hout, List.filterMap_cons_none hends] at htasks
    exact htasks
  cases hpost with
  | quiet hrep h =>
      obtain ⟨c, hc, hbadge, hpend, hname⟩ := h n a d hd
      have hstep := hi a c hc
      have hends : i.ends = none := by
        by_contra hne
        obtain ⟨u, e, ok, hsome, -⟩ := hstep.reporting hs hq hw honce hopen hc hout hne
        rw [hrep] at hsome
        exact absurd hsome (by simp)
      exact (hless hstep hends).skips hbadge hpend hname (fun _ l hl => absurd hl List.not_mem_nil)
  | connect => exact absurd hconn (by simp [Input.isConnect])
  | @done _ _ b x hrep hname h hself =>
      obtain ⟨u, e, ok, hrep, hx⟩ := hrep
      obtain ⟨m, c₀, hm, hc₀, haddr, hends⟩ := Server.ends_of_reporting hrep
      obtain rfl : m = n := Option.some.inj (hm.symm.trans hsender)
      have hself' : a = b ∧ d.addr = x := by
        by_contra hne
        obtain ⟨c, hc, hbadge, -⟩ := h m a d hd hne
        obtain ⟨rfl, rfl⟩ := hc₀.unique hc hw honce
        exact hne ⟨rfl, (congrArg Prod.fst hbadge).trans (haddr.symm.trans hx)⟩
      obtain ⟨rfl, hdx⟩ := hself'
      obtain ⟨hzero, c, hc, hbadge⟩ := hself m d hd hdx
      obtain ⟨-, rfl⟩ := hc₀.unique hc hw honce
      have hstep := hi a c hc
      obtain ⟨-, -, hasked, hworking, hrest⟩ := hstep.ends_head hout hends
      obtain ⟨flags, hfinal, hstate, hset⟩ := hstep.hears
      have hnil : wire ++ (List.filterMap Event.letter [] ++ (none : Option Letter).toList) =
          wire := List.append_nil wire
      rw [hnil, hname]
      refine ⟨?_, ⟨flags, hfinal, ?_, ?_⟩, hstep.passes⟩
      · show (ear m).outs p.believes (p.inbox ++ wire) ++
          (p.app.client.working ++ rest.filterMap Input.ends) = _
        rw [hasked, hworking, hrest, hzero]
        rfl
      · exact hstate.trans (congrArg (fun r => r.2.2.1) hbadge).symm
      · exact hset.trans (congrArg (fun r => r.2.2.2) hbadge).symm
  | asked ht hsome =>
      rw [hsave] at hsome
      exact absurd hsome (by simp)
  | renamed => exact absurd rfl (hren _ _)

theorem Reply.connectReply_client {id name project path wd : CStr} {flags : Flags}
    {x : ConnectReply} (h : (Reply.client id name project path flags wd).connectReply = some x) :
    x.project.1 = project ∧ x.flags = flags := by
  simp only [Reply.connectReply, Option.bind_eq_bind, Option.bind_eq_some_iff] at h
  obtain ⟨_, -, _, -, ds, hds, _, -, _, -, hx⟩ := h
  cases Option.some.inj hx
  exact ⟨toDbusString_some hds, rfl⟩

/-- **A process that connects is in step** with the client that the daemon has for it then. -/
theorem Peer.InStep.connect {rest : List Input} (hw : s.Wf) (hw' : s'.Wf)
    (honce' : s'.OnePerName) (hpost : s.Post i s' (mail (s.news s')))
    (hsend : Network.Sendable s s' i r) (h : s.handle i = some (s', r)) (hs : p.Sane n wire)
    (hq : p.Queued n) (hout : p.outbox = i :: rest) (hconn : i.isConnect = true)
    (hunknown : ∀ b c, ¬ s.Lists n b c) (hd : s'.Lists n a d) :
    ({ p with outbox := rest } : Peer).InStep n (wire ++ letters s s' i r)
      (s'.project a).name d := by
  have hmem : i ∈ p.outbox := by
    rw [hout]
    exact List.mem_cons_self
  have hsender : i.sender = some n := hq.sender i hmem
  obtain ⟨hphase, hnobody⟩ := hs.unknown ⟨i, hmem, hconn⟩
  obtain ⟨hworking, -, hreported, -⟩ := hs.waiting hphase
  cases i with
  | connect sender pid cls flags wd argv id =>
      obtain rfl : sender = n := Option.some.inj hsender
      -- the reply is about the client
      obtain ⟨a', c', hc', rfl⟩ := Server.connect_reply hw h
      obtain ⟨rfl, rfl⟩ := hd.unique hc' hw' honce'
      obtain ⟨x, hx, -⟩ := hsend.2 rfl
      have hplace := Reply.connectReply_client hx
      obtain ⟨hmail, -⟩ := hsend
      have htold : Server.Told sender c'.pendingTask (mail (s.news s')) := by
        generalize mail (s.news s') = evs at hpost
        cases hpost with
        | quiet _ h =>
            obtain ⟨c, hc, -⟩ := h sender a' c' hd
            exact absurd hc (hunknown a' c)
        | connect _ h =>
            rcases h sender a' c' hd with ⟨c, hc, -⟩ | ⟨-, htold⟩
            · exact absurd hc (hunknown a' c)
            · exact htold
        | done hrep =>
            obtain ⟨u, e, ok, hrep, -⟩ := hrep
            exact absurd hrep (by simp [Server.reporting])
        | asked _ hsave => exact absurd hsave (by simp [Server.saving])
      -- nothing in the queue is for a client that is not known
      have hskip : ∀ l ∈ p.inbox ++ wire, (ear sender).Skips none l := by
        intro l hl
        cases hdest : l.dest with
        | none => exact ear_skips_of_signal hdest
        | some m =>
            refine ear_skips_of_dest hdest ?_
            rintro rfl
            exact hnobody l hl hdest
      have hnone : p.believes = none := if_pos hphase
      have hbelieves : ({ p with outbox := rest } : Peer).believes = none := hnone
      have hrest : ({ p with outbox := rest } : Peer).reported = [] := by
        unfold Peer.reported at hreported
        rw [hout] at hreported
        exact (List.filterMap_cons_none (f := Input.ends) rfl).symm.trans hreported
      -- its task, if it has one, comes before the reply
      have hL : ∃ l, letters s s' (.connect sender pid cls flags wd argv id)
            (.client c'.idStr (c'.name.getD []) (s'.project a').name (c'.dataPath.getD []) c'.flags
              (c'.workingDir.getD [])) = l ++ [.reply sender x] ∧
          (ear sender).outs none l = taskList c'.pendingTask ∧ (ear sender).final none l = none ∧
          ∀ y ∈ l, y.dest = some sender := by
        have hletter : Input.letter (.client c'.idStr (c'.name.getD []) (s'.project a').name
            (c'.dataPath.getD []) c'.flags (c'.workingDir.getD []))
            (.connect sender pid cls flags wd argv id) = some (.reply sender x) :=
          congrArg (Option.map (Letter.reply sender)) hx
        unfold letters
        rw [hletter, ← filterMap_letter_mail]
        refine ⟨_, rfl, ?_⟩
        generalize mail (s.news s') = evs at htold hmail
        generalize c'.pendingTask = pending at htold
        cases htold with
        | nothing => exact ⟨rfl, rfl, fun y hy => absurd hy List.not_mem_nil⟩
        | load ht =>
            obtain ⟨l, hl⟩ := Option.isSome_iff_exists.mp (hmail _ List.mem_cons_self)
            rw [List.filterMap_cons_some hl]
            obtain ⟨ds, -, rfl⟩ := Option.map_eq_some_iff.mp hl
            refine ⟨?_, rfl, fun z hz => ?_⟩
            · show (if sender = sender then [pending] else []) ++ [] = _
              rw [if_pos rfl, List.append_nil]
              exact (if_neg ht).symm
            · rw [List.mem_singleton.mp hz]
              rfl
        | loadDataSet ht =>
            refine ⟨?_, rfl, fun z hz => ?_⟩
            · show (if sender = sender then [pending] else []) ++ [] = _
              rw [if_pos rfl, List.append_nil]
              exact (if_neg ht).symm
            · rw [List.mem_singleton.mp hz]
              rfl
      obtain ⟨l, hl, houts, hfinal, hdest⟩ := hL
      have hread : (ear sender).final none (l ++ [.reply sender x]) =
          some ((s'.project a').name, c'.flags) := by
        rw [Reader.final_append, hfinal, ← hplace.1, ← hplace.2]
        exact if_pos rfl
      rw [hl]
      refine ⟨?_, ⟨c'.flags, ?_, rfl, rfl⟩, ?_⟩
      · have hno : ({ p with outbox := rest } : Peer).app.client.working = [] := hworking
        rw [hbelieves, hrest, hno]
        show (ear sender).outs none (p.inbox ++ (wire ++ _)) ++ ([] ++ []) = _
        rw [← List.append_assoc p.inbox, Reader.outs_append, Reader.outs_of_skips hskip,
          Reader.final_of_skips hskip, Reader.outs_append, houts, hfinal]
        exact (List.append_nil _).trans (List.append_nil _)
      · rw [hbelieves]
        show (ear sender).final none (p.inbox ++ (wire ++ _)) = _
        rw [← List.append_assoc p.inbox, Reader.final_append, Reader.final_of_skips hskip]
        exact hread
      · rw [hbelieves]
        show (ear sender).Passes _ none (p.inbox ++ (wire ++ _))
        rw [← List.append_assoc p.inbox, Reader.passes_append, Reader.final_of_skips hskip]
        refine ⟨?_, ?_⟩
        · exact Reader.Passes.of_skips (fun y hy _ => hskip y hy) (fun y hy _ => (hskip y hy).next)
        · apply Reader.Passes.of_forall_not
          intro y hy hdeaf
          have hy' : y.dest = some sender := by
            rcases List.mem_append.mp hy with hy | hy
            · exact hdest y hy
            · rw [List.mem_singleton.mp hy]
              rfl
          cases y with
          | save | renamed => exact absurd hy' (by simp [Letter.dest])
          | load | loadDataSet | reply =>
              exact absurd (Option.some.inj hy') (of_decide_eq_false hdeaf)
  | _ => exact absurd hconn (by simp [Input.isConnect])

/-! ## What is on the wire afterwards -/

/-- Calls and replies are for whoever connects. -/
theorem letters_dest {m : CStr} {l : Letter} (hpost : s.Post i s' (mail (s.news s')))
    (hl : l ∈ letters s s' i r) (hdest : l.dest = some m) :
    i.isConnect = true ∧ i.sender = some m := by
  unfold letters at hl
  rw [← filterMap_letter_mail] at hl
  rcases List.mem_append.mp hl with hl | hl
  · obtain ⟨e, he, hel⟩ := List.mem_filterMap.mp hl
    generalize mail (s.news s') = evs at hpost he
    cases hpost with
    | quiet | done => exact absurd he List.not_mem_nil
    | connect htold =>
        obtain ⟨task, htold⟩ := htold
        refine ⟨rfl, ?_⟩
        cases htold with
        | nothing => exact absurd he List.not_mem_nil
        | load =>
            rw [List.mem_singleton.mp he] at hel
            obtain ⟨ds, -, rfl⟩ := Option.map_eq_some_iff.mp hel
            exact hdest
        | loadDataSet =>
            rw [List.mem_singleton.mp he] at hel
            cases Option.some.inj hel
            exact hdest
    | asked =>
        rw [List.mem_singleton.mp he] at hel
        obtain ⟨ds, -, rfl⟩ := Option.map_eq_some_iff.mp hel
        exact absurd hdest (by simp [Letter.dest])
    | renamed =>
        rw [List.mem_singleton.mp he] at hel
        obtain ⟨d, -, hrest⟩ := Option.bind_eq_some_iff.mp hel
        obtain ⟨d', -, he'⟩ := Option.bind_eq_some_iff.mp hrest
        cases Option.some.inj he'
        exact absurd hdest (by simp [Letter.dest])
  · cases i with
    | connect sender =>
        obtain ⟨x, -, rfl⟩ := Option.map_eq_some_iff.mp (Option.mem_toList.mp hl)
        exact ⟨rfl, hdest⟩
    | _ => exact absurd hl (by simp [Input.letter])

/-- Mail is no reply. -/
theorem Event.letter_replyOf {e : Event} {l : Letter} (h : e.letter = some l) :
    l.replyOf = none := by
  cases e with
  | save | load =>
      obtain ⟨ds, -, rfl⟩ := Option.map_eq_some_iff.mp h
      rfl
  | projectNameChanged =>
      obtain ⟨d, -, hrest⟩ := Option.bind_eq_some_iff.mp h
      obtain ⟨d', -, he⟩ := Option.bind_eq_some_iff.mp hrest
      cases Option.some.inj he
      rfl
  | loadDataSet =>
      cases Option.some.inj h
      rfl
  | _ => exact absurd h (by simp [Event.letter])

/-- A new name is what was asked for. -/
theorem letters_renamed {old new : DbusString} (hpost : s.Post i s' (mail (s.news s')))
    (hl : .renamed old new ∈ letters s s' i r) : ∃ old', i = .projectRename old' new.1 := by
  unfold letters at hl
  rw [← filterMap_letter_mail] at hl
  rcases List.mem_append.mp hl with hl | hl
  · obtain ⟨e, he, hel⟩ := List.mem_filterMap.mp hl
    generalize mail (s.news s') = evs at hpost he
    cases hpost with
    | quiet | done => exact absurd he List.not_mem_nil
    | connect htold =>
        obtain ⟨task, htold⟩ := htold
        cases htold with
        | nothing => exact absurd he List.not_mem_nil
        | load =>
            rw [List.mem_singleton.mp he] at hel
            obtain ⟨ds, -, he'⟩ := Option.map_eq_some_iff.mp hel
            exact absurd he' (by simp)
        | loadDataSet =>
            rw [List.mem_singleton.mp he] at hel
            exact absurd hel (by simp [Event.letter])
    | asked =>
        rw [List.mem_singleton.mp he] at hel
        obtain ⟨ds, -, he'⟩ := Option.map_eq_some_iff.mp hel
        exact absurd he' (by simp)
    | @renamed old' new' =>
        rw [List.mem_singleton.mp he] at hel
        obtain ⟨d, -, hrest⟩ := Option.bind_eq_some_iff.mp hel
        obtain ⟨d', hd', he'⟩ := Option.bind_eq_some_iff.mp hrest
        cases Option.some.inj he'
        exact ⟨old', by rw [toDbusString_some hd']⟩
  · cases i with
    | connect sender =>
        obtain ⟨x, -, he⟩ := Option.map_eq_some_iff.mp (Option.mem_toList.mp hl)
        exact absurd he (by simp)
    | _ => exact absurd hl (by simp [Input.letter])

/-- There is one reply at most. -/
theorem letters_reply (hsend : Network.Sendable s s' i r) :
    (letters s s' i r).countP (Letter.repliesTo n) ≤ 1 ∧
      ∀ x, .reply n x ∈ letters s s' i r → x.Fine := by
  have hmail : ∀ l ∈ (s.news s').filterMap Event.letter, l.replyOf = none := by
    intro l hl
    obtain ⟨e, -, he⟩ := List.mem_filterMap.mp hl
    exact Event.letter_replyOf he
  refine ⟨?_, ?_⟩
  · have hnone : ((s.news s').filterMap Event.letter).countP (Letter.repliesTo n) = 0 := by
      rw [List.countP_eq_zero]
      intro l hl hto
      have hreply := hmail l hl
      cases l with
      | reply => exact absurd hreply (by simp [Letter.replyOf])
      | _ => exact absurd hto (by simp [Letter.repliesTo])
    unfold letters
    rw [List.countP_append, hnone, Nat.zero_add]
    refine List.countP_le_length.trans ?_
    cases i.letter r <;> simp
  · intro x hx
    rcases List.mem_append.mp hx with hx | hx
    · exact absurd (hmail _ hx) (by simp [Letter.replyOf])
    · cases i with
      | connect =>
          obtain ⟨y, hy, he⟩ := Option.map_eq_some_iff.mp (Option.mem_toList.mp hx)
          obtain ⟨-, rfl⟩ := Letter.reply.inj he
          obtain ⟨z, hz, hfine⟩ := hsend.2 rfl
          rw [Option.some.inj (hy.symm.trans hz)]
          exact hfine
      | _ => exact absurd hx (by simp [Input.letter])

theorem Peer.Queued.sent {rest : List Input} (h : p.Queued n) (hout : p.outbox = i :: rest) :
    ({ p with outbox := rest } : Peer).Queued n ∧ ∀ j ∈ rest, j.isConnect = false := by
  have hrest : ∀ j ∈ rest, j.isConnect = false := by
    intro j hj
    apply h.connect
    rw [hout]
    exact hj
  refine ⟨⟨?_, fun j hj => hrest j (List.mem_of_mem_tail hj)⟩, hrest⟩
  intro j hj
  apply h.sender
  rw [hout]
  exact List.mem_cons_of_mem i hj

/-- The daemon has taken a message of the process. -/
theorem Peer.Sane.sent {rest : List Input} (h : p.Sane n wire) (hout : p.outbox = i :: rest) :
    ({ p with outbox := rest } : Peer).Sane n wire := by
  have hsub : ∀ j ∈ rest, j ∈ p.outbox := by
    intro j hj
    rw [hout]
    exact List.mem_cons_of_mem i hj
  refine ⟨h.sound, h.role, ?_, ?_, h.once, h.fine, h.placed, h.renames, ?_, h.own⟩
  · rintro ⟨j, hj, hconn⟩
    exact h.unknown ⟨j, hsub j hj, hconn⟩
  · intro hphase
    obtain ⟨hworking, hunsent, hreported, hinbox⟩ := h.waiting hphase
    refine ⟨hworking, hunsent, ?_, hinbox⟩
    rw [Peer.reported, List.filterMap_eq_nil_iff] at hreported ⊢
    exact fun j hj => hreported j (hsub j hj)
  · exact fun args hj => h.commit args (hsub _ hj)

/-- More messages for others are on the wire. -/
theorem Peer.Sane.append (h : p.Sane n wire) (hdest : ∀ l ∈ L, l.dest ≠ some n)
    (hren : ∀ old new, .renamed old new ∈ L → new.1 ≠ []) : p.Sane n (wire ++ L) := by
  have hto : L.countP (Letter.repliesTo n) = 0 := by
    rw [List.countP_eq_zero]
    intro l hl hto
    cases l with
    | reply dest r => exact hdest _ hl (congrArg some (of_decide_eq_true hto))
    | _ => exact absurd hto (by simp [Letter.repliesTo])
  have hassoc : p.inbox ++ (wire ++ L) = (p.inbox ++ wire) ++ L := (List.append_assoc _ _ _).symm
  refine ⟨h.sound, h.role, ?_, h.waiting, ?_, ?_, h.placed, ?_, h.commit, h.own⟩
  · intro hconn
    obtain ⟨hphase, hnone⟩ := h.unknown hconn
    refine ⟨hphase, ?_⟩
    intro l hl
    rw [hassoc] at hl
    exact (List.mem_append.mp hl).elim (hnone l) (hdest l)
  · rw [hassoc, List.countP_append, hto, Nat.add_zero]
    exact h.once
  · intro x hx
    rw [hassoc] at hx
    exact (List.mem_append.mp hx).elim (h.fine x) (fun hx => absurd rfl (hdest _ hx))
  · intro old new hx
    rw [hassoc] at hx
    exact (List.mem_append.mp hx).elim (h.renames old new) (hren old new)

/-- The daemon has taken the `Connect` of the process. -/
theorem Peer.Sane.connect {rest : List Input} (h : p.Sane n wire) (hq : p.Queued n)
    (hout : p.outbox = i :: rest) (hconn : i.isConnect = true)
    (hpost : s.Post i s' (mail (s.news s'))) (hsend : Network.Sendable s s' i r) :
    ({ p with outbox := rest } : Peer).Sane n (wire ++ letters s s' i r) := by
  have hmem : i ∈ p.outbox := by
    rw [hout]
    exact List.mem_cons_self
  obtain ⟨hphase, hnone⟩ := h.unknown ⟨i, hmem, hconn⟩
  obtain ⟨hone, hfine⟩ := letters_reply (n := n) hsend
  have hsent := h.sent hout
  have hassoc : p.inbox ++ (wire ++ letters s s' i r) = (p.inbox ++ wire) ++ letters s s' i r :=
    (List.append_assoc _ _ _).symm
  have hto : (p.inbox ++ wire).countP (Letter.repliesTo n) = 0 := by
    rw [List.countP_eq_zero]
    intro l hl hto
    cases l with
    | reply dest r => exact hnone _ hl (congrArg some (of_decide_eq_true hto))
    | _ => exact absurd hto (by simp [Letter.repliesTo])
  refine ⟨hsent.sound, hsent.role, ?_, hsent.waiting, ?_, ?_, hsent.placed, ?_, hsent.commit,
    hsent.own⟩
  · rintro ⟨j, hj, hj'⟩
    rw [(hq.sent hout).2 j hj] at hj'
    exact absurd hj' (by decide)
  · show (p.inbox ++ (wire ++ letters s s' i r)).countP _ ≤ if p.phase = .waiting then 1 else 0
    rw [hassoc, List.countP_append, hto, Nat.zero_add, if_pos hphase]
    exact hone
  · intro x hx
    have hx : .reply n x ∈ p.inbox ++ (wire ++ letters s s' i r) := hx
    rw [hassoc] at hx
    exact (List.mem_append.mp hx).elim (h.fine x) (hfine x)
  · intro old new hx
    have hx : .renamed old new ∈ p.inbox ++ (wire ++ letters s s' i r) := hx
    rw [hassoc] at hx
    rcases List.mem_append.mp hx with hx | hx
    · exact h.renames old new hx
    · obtain ⟨old', rfl⟩ := letters_renamed hpost hx
      exact absurd hconn (by simp [Input.isConnect])

/-- Who is live was live before, or has connected. -/
theorem Server.Post.lists {evs : List Event} (hpost : s.Post i s' evs) (hd : s'.Lists n a d) :
    (∃ c, s.Lists n a c) ∨ i.isConnect = true ∧ i.sender = some n := by
  cases hpost with
  | quiet _ h =>
      obtain ⟨c, hc, -⟩ := h n a d hd
      exact Or.inl ⟨c, hc⟩
  | connect _ h =>
      rcases h n a d hd with ⟨c, hc, -⟩ | ⟨rfl, -⟩
      · exact Or.inl ⟨c, hc⟩
      · exact Or.inr ⟨rfl, rfl⟩
  | @done _ _ b x _ _ h hself =>
      by_cases hb : a = b ∧ d.addr = x
      · obtain ⟨rfl, hx⟩ := hb
        obtain ⟨-, c, hc, -⟩ := hself n d hd hx
        exact Or.inl ⟨c, hc⟩
      · obtain ⟨c, hc, -⟩ := h n a d hd hb
        exact Or.inl ⟨c, hc⟩
  | @asked _ _ b _ _ _ _ _ h hself =>
      by_cases hb : a = b
      · subst hb
        obtain ⟨c, hc, -⟩ := hself n d hd
        exact Or.inl ⟨c, hc⟩
      · obtain ⟨c, hc, -⟩ := h n a d hd hb
        exact Or.inl ⟨c, hc⟩
  | renamed _ _ h =>
      obtain ⟨c, hc, -⟩ := h n a d hd
      exact Or.inl ⟨c, hc⟩

end

end Lash
