import Lash.Births
import Lash.ClientStores
import Lash.Connection
import Lash.Modified
import Lash.Departures

/-!
# What is announced about projects and their clients

Six of the control signals say which projects there are, what they are called, where they are and
who their clients are: the bulletins. Most functions of the daemon have none to send. `Says` says
of a function which bulletins it sends.
-/

namespace Lash

/-! ## Bulletins -/

/-- A signal that says which projects or clients there are. -/
def Event.isBulletin : Event → Bool
  | .projectAppeared .. | .projectDisappeared .. | .projectNameChanged ..
  | .projectPathChanged .. | .clientAppeared .. | .clientDisappeared .. => true
  | _ => false

/-- The bulletins among some events. -/
def bulletins (log : List Event) : List Event := log.filter Event.isBulletin

@[simp] theorem bulletins_append (l l' : List Event) :
    bulletins (l ++ l') = bulletins l ++ bulletins l' := List.filter_append l l'

theorem bulletins_nil_iff {log : List Event} :
    bulletins log = [] ↔ ∀ e ∈ log, e.isBulletin = false := by
  simp [bulletins, List.filter_eq_nil_iff]

/-- The bulletins that are sent in between. -/
def Says (g g' : Globals) (bs : List Event) : Prop :=
  ∃ es, g'.log = g.log ++ es ∧ bulletins es = bs

/-- None is sent. -/
abbrev Quiet (g g' : Globals) : Prop := Says g g' []

namespace Says

variable {g g' g'' : Globals} {bs bs' : List Event}

theorem of_eq (h : g'.log = g.log) : Quiet g g' := ⟨[], by rw [h, List.append_nil], rfl⟩

theorem refl (g : Globals) : Quiet g g := .of_eq rfl

theorem trans (h : Says g g' bs) (h' : Says g' g'' bs') : Says g g'' (bs ++ bs') := by
  obtain ⟨es, hlog, rfl⟩ := h
  obtain ⟨es', hlog', rfl⟩ := h'
  exact ⟨es ++ es', by rw [hlog', hlog, List.append_assoc], bulletins_append es es'⟩

/-- Something is said after nothing was. -/
theorem after (h : Quiet g g') (h' : Says g' g'' bs) : Says g g'' bs := h.trans h'

/-- Nothing is said after something was. -/
theorem before (h : Says g g' bs) (h' : Quiet g' g'') : Says g g'' bs := by
  have hall := h.trans h'
  rwa [List.append_nil] at hall

theorem append {es : List Event} (h : g'.log = g.log ++ es) (hes : ∀ e ∈ es, e.isBulletin = false) :
    Quiet g g' := ⟨es, h, bulletins_nil_iff.mpr hes⟩

theorem emit (g : Globals) {e : Event} (he : e.isBulletin = false) : Quiet g (g.emit e) :=
  .append rfl (fun _ hm => List.mem_singleton.mp hm ▸ he)

theorem announce (g : Globals) {e : Event} (he : e.isBulletin = true) : Says g (g.emit e) [e] :=
  ⟨[e], rfl, List.filter_cons_of_pos he⟩

end Says

variable {s t : Session} {c : Client}

/-! ## Functions that have nothing to say -/

theorem projectSetModifiedStatus_said (s : Session) (status : Bool) :
    Quiet s.g (projectSetModifiedStatus s status).g := by
  unfold projectSetModifiedStatus
  split
  · exact .refl _
  · exact .emit s.g rfl

/-- Something is signalled and the modified status is set. -/
theorem signal_said (s : Session) {e : Event} (he : e.isBulletin = false) (status : Bool) :
    Quiet s.g (projectSetModifiedStatus (s.emit e) status).g :=
  (Says.emit s.g he).after (projectSetModifiedStatus_said (s.emit e) status)

theorem projectWriteInfo_said (s : Session) : Quiet s.g (projectWriteInfo s).2.g := by
  unfold projectWriteInfo
  dsimp only
  generalize s.g.fs.xmlSaveFile _ _ = r
  obtain ⟨ok, fs⟩ := r
  dsimp only
  split
  · exact .emit { s.g with fs := fs } rfl
  · exact .refl _

theorem projectClientProgress_said (s : Session) (c : Client) (n : Nat) :
    Quiet s.g (projectClientProgress s c n).1.g := by
  unfold projectClientProgress
  dsimp only
  split
  · exact .refl _
  · exact .emit s.g rfl

theorem projectClientsSaveComplete_said (s : Session) :
    Quiet s.g (projectClientsSaveComplete s).g :=
  ((projectWriteInfo_said s).after (.emit _ rfl)).after (signal_said _ rfl false)

theorem projectLoaded_said (s : Session) : Quiet s.g (projectLoaded s).g :=
  (Says.emit s.g rfl).after (signal_said (s.emit _) rfl false)

theorem projectTaskFinished_said (s : Session) (c : Client) :
    Quiet s.g (projectTaskFinished s c).g := by
  have hstart : Quiet s.g (s.emit (.taskFinished s.p.addr s.p.taskType)).g := .emit s.g rfl
  unfold projectTaskFinished
  refine hstart.after ?_
  generalize s.emit (.taskFinished s.p.addr s.p.taskType) = t
  have hsaved : ∀ p, Quiet t.g (projectClientsSaveComplete { g := t.g, p := p }).g :=
    fun p => projectClientsSaveComplete_said { g := t.g, p := p }
  have hloaded : ∀ p, Quiet t.g (projectLoaded { g := t.g, p := p }).g :=
    fun p => projectLoaded_said { g := t.g, p := p }
  dsimp only
  split
  · exact hsaved _
  · exact hsaved _
  · exact hloaded _
  · exact hloaded _
  · exact .refl _

theorem projectClientTaskCompleted_said (s : Session) (c : Client) :
    Quiet s.g (projectClientTaskCompleted s c).1.g := by
  unfold projectClientTaskCompleted
  refine (projectClientProgress_said s c 100).after ?_
  generalize projectClientProgress s c 100 = r
  obtain ⟨t, d⟩ := r
  show Quiet t.g (projectCountDown t d).g
  have hfinished : ∀ p, Quiet t.g (projectTaskFinished { g := t.g, p := p } d).g :=
    fun p => projectTaskFinished_said { g := t.g, p := p } d
  unfold projectCountDown
  split
  · exact .refl _
  · dsimp only
    split
    · exact hfinished _
    · exact .refl _

theorem projectLaunchClient_said {g g' : Globals} {p : Project} {c' : Client}
    (h : projectLaunchClient g p c = some (g', c')) : Quiet g g' := by
  unfold projectLaunchClient loaderExecute at h
  split at h
  · exact absurd h (by simp)
  · obtain ⟨rfl, -⟩ := Prod.mk.inj (Option.some.inj h)
    exact .emit g rfl

theorem satisfyLost_said {p : Project} {id : Uuid} {g g' : Globals} {l l' : List Client}
    (h : satisfyLost p id g l = some (g', l')) : Quiet g g' := by
  induction l generalizing g l' with
  | nil =>
      obtain ⟨rfl, -⟩ := Prod.mk.inj (Option.some.inj h)
      exact .refl _
  | cons c l ih =>
      -- the rest of the list, behind a client that is not launched
      have hskip : ∀ {d : Client}, (satisfyLost p id g l).map (fun r => (r.1, d :: r.2))
          = some (g', l') → Quiet g g' := by
        intro d hd
        obtain ⟨⟨g₁, l₁⟩, h₁, he⟩ := Option.map_eq_some_iff.mp hd
        obtain ⟨rfl, -⟩ := Prod.mk.inj he
        exact ih h₁
      rw [satisfyLost] at h
      split at h
      · exact hskip h
      · dsimp only at h
        split at h
        · split at h
          · exact absurd h (by simp)
          · next g₁ c₁ hlaunch =>
              obtain ⟨⟨g₂, l₂⟩, h₂, he⟩ := Option.map_eq_some_iff.mp h
              obtain ⟨rfl, -⟩ := Prod.mk.inj he
              exact (projectLaunchClient_said hlaunch).after (ih h₂)
        · exact hskip h

theorem restoreClients_said {p : Project} {g g' : Globals} {l l' : List Client}
    (h : restoreClients p g l = some (g', l')) : Quiet g g' := by
  induction l generalizing g l' with
  | nil =>
      obtain ⟨rfl, -⟩ := Prod.mk.inj (Option.some.inj h)
      exact .refl _
  | cons c l ih =>
      rw [restoreClients] at h
      split at h
      · obtain ⟨⟨g₁, l₁⟩, h₁, he⟩ := Option.map_eq_some_iff.mp h
        obtain ⟨rfl, -⟩ := Prod.mk.inj he
        exact ih h₁
      · split at h
        · exact absurd h (by simp)
        · next g₁ c₁ hlaunch =>
            obtain ⟨⟨g₂, l₂⟩, h₂, he⟩ := Option.map_eq_some_iff.mp h
            obtain ⟨rfl, -⟩ := Prod.mk.inj he
            exact (projectLaunchClient_said hlaunch).after (ih h₂)

theorem clientFinishTask_said {ok : Bool} {d : Client}
    (h : clientFinishTask s c ok = some (t, d)) : Quiet s.g t.g := by
  cases ok with
  | false =>
      obtain ⟨rfl, -⟩ := Prod.mk.inj (Option.some.inj h)
      exact .refl _
  | true =>
      by_cases hrestore : c.taskType.isRestore
      · obtain ⟨-, g, lost, hsat, rfl⟩ := clientFinishTask_restore hrestore h
        exact satisfyLost_said hsat
      · by_cases hsave : c.taskType.isSave
        · obtain ⟨fs, flags, rfl, -⟩ := clientFinishTask_save hsave h
          exact .of_eq rfl
        · have hunknown : c.taskType = .unknown := by
            cases hty : c.taskType <;> simp_all [EventType.isSave, EventType.isRestore]
          unfold clientFinishTask at h
          rw [if_pos rfl, hunknown] at h
          obtain ⟨rfl, -⟩ := Prod.mk.inj (Option.some.inj h)
          exact .refl _

theorem clientTaskCompleted_said {ok : Bool} (h : clientTaskCompleted s c ok = some t) :
    Quiet s.g t.g := by
  have hstart : Quiet s.g
      (s.emit (.taskCompleted s.p.addr c.addr c.pendingTask c.taskType ok)).g := .emit s.g rfl
  unfold clientTaskCompleted at h
  dsimp only at h
  split at h
  · rw [← Option.some.inj h]
    exact hstart
  · obtain ⟨⟨u, d⟩, hfin, rfl⟩ := Option.map_eq_some_iff.mp h
    exact (hstart.after (clientFinishTask_said hfin)).after
      (projectClientTaskCompleted_said u d)

theorem projectLoadDataSet_said {d : Client} (h : projectLoadDataSet s c = some (t, d)) :
    Quiet s.g t.g := by
  unfold projectLoadDataSet at h
  generalize clientStoreOpen s.g.fs c (projectGetClientConfigDir s.p c) = r at h
  obtain ⟨ok, e, fs⟩ := r
  dsimp only at h
  have hnothing : Quiet s.g (s.setFs fs).g := .of_eq rfl
  split at h
  · exact absurd h (by simp)
  · split at h
    · obtain ⟨rfl, -⟩ := Prod.mk.inj (Option.some.inj h)
      exact hnothing
    · split at h
      · obtain ⟨rfl, -⟩ := Prod.mk.inj (Option.some.inj h)
        exact hnothing
      · split at h
        · exact absurd h (by simp)
        · obtain ⟨rfl, -⟩ := Prod.mk.inj (Option.some.inj h)
          exact .of_eq rfl
        · obtain ⟨rfl, -⟩ := Prod.mk.inj (Option.some.inj h)
          exact .append rfl (fun _ he => List.mem_singleton.mp he ▸ rfl)

theorem resumeLoad_said {d : Client} {stateless : Bool}
    (h : resumeLoad s c = some (t, d, stateless)) : Quiet s.g t.g := by
  have hnothing : some (s, c, true) = some (t, d, stateless) → Quiet s.g t.g := by
    intro he
    simp only [Option.some.injEq, Prod.mk.injEq] at he
    obtain ⟨rfl, -, -⟩ := he
    exact .refl _
  unfold resumeLoad at h
  split_ifs at h
  · simp only [Option.some.injEq, Prod.mk.injEq] at h
    obtain ⟨rfl, -, -⟩ := h
    exact .append rfl (fun _ he => List.mem_singleton.mp he ▸ rfl)
  · obtain ⟨⟨u, e⟩, hload, he⟩ := Option.map_eq_some_iff.mp h
    simp only [Prod.mk.injEq] at he
    obtain ⟨rfl, -, -⟩ := he
    exact projectLoadDataSet_said hload
  · exact hnothing h
  · exact hnothing h

theorem projectSave_said (s : Session) : Quiet s.g (projectSave s).g := by
  have hask : ∀ u : Session, Quiet u.g (projectSaveClients u).g := by
    intro u
    unfold projectSaveClients
    split
    · exact .refl _
    · refine .append (List.append_assoc _ _ _) ?_
      intro e he
      rcases List.mem_append.mp he with he | he
      · exact List.mem_singleton.mp he ▸ rfl
      · obtain ⟨c, -, rfl⟩ := List.mem_map.mp he
        rfl
  have hnotes : ∀ u : Session, Quiet u.g (projectSaveNotes u).2.g := by
    intro u
    apply Says.of_eq
    unfold projectSaveNotes
    dsimp only
    split
    · rfl
    · split <;> rfl
  have hstart : Quiet s.g (projectSaveStart s).g := by
    unfold projectSaveStart
    dsimp only
    refine Says.after ?_ (hnotes _)
    refine Says.after ?_ (hask _)
    exact (Says.emit s.g rfl).after (.emit _ rfl)
  unfold projectSave
  split
  · exact .refl _
  · dsimp only
    split
    · exact hstart.after (projectClientsSaveComplete_said _)
    · exact hstart

theorem loadNode_log {n : XmlNode} (h : loadNode s n = some t) : t.g.log = s.g.log := by
  unfold loadNode at h
  split_ifs at h
  · rw [← Option.some.inj h]
  · split at h
    · exact absurd h (by simp)
    · rw [← Option.some.inj h]
  · rw [← Option.some.inj h]

theorem projectLoad_log {ok : Bool} (h : projectLoad s = some (ok, t)) : t.g.log = s.g.log := by
  unfold projectLoad at h
  split at h
  · exact absurd h (by simp)
  · split at h
    · obtain ⟨-, rfl⟩ := Prod.mk.inj (Option.some.inj h)
      rfl
    · split at h
      · exact absurd h (by simp)
      · next u hu =>
          have hread : u.g.log = s.g.log :=
            Runs.foldlM_invariant (I := fun v => v.g.log = s.g.log) rfl
              (fun _ _ _ _ hv hn => (loadNode_log hn).trans hv) hu
          obtain ⟨-, rfl⟩ := Prod.mk.inj (Option.some.inj h)
          show (projectLoadNotes u).g.log = _
          unfold projectLoadNotes
          split <;> exact hread

/-! ## Functions that send bulletins -/

/-- A client that joins is announced under its id. -/
theorem projectNewClient_said {id : Uuid} (h : projectNewClient s c id = some t) :
    ∃ name, Says s.g t.g [.clientAppeared s.p.addr (uuidUnparse id) s.p.name name] := by
  have hid : (newClientPrepare s.p s.g.fs c id).1.idStr = uuidUnparse id := by
    unfold newClientPrepare
    dsimp only
    split <;> rfl
  unfold projectNewClient at h
  generalize newClientPrepare s.p s.g.fs c id = r at h hid
  obtain ⟨d, fs⟩ := r
  dsimp only at h hid
  split at h
  · exact absurd h (by simp)
  · next e hname =>
      have he : e.idStr = uuidUnparse id := (projectNameClient_samePlace hname).idStr.trans hid
      generalize hu : Session.put _ e = u at h
      have hsame : u.g.log = s.g.log ∧ u.p.addr = s.p.addr ∧ u.p.name = s.p.name := by
        rw [← hu]
        exact ⟨rfl, rfl, rfl⟩
      obtain ⟨hlog, haddr, hname⟩ := hsame
      refine ⟨e.name.getD [], ?_⟩
      rw [← Option.some.inj h, ← he, ← haddr, ← hname]
      have hset : Quiet s.g (projectSetModifiedStatus u true).g :=
        (Says.of_eq hlog).after (projectSetModifiedStatus_said u true)
      refine hset.after ?_
      rw [projectSetModifiedStatus_p]
      exact .announce _ rfl

/-- A client that is lost is announced too. -/
theorem clientDisconnected_said (s : Session) (c : Client) : Says s.g (clientDisconnected s c).g
    [.clientDisappeared s.p.addr c.idStr s.p.name] := by
  have hkeeps : ∀ fs, (loseStore fs c).1.idStr = c.idStr := fun fs => (loseStore_keeps fs c).idStr
  unfold clientDisconnected projectLoseClient
  dsimp only
  generalize hr : loseStore _ c = r
  obtain ⟨d, fs⟩ := r
  have hd : d.idStr = c.idStr := by
    rw [← hkeeps, hr]
  dsimp only
  rw [hd, projectSetModifiedStatus_p]
  refine Says.after ?_ (.announce _ rfl)
  refine Says.after ?_ (projectSetModifiedStatus_said _ true)
  exact .emit s.g rfl

/-- A client that is back is announced, and if it has nothing to load its task ends. -/
theorem clientResumeProject_said (h : clientResumeProject s c = some t) :
    ∃ name, Says s.g t.g [.clientAppeared s.p.addr c.idStr s.p.name name] := by
  have hprep : Quiet s.g (resumePrepare s c).1.g := .emit s.g rfl
  have hsame : (resumePrepare s c).1.p.addr = s.p.addr ∧ (resumePrepare s c).1.p.name = s.p.name ∧
      (resumePrepare s c).2.idStr = c.idStr := by
    refine ⟨rfl, rfl, ?_⟩
    unfold resumePrepare
    dsimp only
    split <;> rfl
  unfold clientResumeProject at h
  generalize resumePrepare s c = r at h hprep hsame
  obtain ⟨u, d⟩ := r
  obtain ⟨haddr, hname, hid⟩ := hsame
  dsimp only at h hprep haddr hname hid
  split at h
  · exact absurd h (by simp)
  · next v e stateless hload =>
      have hv : Quiet s.g v.g := hprep.after (resumeLoad_said hload)
      have hvp := resumeLoad_head hload
      have heid : e.idStr = c.idStr := (resumeLoad_store hload).2.1.trans hid
      split at h
      · exact absurd h (by simp)
      · next f hnamed =>
          have hfid : f.idStr = c.idStr := (nameIfUnnamed_samePlace hnamed).idStr.trans heid
          generalize hw : Session.emit (Session.put _ f) _ = w at h
          have hwv : Says s.g w.g
              [.clientAppeared s.p.addr c.idStr s.p.name (f.name.getD [])] := by
            rw [← hw, ← haddr, ← hname, ← hfid, ← hvp]
            exact hv.after (.announce v.g rfl)
          refine ⟨f.name.getD [], ?_⟩
          split at h
          · rw [← Option.some.inj h]
            refine hwv.before ?_
            exact projectClientTaskCompleted_said
              (w.put { f with taskType := .restoreDataSet }) { f with taskType := .restoreDataSet }
          · rw [← Option.some.inj h]
            exact hwv

/-- A project that is moved is announced with its new place. -/
theorem projectMove_said (s : Session) (dir : CStr) :
    (projectMove s dir).p.directory = s.p.directory ∧ Quiet s.g (projectMove s dir).g ∨
      (projectMove s dir).p.directory = dir ∧
        Says s.g (projectMove s dir).g [.projectPathChanged s.p.addr s.p.name dir] := by
  rcases projectMove_cases s dir with ⟨-, h | h⟩ | ⟨-, h⟩
  · rw [h]
    exact Or.inl ⟨rfl, .refl _⟩
  · rw [h]
    exact Or.inl ⟨rfl, .of_eq rfl⟩
  · rw [h]
    unfold moveProject
    dsimp only
    split
    · exact Or.inl ⟨rfl, .of_eq rfl⟩
    · exact Or.inr ⟨rfl, .announce { s.g with fs := _ } rfl⟩

/-- A project may be moved when it is closed. -/
theorem projectUnload_said (s : Session) : Quiet s.g (projectUnload s).g ∨
    ∃ dir, Says s.g (projectUnload s).g [.projectPathChanged s.p.addr s.p.name dir] := by
  have hquit : Quiet s.g (s.emit (.quit s.p.addr s.p.name)).g := .emit s.g rfl
  have hremove : ∀ u : Session, Quiet u.g (unloadRemove u).g := by
    intro u
    unfold unloadRemove
    split
    · exact .of_eq rfl
    · exact .refl _
  unfold projectUnload
  dsimp only
  generalize hu : Session.mk _ _ = u
  have hsame : Quiet s.g u.g ∧ u.p.addr = s.p.addr ∧ u.p.name = s.p.name := by
    rw [← hu]
    exact ⟨hquit, rfl, rfl⟩
  obtain ⟨hlog, haddr, hname⟩ := hsame
  unfold unloadMove
  split
  · have hmove := projectMove_said u (moveOnCloseTarget u.g.projectsDir u.p.name)
    rw [haddr] at hmove
    generalize projectMove u _ = v at hmove ⊢
    rcases hmove with ⟨-, h⟩ | ⟨-, h⟩
    · exact Or.inl ((hlog.after h).before (hremove v))
    · rw [hname] at h
      exact Or.inr ⟨_, (hlog.after h).before (hremove v)⟩
  · exact Or.inl (hlog.before (hremove _))

/-- A new name is announced. -/
theorem projectRename_said (s : Session) (new : CStr) : Says s.g (projectRename s new).g
    [.projectNameChanged s.p.addr s.p.name new] := by
  unfold projectRename
  exact (Says.announce s.g rfl).before (projectSetModifiedStatus_said _ true)

end Lash
