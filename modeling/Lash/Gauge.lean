import Lash.Modified

/-!
# The gauge of a task

`project_t` counts the clients of its task (`client_tasks_total`, `client_tasks_pending`) and adds
up how far they are (`client_tasks_progress`). `Gauge` is this part of a project,
`Server.metering` the call of `project_client_progress` that an input leads to, and
`Server.Gauged` what a step makes of the gauge: it takes a reading, begins a task, or leaves the
gauge alone.
-/

namespace Lash

/-- How far a project is with its task. -/
structure Gauge where
  task : TaskType
  total : Nat
  pending : Nat
  progress : Int

def Project.gauge (p : Project) : Gauge where
  task := p.taskType
  total := p.clientTasksTotal
  pending := p.clientTasksPending
  progress := p.clientTasksProgress

namespace Gauge

/-- A client is at `n` percent, after a reading of `old`. -/
def measure (g : Gauge) (old n : Nat) : Gauge := { g with progress := g.progress - old + n }

/-- A client has completed its task; after the last one there is none. -/
def count (g : Gauge) : Gauge :=
  if g.pending = 0 then g
  else if g.pending = 1 then ⟨.idle, 0, 0, 0⟩
  else { g with pending := g.pending - 1 }

/-- A task of `n` clients begins. -/
def new (task : TaskType) (n : Nat) : Gauge := ⟨task, n, n, 0⟩

@[simp] theorem task_measure (g : Gauge) (old n : Nat) : (g.measure old n).task = g.task := rfl
@[simp] theorem total_measure (g : Gauge) (old n : Nat) : (g.measure old n).total = g.total := rfl
@[simp] theorem pending_measure (g : Gauge) (old n : Nat) : (g.measure old n).pending = g.pending :=
  rfl

end Gauge

variable {s t : Session} {c d : Client}

/-! ## Functions of a session -/

@[simp] theorem projectSetModifiedStatus_gauge (s : Session) (b : Bool) :
    (projectSetModifiedStatus s b).p.gauge = s.p.gauge := by
  rw [projectSetModifiedStatus_p]
  rfl

theorem projectClientProgress_gauge (s : Session) (c : Client) (n : Nat) :
    (projectClientProgress s c n).1.p.gauge = s.p.gauge.measure c.taskProgress n := by
  unfold projectClientProgress
  dsimp only
  split <;> rfl

theorem projectClientsSaveComplete_gauge (s : Session) :
    (projectClientsSaveComplete s).p.gauge = s.p.gauge := by
  unfold projectClientsSaveComplete
  rw [projectSetModifiedStatus_gauge]
  show (projectWriteInfo s).2.p.gauge = s.p.gauge
  unfold projectWriteInfo
  dsimp only
  split <;> rfl

theorem projectTaskFinished_gauge (s : Session) (c : Client) :
    (projectTaskFinished s c).p.gauge = ⟨.idle, 0, s.p.clientTasksPending, 0⟩ := by
  unfold projectTaskFinished
  cases c.taskType with
  | saveDataSet | saveFile => exact projectClientsSaveComplete_gauge _
  | restoreFile | restoreDataSet => exact projectSetModifiedStatus_gauge _ false
  | unknown => rfl

theorem projectCountDown_gauge (s : Session) (c : Client) :
    (projectCountDown s c).p.gauge = s.p.gauge.count := by
  unfold projectCountDown Gauge.count
  have hpending : s.p.gauge.pending = s.p.clientTasksPending := rfl
  rw [hpending]
  by_cases h0 : s.p.clientTasksPending = 0
  · rw [if_pos h0, if_pos h0]
  · rw [if_neg h0, if_neg h0]
    dsimp only
    by_cases h1 : s.p.clientTasksPending = 1
    · rw [if_pos h1, if_pos (by omega)]
      apply (projectTaskFinished_gauge _ c).trans
      simp [h1]
    · rw [if_neg h1, if_neg (by omega)]
      rfl

theorem projectClientTaskCompleted_gauge (s : Session) (c : Client) :
    (projectClientTaskCompleted s c).1.p.gauge = (s.p.gauge.measure c.taskProgress 100).count := by
  unfold projectClientTaskCompleted
  dsimp only
  rw [projectCountDown_gauge, projectClientProgress_gauge]

theorem clientFinishTask_gauge {ok : Bool} (h : clientFinishTask s c ok = some (t, d)) :
    t.p.gauge = s.p.gauge ∧ d.taskProgress = c.taskProgress := by
  have hsatisfy : (projectSatisfyClientDependency s c).map (fun s => (s, c)) = some (t, d) →
      t.p.gauge = s.p.gauge ∧ d.taskProgress = c.taskProgress := by
    intro hf
    obtain ⟨u, hu, he⟩ := Option.map_eq_some_iff.mp hf
    obtain ⟨rfl, rfl⟩ := Prod.mk.inj he
    obtain ⟨r, -, rfl⟩ := Option.map_eq_some_iff.mp hu
    exact ⟨rfl, rfl⟩
  unfold clientFinishTask at h
  split at h
  · split at h
    · split at h
      · exact absurd h (by simp)
      · obtain ⟨rfl, rfl⟩ := Prod.mk.inj (Option.some.inj h)
        exact ⟨rfl, rfl⟩
    · obtain ⟨rfl, rfl⟩ := Prod.mk.inj (Option.some.inj h)
      exact ⟨rfl, rfl⟩
    · exact hsatisfy h
    · exact hsatisfy h
    · obtain ⟨rfl, rfl⟩ := Prod.mk.inj (Option.some.inj h)
      exact ⟨rfl, rfl⟩
  · obtain ⟨rfl, rfl⟩ := Prod.mk.inj (Option.some.inj h)
    exact ⟨rfl, rfl⟩

theorem clientTaskCompleted_gauge {ok : Bool} (h : clientTaskCompleted s c ok = some t) :
    t.p.gauge = if c.taskType = .unknown then s.p.gauge
      else (s.p.gauge.measure c.taskProgress 100).count := by
  unfold clientTaskCompleted at h
  dsimp only at h
  split at h
  · next htype =>
      rw [← Option.some.inj h, if_pos htype]
      rfl
  · next htype =>
      obtain ⟨⟨u, d⟩, hf, rfl⟩ := Option.map_eq_some_iff.mp h
      obtain ⟨hgauge, hprogress⟩ := clientFinishTask_gauge hf
      rw [if_neg htype]
      refine (projectClientTaskCompleted_gauge u d).trans ?_
      rw [hgauge, hprogress]
      rfl

theorem nameIfUnnamed_taskProgress {p : Project} (h : nameIfUnnamed p c = some d) :
    d.taskProgress = c.taskProgress := by
  unfold nameIfUnnamed projectNameClient at h
  split at h
  · split at h
    · cases h
    · rw [← Option.some.inj h]
  · rw [← Option.some.inj h]

/-- A client that is taken for a stateless one is left as it is. -/
theorem resumeLoad_stateless (h : resumeLoad s c = some (t, d, true)) : d = c := by
  unfold resumeLoad at h
  split at h
  · split at h
    · cases h
    · split at h
      · obtain ⟨r, -, he⟩ := Option.map_eq_some_iff.mp h
        cases he
      · cases h
        rfl
  · cases h
    rfl

/-- A client that is back is measured if it is taken for a stateless one. -/
theorem clientResumeProject_gauge (h : clientResumeProject s c = some t) :
    t.p.gauge = if resumeAnswer s c = .stateless
      then (s.p.gauge.measure c.taskProgress 100).count else s.p.gauge := by
  unfold clientResumeProject at h
  unfold resumeAnswer
  have hprep : (resumePrepare s c).1.p.gauge = s.p.gauge ∧
      (resumePrepare s c).2.taskProgress = c.taskProgress := by
    refine ⟨rfl, ?_⟩
    unfold resumePrepare
    dsimp only
    split <;> rfl
  generalize resumePrepare s c = r at h hprep ⊢
  obtain ⟨u, d⟩ := r
  obtain ⟨hgauge, hprogress⟩ := hprep
  dsimp only at h hgauge hprogress ⊢
  split at h
  · exact absurd h (by simp)
  · next w e stateless hload =>
      obtain ⟨hp, hanswer⟩ := resumeLoad_spec hload
      split at h
      · exact absurd h (by simp)
      · next f hname =>
          have hf := nameIfUnnamed_taskProgress hname
          cases hans : loadAnswer u d with
          | stateless =>
              rw [hans] at hanswer
              obtain ⟨rfl, -⟩ := hanswer
              have he := resumeLoad_stateless hload
              rw [if_pos rfl, Option.some.injEq] at h
              rw [← h, if_pos rfl, ← hgauge, ← hprogress, ← he, ← hf, ← hp]
              unfold resumeStateless
              exact projectClientTaskCompleted_gauge _ _
          | sent | silent =>
              rw [hans] at hanswer
              obtain ⟨rfl, -⟩ := hanswer
              rw [if_neg (by simp), Option.some.injEq] at h
              rw [← h, if_neg (by simp), ← hgauge, ← hp]
              rfl

theorem projectNewClient_gauge {id : Uuid} (h : projectNewClient s c id = some t) :
    t.p.gauge = s.p.gauge := by
  unfold projectNewClient at h
  dsimp only at h
  split at h
  · cases h
  · rw [← Option.some.inj h, Session.emit_p, projectSetModifiedStatus_gauge]
    rfl

theorem clientDisconnected_gauge (s : Session) (c : Client) :
    (clientDisconnected s c).p.gauge = s.p.gauge := by
  unfold clientDisconnected projectLoseClient
  dsimp only
  show (projectSetModifiedStatus _ true).p.gauge = _
  rw [projectSetModifiedStatus_gauge]
  rfl

theorem projectMove_gauge (s : Session) (dir : CStr) :
    (projectMove s dir).p.gauge = s.p.gauge := by
  obtain ⟨d, l, -, hp⟩ := projectMove_fields s dir
  rw [hp]
  rfl

theorem projectUnload_gauge (s : Session) : (projectUnload s).p.gauge = s.p.gauge := by
  have hmove : ∀ u : Session, (unloadMove u).p.gauge = u.p.gauge := by
    intro u
    unfold unloadMove
    split
    · exact projectMove_gauge u _
    · rfl
  have hremove : ∀ u : Session, (unloadRemove u).p.gauge = u.p.gauge := by
    intro u
    unfold unloadRemove
    split <;> rfl
  unfold projectUnload
  dsimp only
  rw [hremove, hmove]
  rfl

/-- A save that waits for nobody, or for the clients that have something to save. -/
theorem projectSaveClients_gauge (s : Session) :
    (projectSaveClients s).p.gauge =
      if s.p.clients.any (fun c => c.pendingTask ≠ 0) then s.p.gauge
      else .new (if s.p.stateful.length = 0 then .idle else .save) s.p.stateful.length := by
  unfold projectSaveClients
  split
  · rfl
  · rfl

theorem projectSave_gauge (s : Session) :
    (projectSave s).p.gauge =
      if s.p.taskType = .idle ∧ ¬ s.p.clients.any (fun c => c.pendingTask ≠ 0) then
        .new (if s.p.stateful.length = 0 then .idle else .save) s.p.stateful.length
      else s.p.gauge := by
  have hstart : (projectSaveStart s).p.gauge =
      if s.p.clients.any (fun c => c.pendingTask ≠ 0) then s.p.gauge
      else .new (if s.p.stateful.length = 0 then .idle else .save) s.p.stateful.length := by
    unfold projectSaveStart
    dsimp only
    show (projectSaveNotes _).2.p.gauge = _
    rw [projectSaveNotes_p]
    exact projectSaveClients_gauge _
  unfold projectSave
  by_cases hidle : s.p.taskType = .idle
  · rw [if_neg (not_not.mpr hidle)]
    dsimp only
    have hdone : (if (projectSaveStart s).p.clientTasksTotal = 0
        then projectClientsSaveComplete (projectSaveStart s) else projectSaveStart s).p.gauge =
        (projectSaveStart s).p.gauge := by
      split
      · exact projectClientsSaveComplete_gauge _
      · rfl
    rw [hdone, hstart]
    by_cases hpending : s.p.clients.any (fun c => c.pendingTask ≠ 0)
    · rw [if_pos hpending, if_neg (fun h => h.2 hpending)]
    · rw [if_neg hpending]
      exact (if_pos ⟨hidle, hpending⟩).symm
  · rw [if_pos hidle, if_neg (fun h => hidle h.1)]

/-! ## Steps -/

namespace Server

variable {s s' : Server} {a : Addr} {i : Input}

def gauge (s : Server) (a : Addr) : Gauge := (s.project a).gauge

/-- The call of `project_client_progress` for project `a` that an input leads to: the client, how
far it is now, and whether it has completed its task. -/
def metering (s : Server) (a : Addr) (i : Input) : Option (Client × Nat × Bool) :=
  match s.reporting i with
  | some (b, _, c, _) => if b = a ∧ c.taskType ≠ .unknown then some (c, 100, true) else none
  | none =>
    match s.resuming i with
    | some (b, c) => if b = a ∧ s.answer i = some .stateless then some (c, 100, true) else none
    | none =>
      match s.progressing i with
      | some (b, c, n) => if b = a then some (c, n, false) else none
      | none => none

/-- The client of project `a` that an input brings back and that has to load something. -/
def reloading (s : Server) (a : Addr) (i : Input) : Option Client :=
  match s.resuming i with
  | some (b, c) => if b = a ∧ s.answer i = some .sent then some c else none
  | none => none

/-- What a step means for the task of a project. -/
inductive TaskNews where
  | restores
  | saves
  | reads (c : Client) (n : Nat) (complete : Bool)
  | reloads (c : Client)
  | nothing

/-- What the step from `s` to `s'` means for the task of project `a`. -/
def taskNews (s : Server) (a : Addr) (i : Input) (s' : Server) : TaskNews :=
  if s.restoring i = some a then if a ∈ s'.loaded then .restores else .nothing
  else if s.saving i = some a then
    if (s.project a).taskType = .idle ∧ ¬ (s.project a).clients.any (fun c => c.pendingTask ≠ 0)
    then .saves else .nothing
  else
    match s.metering a i with
    | some (c, n, complete) => .reads c n complete
    | none =>
      match s.reloading a i with
      | some c => .reloads c
      | none => .nothing

/-- The gauge of project `a` after a step. -/
def Gauged (s : Server) (a : Addr) (s' : Server) : TaskNews → Prop
  | .restores => s'.gauge a = .new .load (s'.project a).lostClients.length
  | .saves => s'.gauge a = .new (if (s.project a).stateful.length = 0 then .idle else .save)
      (s.project a).stateful.length
  | .reads c n complete => s'.gauge a =
      if complete then ((s.gauge a).measure c.taskProgress n).count
      else (s.gauge a).measure c.taskProgress n
  | .reloads _ => s'.gauge a = s.gauge a
  | .nothing => s'.gauge a = s.gauge a ∨ s'.gauge a = .new .idle 0

theorem gauge_setSession (s : Server) (a b : Addr) (u : Session) :
    (s.setSession b u).gauge a = if b = a then u.p.gauge else s.gauge a := by
  unfold gauge
  by_cases h : b = a
  · rw [if_pos h, ← h, setSession_project_self]
  · rw [if_neg h, setSession_project_ne s u (Ne.symm h)]

/-- A restored project has a task for every client in its file. -/
theorem restore_gauged (hi : s.restoring i = some a) (h : s.step i = some s') :
    a ∈ s'.loaded ∧ s'.gauge a = .new .load (s'.project a).lostClients.length ∨
      a ∉ s'.loaded ∧ s'.gauge a = s.gauge a := by
  have hnot := restoring_not_mem hi
  have hrestored : ((s.projectRestore a).map (fun r => (r.2, Reply.void))).map Prod.fst = some s' →
      ∃ ok, s.projectRestore a = some (ok, s') := by
    intro hr
    rw [Option.map_map] at hr
    obtain ⟨⟨ok, t⟩, ht, rfl⟩ := Option.map_eq_some_iff.mp hr
    exact ⟨ok, ht⟩
  have hstep : ∃ ok, s.projectRestore a = some (ok, s') := by
    cases i with
    | projectOpen name =>
        obtain ⟨hfind, -⟩ := Option.filter_eq_some_iff.mp hi
        have hr : (s.dbusRestore (fun p => p.name = name)).map Prod.fst = some s' := h
        rw [dbusRestore, hfind] at hr
        exact hrestored hr
    | loadProjectPath path =>
        obtain ⟨hfind, -⟩ := Option.filter_eq_some_iff.mp hi
        have hr : (s.dbusRestore (fun p => p.directory = path)).map Prod.fst = some s' := h
        rw [dbusRestore, hfind] at hr
        exact hrestored hr
    | _ => exact absurd hi (by simp [restoring])
  obtain ⟨ok, hrestore⟩ := hstep
  rcases projectRestore_cases hnot hrestore with rfl | ⟨u, v, hload, hv, hstart⟩
  · exact Or.inr ⟨hnot, rfl⟩
  · obtain ⟨g, lost, hrest, rfl⟩ := startRestore_some hstart
    rw [setSession_project_self] at hrest
    have hmem : a ∈ (s.setSession a v).loaded ++ [a] := by simp
    have hlength : v.p.lostClients.length = lost.length := by
      have hall := (restoreClients_spec hrest).1.length_eq
      rwa [List.length_map, List.length_map] at hall
    refine Or.inl ⟨hmem, ?_⟩
    rw [gauge_setSession, if_pos rfl, setSession_project_self, setSession_project_self, ← hlength]
    rfl

theorem step_of_progressing {b : Addr} {c : Client} {n : Nat}
    (h : s.progressing i = some (b, c, n)) :
    s.step i = some (s.setSession b (projectClientProgress (s.session b) c n).1) := by
  cases i with
  | progress sender args =>
      unfold progressing at h
      dsimp only at h
      show (s.dbusProgress sender args).map Prod.fst = _
      unfold dbusProgress
      cases hfind : s.findClientByDbusName sender with
      | none =>
          rw [hfind] at h
          cases h
      | some r =>
          obtain ⟨b', c'⟩ := r
          rw [hfind] at h
          dsimp only at h ⊢
          split at h
          · next percentage rest hcheck =>
              rw [hcheck]
              split at h
              · cases h
              · next hread =>
                  cases h
                  dsimp only
                  unfold clientTaskProgressed
                  rw [if_neg (by omega), if_neg (by omega), if_neg (by omega)]
                  rfl
          · cases h
  | _ => exact absurd h (by simp [progressing])

/-- The session in which a report is handled shows the gauge of its project. -/
theorem reporting_gauge {b : Addr} {u : Session} {c : Client} {ok : Bool}
    (h : s.reporting i = some (b, u, c, ok)) : u.p.gauge = s.gauge b := by
  obtain ⟨-, d, -, -, hcase⟩ := reporting_cases h
  rcases hcase with ⟨rfl, -, -⟩ | ⟨-, -, elems, -, st, -, -, -, -, -, rfl, rfl⟩
  · rfl
  · rfl

/-- **What a step does to the gauge of a project** is what it means for its task. -/
theorem step_gauged (hw : s.Wf) (h : s.step i = some s') (a : Addr) :
    s.Gauged a s' (s.taskNews a i s') := by
  unfold taskNews
  by_cases hrestores : s.restoring i = some a
  · rw [if_pos hrestores]
    have hrestore := restore_gauged hrestores h
    rcases hrestore with ⟨hmem, hgauge⟩ | ⟨hmem, hgauge⟩
    · rw [if_pos hmem]
      exact hgauge
    · rw [if_neg hmem]
      exact Or.inl hgauge
  rw [if_neg hrestores]
  by_cases hsaves : s.saving i = some a
  · rw [if_pos hsaves]
    rw [step_of_saving hsaves] at h
    have hp : s'.gauge a = (Lash.projectSave (s.session a)).p.gauge := by
      rw [← Option.some.inj h]
      unfold projectSave
      dsimp only
      split
      · exact (gauge_setSession _ _ _ _).trans (if_pos rfl)
      · exact (gauge_setSession _ _ _ _).trans (if_pos rfl)
    rw [projectSave_gauge] at hp
    split
    · next hasked => exact hp.trans (if_pos hasked)
    · next hasked => exact Or.inl (hp.trans (if_neg hasked))
  rw [if_neg hsaves]
  have hsame : s'.gauge a = s.gauge a → s.Gauged a s'
      (match s.reloading a i with
        | some c => .reloads c
        | none => .nothing) := by
    intro hgauge
    cases s.reloading a i with
    | none => exact Or.inl hgauge
    | some c => exact hgauge
  unfold metering
  cases hreport : s.reporting i with
  | some r =>
      obtain ⟨b, u, c, ok⟩ := r
      rw [step_of_reporting hw hreport] at h
      obtain ⟨v, hv, rfl⟩ := Option.map_eq_some_iff.mp h
      have hgauge := clientTaskCompleted_gauge hv
      rw [reporting_gauge hreport] at hgauge
      dsimp only
      by_cases hread : b = a ∧ c.taskType ≠ .unknown
      · rw [if_pos hread]
        rw [if_neg hread.2, hread.1] at hgauge
        exact (gauge_setSession s a b v).trans ((if_pos hread.1).trans hgauge)
      · rw [if_neg hread]
        apply hsame
        rw [gauge_setSession]
        split
        · next hab =>
            have htype : c.taskType = .unknown := by
              by_contra htype
              exact hread ⟨hab, htype⟩
            rw [hgauge, if_pos htype, hab]
        · rfl
  | none =>
      dsimp only
      cases hresume : s.resuming i with
      | some r =>
          obtain ⟨b, c⟩ := r
          cases i with
          | connect sender pid cls flags wd argv id =>
              obtain ⟨hanswer, hstep⟩ := step_of_resuming hresume
              rw [hstep] at h
              obtain ⟨u, hu, rfl⟩ := Option.map_eq_some_iff.mp h
              have hgauge := clientResumeProject_gauge hu
              dsimp only
              by_cases hread : b = a ∧ s.answer (.connect sender pid cls flags wd argv id) =
                some .stateless
              · rw [if_pos hread]
                rw [if_pos (Option.some.inj (hanswer.symm.trans hread.2))] at hgauge
                refine (gauge_setSession s a b u).trans ((if_pos hread.1).trans ?_)
                rw [hgauge, ← hread.1]
                rfl
              · rw [if_neg hread]
                apply hsame
                rw [gauge_setSession]
                split
                · next hab =>
                    rw [hgauge, if_neg, ← hab]
                    · rfl
                    · intro hans
                      exact hread ⟨hab, hanswer.trans (congrArg some hans)⟩
                · rfl
          | _ => exact absurd hresume (by simp [resuming])
      | none =>
          dsimp only
          cases hprogress : s.progressing i with
          | some r =>
              obtain ⟨b, c, n⟩ := r
              rw [step_of_progressing hprogress, Option.some.injEq] at h
              subst h
              dsimp only
              by_cases hab : b = a
              · rw [if_pos hab]
                refine (gauge_setSession s a b _).trans ((if_pos hab).trans ?_)
                rw [projectClientProgress_gauge, ← hab]
                rfl
              · rw [if_neg hab]
                apply hsame
                rw [gauge_setSession, if_neg hab]
          | none =>
              have hnone : s.reloading a i = none := by
                unfold reloading
                rw [hresume]
              dsimp only
              rw [hnone]
              show s'.gauge a = s.gauge a ∨ s'.gauge a = .new .idle 0
              rcases step_changes h a with hproject | hchange
              · exact Or.inl (congrArg Project.gauge hproject)
              · unfold gauge
                generalize s'.project a = p' at hchange
                cases hchange with
                | join hi ht hu =>
                    rw [projectNewClient_gauge hu]
                    rcases ht with ⟨-, ht⟩ | ⟨-, name, ht⟩
                    · exact Or.inl (congrArg Project.gauge ht)
                    · exact Or.inr (congrArg Project.gauge ht)
                | resume hi => exact absurd (hi.symm.trans hresume) (by simp)
                | leave g hi => exact Or.inl (clientDisconnected_gauge _ _)
                | complete hi => exact absurd (hi.symm.trans hreport) (by simp)
                | progress n ha hc hi => exact absurd (hi.symm.trans hprogress) (by simp)
                | save hi => exact absurd hi hsaves
                | close hi => exact Or.inl (projectUnload_gauge _)
                | restore ha hnot hi => exact absurd hi hrestores
                | depend | undepend | launch => exact Or.inl rfl
                | rename | describe | note => exact Or.inl (projectSetModifiedStatus_gauge _ true)
                | move hi => exact Or.inl (projectMove_gauge _ _)

end Server

end Lash
