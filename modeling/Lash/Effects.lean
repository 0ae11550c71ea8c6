import Lash.Aims

/-!
# What the functions of a project do to its tasks

For each function on a `Session` two facts: what it leaves of the view of the project, and which
task events it records (`Session.Steps`). Everything else about the function is forgotten here;
most of them leave the view alone and record nothing.
-/

namespace Lash

/-! ## The log -/

/-- The log has grown by events of project `a`, of which `evs` are about tasks. -/
def Logged (a : Addr) (g g' : Globals) (evs : List Event) : Prop :=
  ∃ es, g'.log = g.log ++ es ∧ (∀ e ∈ es, e.project = a) ∧ es.filter Event.isTask = evs

namespace Logged

variable {a : Addr} {g g' g'' : Globals} {evs evs' : List Event}

theorem of_log_eq (h : g'.log = g.log) : Logged a g g' [] :=
  ⟨[], by simp [h], by simp, rfl⟩

theorem trans (h : Logged a g g' evs) (h' : Logged a g' g'' evs') :
    Logged a g g'' (evs ++ evs') := by
  obtain ⟨es, hlog, hes, hf⟩ := h
  obtain ⟨es', hlog', hes', hf'⟩ := h'
  refine ⟨es ++ es', ?_, ?_, ?_⟩
  · rw [hlog', hlog, List.append_assoc]
  · intro e he
    rcases List.mem_append.mp he with he | he
    · exact hes e he
    · exact hes' e he
  · rw [List.filter_append, hf, hf']

theorem tasks_eq (h : Logged a g g' evs) : tasks a g'.log = tasks a g.log ++ evs := by
  obtain ⟨es, hlog, hes, hf⟩ := h
  rw [hlog, tasks, List.filter_append]
  congr 1
  rw [← hf]
  apply List.filter_congr
  intro e he
  simp [hes e he]

/-- The other projects do not notice. -/
theorem tasks_ne (h : Logged a g g' evs) {b : Addr} (hb : b ≠ a) :
    tasks b g'.log = tasks b g.log := by
  obtain ⟨es, hlog, hes, hf⟩ := h
  have hnil : es.filter (fun e => e.project = b && e.isTask) = [] := by
    rw [List.filter_eq_nil_iff]
    intro e he
    simp [hes e he, Ne.symm hb]
  rw [hlog, tasks, List.filter_append, hnil, List.append_nil]
  rfl

end Logged

/-! ## Sessions -/

/-- A session has moved on: the project is the same one, no address was given out, and `evs` was
recorded. -/
structure Session.Steps (s s' : Session) (evs : List Event) : Prop where
  addr : s'.p.addr = s.p.addr
  nextAddr : s'.g.nextAddr = s.g.nextAddr
  logged : Logged s.p.addr s.g s'.g evs

namespace Session.Steps

variable {s s' s'' : Session} {evs evs' : List Event}

theorem trans (h : Steps s s' evs) (h' : Steps s' s'' evs') : Steps s s'' (evs ++ evs') where
  addr := h'.addr.trans h.addr
  nextAddr := h'.nextAddr.trans h.nextAddr
  logged := h.logged.trans (h.addr ▸ h'.logged)

/-- Followed by something that records nothing. -/
theorem then_nothing (h : Steps s s' evs) (h' : Steps s' s'' []) : Steps s s'' evs := by
  have := h.trans h'
  rwa [List.append_nil] at this

theorem of_log_eq (haddr : s'.p.addr = s.p.addr) (hnext : s'.g.nextAddr = s.g.nextAddr)
    (hlog : s'.g.log = s.g.log) : Steps s s' [] :=
  ⟨haddr, hnext, .of_log_eq hlog⟩

theorem of_log_append (es : List Event) (haddr : s'.p.addr = s.p.addr)
    (hnext : s'.g.nextAddr = s.g.nextAddr) (hlog : s'.g.log = s.g.log ++ es)
    (hes : ∀ e ∈ es, e.project = s.p.addr) : Steps s s' (es.filter Event.isTask) :=
  ⟨haddr, hnext, es, hlog, hes, rfl⟩

/-- Something was done that records one event. -/
theorem of_emit (e : Event) (haddr : s'.p.addr = s.p.addr) (hnext : s'.g.nextAddr = s.g.nextAddr)
    (hlog : s'.g.log = s.g.log ++ [e]) (he : e.project = s.p.addr) :
    Steps s s' ([e].filter Event.isTask) :=
  of_log_append [e] haddr hnext hlog (by simp [he])

/-- Events that are not about tasks do not count. -/
theorem emit_other (s : Session) {e : Event} (he : e.project = s.p.addr) (h : e.isTask = false) :
    Steps s (s.emit e) [] := by
  have hs : Steps s (s.emit e) ([e].filter Event.isTask) := of_emit e rfl rfl rfl he
  rwa [List.filter_cons_of_neg (by simp [h])] at hs

end Session.Steps

/-! ## Clients -/

theorem Client.addr_job (c : Client) : c.job.addr = c.addr := rfl

theorem map_job_del (a : Addr) (l : List Client) :
    (delClient a l).map Client.job = Keyed.del Job.addr a (l.map Client.job) :=
  Keyed.map_del Client.addr_job a l

theorem map_job_put (c : Client) (l : List Client) :
    (putClient c l).map Client.job = Keyed.put Job.addr c.job (l.map Client.job) :=
  Keyed.map_put Client.addr_job c l

/-- Writing a client back changes its job. -/
theorem Project.view_put (p : Project) (c : Client) (l : Bool) :
    (p.put c).view l = (p.view l).put c.job := by
  simp only [Project.view, View.put, Project.put, map_job_put]

@[simp] theorem clientStoreOpen_job (fs : Fs) (c : Client) (dir : CStr) :
    (clientStoreOpen fs c dir).2.1.job = c.job := rfl

@[simp] theorem clientStoreClose_job (fs : Fs) (c : Client) :
    (clientStoreClose fs c).2.1.job = c.job := by
  unfold clientStoreClose
  cases c.store <;> rfl

theorem projectNameClient_job {p : Project} {c c' : Client} (h : projectNameClient p c = some c') :
    c'.job = c.job := by
  unfold projectNameClient at h
  split at h
  · exact absurd h (by simp)
  · rw [← Option.some.inj h]; rfl

theorem nameIfUnnamed_job {p : Project} {c c' : Client} (h : nameIfUnnamed p c = some c') :
    c'.job = c.job := by
  unfold nameIfUnnamed at h
  split at h
  · exact projectNameClient_job h
  · rw [← Option.some.inj h]

@[simp] theorem closeStores_map_job (fs : Fs) (l : List Client) :
    (closeStores fs l).1.map Client.job = l.map Client.job := by
  induction l generalizing fs with
  | nil => rfl
  | cons c l ih => simp [closeStores, ih]

@[simp] theorem openStores_map_job (p : Project) (fs : Fs) (l : List Client) :
    (openStores p fs l).1.map Client.job = l.map Client.job := by
  induction l generalizing fs with
  | nil => rfl
  | cons c l ih => simp [openStores, ih]

@[simp] theorem newClientPrepare_job (p : Project) (fs : Fs) (c : Client) (id : Uuid) :
    (newClientPrepare p fs c id).1.job = { c.job with id := id } := by
  unfold newClientPrepare
  dsimp only
  split <;> rfl

@[simp] theorem loseStore_job (fs : Fs) (c : Client) : (loseStore fs c).1.job = c.job := by
  unfold loseStore
  split
  · rfl
  · split
    · rfl
    · split <;> rfl

/-! ## Status and completion -/

@[simp] theorem projectSetModifiedStatus_view (s : Session) (status l : Bool) :
    (projectSetModifiedStatus s status).p.view l = s.p.view l := by
  unfold projectSetModifiedStatus
  split <;> rfl

@[simp] theorem projectSetModifiedStatus_total (s : Session) (status : Bool) :
    (projectSetModifiedStatus s status).p.clientTasksTotal = s.p.clientTasksTotal := by
  unfold projectSetModifiedStatus
  split <;> rfl

theorem projectSetModifiedStatus_true (s : Session) :
    s.Steps (projectSetModifiedStatus s true) [] := by
  unfold projectSetModifiedStatus
  split
  · exact .of_log_eq rfl rfl rfl
  · exact .of_emit (.projectModifiedStatusChanged s.p.addr s.p.name true) rfl rfl rfl rfl

theorem projectSetModifiedStatus_false (s : Session) :
    ∃ modified : Bool, s.Steps (projectSetModifiedStatus s false)
      (if modified then [.projectModifiedStatusChanged s.p.addr s.p.name false] else []) := by
  unfold projectSetModifiedStatus
  split
  · exact ⟨false, .of_log_eq rfl rfl rfl⟩
  · exact ⟨true, .of_emit (.projectModifiedStatusChanged s.p.addr s.p.name false) rfl rfl rfl rfl⟩

@[simp] theorem projectWriteInfo_view (s : Session) (l : Bool) :
    (projectWriteInfo s).2.p.view l = s.p.view l := by
  unfold projectWriteInfo
  dsimp only
  split <;> rfl

@[simp] theorem projectWriteInfo_name (s : Session) : (projectWriteInfo s).2.p.name = s.p.name := by
  unfold projectWriteInfo
  dsimp only
  split <;> rfl

theorem projectWriteInfo_steps (s : Session) :
    s.Steps (projectWriteInfo s).2
      (if s.p.infoWritable s.g.fs then [.infoWritten s.p.addr] else []) := by
  have hok : (s.g.fs.xmlSaveFile (lashGetFqn s.p.directory projectInfoFile)
      (projectCreateXml s.p)).1 = s.p.infoWritable s.g.fs := by
    unfold Fs.xmlSaveFile Project.infoWritable
    dsimp only
    split
    · next h => cases hf : s.g.fs.fault <;> simp [h.1, h.2]
    · next h =>
        rw [eq_comm, Bool.and_eq_false_iff]
        left
        simpa using h
  unfold projectWriteInfo
  dsimp only
  rw [hok]
  split
  · exact .of_emit (.infoWritten s.p.addr) rfl rfl rfl rfl
  · exact .of_log_eq rfl rfl rfl

@[simp] theorem projectClientsSaveComplete_view (s : Session) (l : Bool) :
    (projectClientsSaveComplete s).p.view l = s.p.view l := by
  unfold projectClientsSaveComplete
  dsimp only
  rw [projectSetModifiedStatus_view]
  exact projectWriteInfo_view s l

theorem projectClientsSaveComplete_steps (s : Session) :
    ∃ modified, s.Steps (projectClientsSaveComplete s)
      (finishEvents s.p.addr s.p.name (s.p.infoWritable s.g.fs) modified .saveFile) := by
  have hw := projectWriteInfo_steps s
  have haddr := hw.addr
  have hname := projectWriteInfo_name s
  unfold projectClientsSaveComplete
  generalize (projectWriteInfo s).2 = t at hw haddr hname ⊢
  have he : t.Steps ((t.emit (.progress t.p.addr 100)).emit (.projectSaved t.p.addr t.p.name))
      [.projectSaved t.p.addr t.p.name] :=
    .of_log_append [.progress t.p.addr 100, .projectSaved t.p.addr t.p.name] rfl rfl
      (by simp [Session.emit, Globals.emit]) (by simp [Event.project])
  obtain ⟨m, hm⟩ := projectSetModifiedStatus_false
    ((t.emit (.progress t.p.addr 100)).emit (.projectSaved t.p.addr t.p.name))
  have hm' : Session.Steps _ _
      (if m then [.projectModifiedStatusChanged t.p.addr t.p.name false] else []) := hm
  have h := hw.trans (he.trans hm')
  rw [haddr, hname] at h
  refine ⟨m, ?_⟩
  dsimp only
  rw [haddr, hname]
  exact h

@[simp] theorem projectLoaded_view (s : Session) (l : Bool) :
    (projectLoaded s).p.view l = s.p.view l := by
  unfold projectLoaded
  rw [projectSetModifiedStatus_view]
  rfl

theorem projectLoaded_steps (s : Session) (written : Bool) :
    ∃ modified, s.Steps (projectLoaded s)
      (finishEvents s.p.addr s.p.name written modified .restoreFile) := by
  have he : s.Steps ((s.emit (.progress s.p.addr 100)).emit (.projectLoaded s.p.addr s.p.name))
      [.projectLoaded s.p.addr s.p.name] :=
    .of_log_append [.progress s.p.addr 100, .projectLoaded s.p.addr s.p.name] rfl rfl
      (by simp [Session.emit, Globals.emit]) (by simp [Event.project])
  obtain ⟨m, hm⟩ := projectSetModifiedStatus_false
    ((s.emit (.progress s.p.addr 100)).emit (.projectLoaded s.p.addr s.p.name))
  exact ⟨m, he.trans hm⟩

/-! ## Counting -/

namespace View

@[simp] theorem put_pending (v : View) (c : Job) : (v.put c).pending = v.pending := rfl

@[simp] theorem put_task (v : View) (c : Job) : (v.put c).task = v.task := rfl

theorem put_put (v : View) {c d : Job} (h : d.addr = c.addr) : (v.put c).put d = v.put d := by
  unfold put
  rw [Keyed.put_put h]

theorem count_put (v : View) (c : Job) : (v.put c).count = v.count.put c := by
  unfold count
  rw [put_pending]
  split
  · rfl
  · split <;> rfl

theorem countEvents_put (v : View) (c : Job) (a : Addr) (name : CStr) (written modified : Bool)
    (type : EventType) : (v.put c).countEvents a name written modified type
      = v.countEvents a name written modified type := rfl

/-- Whether the info file was written only matters at the end of a save. -/
theorem countEvents_written {v : View} {type : EventType} (written written' : Bool) (a : Addr)
    (name : CStr) (modified : Bool) (h : v.pending = 1 → type.isSave → written = written') :
    v.countEvents a name written modified type = v.countEvents a name written' modified type := by
  unfold countEvents
  split
  · next hp => cases type <;> simp_all [finishEvents, EventType.isSave]
  · rfl

end View

@[simp] theorem projectClientProgress_job (s : Session) (c : Client) (n : Nat) :
    (projectClientProgress s c n).2.job = c.job := by
  unfold projectClientProgress
  dsimp only
  split <;> rfl

@[simp] theorem projectClientProgress_taskType (s : Session) (c : Client) (n : Nat) :
    (projectClientProgress s c n).2.taskType = c.taskType :=
  congrArg Job.taskType (projectClientProgress_job s c n)

theorem projectClientProgress_view (s : Session) (c : Client) (n : Nat) (l : Bool) :
    (projectClientProgress s c n).1.p.view l = (s.p.view l).put c.job := by
  unfold projectClientProgress
  dsimp only
  split <;> exact Project.view_put _ _ l

theorem projectClientProgress_steps (s : Session) (c : Client) (n : Nat) :
    s.Steps (projectClientProgress s c n).1 [] := by
  unfold projectClientProgress
  dsimp only
  split
  · exact .of_log_eq rfl rfl rfl
  · exact .of_emit (.progress s.p.addr _) rfl rfl rfl rfl

/-- Progress touches neither the disk nor where the project is. -/
theorem projectClientProgress_same (s : Session) (c : Client) (n : Nat) :
    let t := (projectClientProgress s c n).1
    t.g.fs = s.g.fs ∧ t.p.directory = s.p.directory ∧ t.p.name = s.p.name := by
  unfold projectClientProgress
  dsimp only
  split <;> exact ⟨rfl, rfl, rfl⟩

theorem projectTaskFinished_view (s : Session) (c : Client) (l : Bool) :
    (projectTaskFinished s c).p.view l = { s.p.view l with task := .idle } := by
  unfold projectTaskFinished
  dsimp only
  split <;> simp <;> rfl

theorem projectTaskFinished_steps (s : Session) (c : Client) :
    ∃ modified, s.Steps (projectTaskFinished s c) (.taskFinished s.p.addr s.p.taskType
      :: finishEvents s.p.addr s.p.name (s.p.infoWritable s.g.fs) modified c.taskType) := by
  unfold projectTaskFinished
  dsimp only
  generalize ht : ({ s.emit (.taskFinished s.p.addr s.p.taskType) with
    p := { (s.emit (.taskFinished s.p.addr s.p.taskType)).p with
      taskType := .idle, clientTasksTotal := 0, clientTasksProgress := 0 } } : Session) = t
  have he : s.Steps t [.taskFinished s.p.addr s.p.taskType] := by
    subst ht
    exact .of_emit (.taskFinished s.p.addr s.p.taskType) rfl rfl rfl rfl
  have hsame : t.p.addr = s.p.addr ∧ t.p.name = s.p.name
      ∧ t.p.infoWritable t.g.fs = s.p.infoWritable s.g.fs := by
    subst ht
    exact ⟨rfl, rfl, rfl⟩
  obtain ⟨haddr, hname, hw⟩ := hsame
  have hsaved := projectClientsSaveComplete_steps t
  have hloaded := projectLoaded_steps t (s.p.infoWritable s.g.fs)
  rw [haddr, hname] at hsaved hloaded
  rw [hw] at hsaved
  cases c.taskType with
  | saveFile | saveDataSet =>
      obtain ⟨m, hm⟩ := hsaved
      exact ⟨m, he.trans hm⟩
  | restoreFile | restoreDataSet =>
      obtain ⟨m, hm⟩ := hloaded
      exact ⟨m, he.trans hm⟩
  | unknown => exact ⟨false, he⟩

theorem projectCountDown_view (s : Session) (c : Client) (l : Bool) :
    (projectCountDown s c).p.view l = (s.p.view l).count := by
  unfold projectCountDown View.count
  by_cases h0 : s.p.clientTasksPending = 0
  · rw [if_pos h0, if_pos (show (s.p.view l).pending = 0 from h0)]
  · rw [if_neg h0, if_neg (show (s.p.view l).pending ≠ 0 from h0)]
    dsimp only
    by_cases h1 : s.p.clientTasksPending = 1
    · rw [if_pos (by omega), if_pos (show (s.p.view l).pending = 1 from h1),
        projectTaskFinished_view]
      simp [Project.view, h1]
    · rw [if_neg (by omega), if_neg (show (s.p.view l).pending ≠ 1 from h1)]
      rfl

theorem projectCountDown_steps (s : Session) (c : Client) (l : Bool) :
    ∃ modified, s.Steps (projectCountDown s c) ((s.p.view l).countEvents s.p.addr s.p.name
      (s.p.infoWritable s.g.fs) modified c.taskType) := by
  unfold projectCountDown View.countEvents
  by_cases h1 : s.p.clientTasksPending = 1
  · rw [if_neg (by omega)]
    dsimp only
    rw [if_pos (by omega)]
    obtain ⟨m, hm⟩ := projectTaskFinished_steps
      { s with p := { s.p with clientTasksPending := s.p.clientTasksPending - 1 } } c
    refine ⟨m, ?_⟩
    rw [if_pos (show (s.p.view l).pending = 1 from h1)]
    exact ⟨hm.addr, hm.nextAddr, hm.logged⟩
  · refine ⟨false, ?_⟩
    rw [if_neg (show (s.p.view l).pending ≠ 1 from h1)]
    split
    · exact .of_log_eq rfl rfl rfl
    · dsimp only
      rw [if_neg (by omega)]
      exact .of_log_eq rfl rfl rfl

@[simp] theorem projectClientTaskCompleted_job (s : Session) (c : Client) :
    (projectClientTaskCompleted s c).2.job = c.job :=
  projectClientProgress_job s c 100

theorem projectClientTaskCompleted_view (s : Session) (c : Client) (l : Bool) :
    (projectClientTaskCompleted s c).1.p.view l = ((s.p.view l).put c.job).count := by
  rw [← projectClientProgress_view s c 100 l]
  exact projectCountDown_view _ _ l

theorem projectClientTaskCompleted_steps (s : Session) (c : Client) (l : Bool) :
    ∃ modified, s.Steps (projectClientTaskCompleted s c).1 ((s.p.view l).countEvents s.p.addr
      s.p.name (s.p.infoWritable s.g.fs) modified c.taskType) := by
  have hs := projectClientProgress_steps s c 100
  have hv := projectClientProgress_view s c 100 l
  have htype := projectClientProgress_taskType s c 100
  obtain ⟨hfs, hdir, hname⟩ := projectClientProgress_same s c 100
  unfold projectClientTaskCompleted
  generalize projectClientProgress s c 100 = r at *
  obtain ⟨t, d⟩ := r
  have hw : t.p.infoWritable t.g.fs = s.p.infoWritable s.g.fs := by
    unfold Project.infoWritable
    rw [hfs, hdir]
  obtain ⟨m, hm⟩ := projectCountDown_steps t d l
  have hm' := hs.trans hm
  rw [hv, View.countEvents_put, hs.addr, hname, hw, htype] at hm'
  exact ⟨m, hm'⟩

/-! ## Launching -/

theorem loaderExecute_spec {g g' : Globals} {name : CStr} {c c' : Client}
    (h : loaderExecute g name c = some (g', c')) :
    (∃ pid, c' = { c with pid := pid }) ∧ g'.nextAddr = g.nextAddr ∧ g'.fs = g.fs
      ∧ g'.log = g.log := by
  unfold loaderExecute at h
  split at h
  · exact absurd h (by simp)
  · obtain ⟨rfl, rfl⟩ := Prod.mk.inj (Option.some.inj h)
    exact ⟨⟨_, rfl⟩, rfl, rfl, rfl⟩

theorem projectLaunchClient_spec {g g' : Globals} {p : Project} {c c' : Client}
    (h : projectLaunchClient g p c = some (g', c')) :
    (∃ pid, c' = { c with pid := pid }) ∧ g'.nextAddr = g.nextAddr ∧ g'.fs = g.fs
      ∧ g'.log = g.log ++ [.launched p.addr c.addr] :=
  loaderExecute_spec h

/-- The clients that wait for nothing but `id` are launched, and nobody waits for `id` any more. -/
theorem satisfyLost_spec {p : Project} {id : Uuid} {g g' : Globals} {l l' : List Client}
    (h : satisfyLost p id g l = some (g', l')) :
    List.Forall₂ (Job.Satisfied id) (l.map Client.job) (l'.map Client.job)
      ∧ g'.nextAddr = g.nextAddr ∧ g'.fs = g.fs
      ∧ g'.log = g.log ++ launchEvents p.addr ((l.map Client.job).filter (Job.Ready id)) := by
  induction l generalizing g l' with
  | nil =>
      obtain ⟨rfl, rfl⟩ := Prod.mk.inj (Option.some.inj h)
      exact ⟨.nil, rfl, rfl, by simp [launchEvents]⟩
  | cons c l ih =>
      rw [satisfyLost] at h
      split at h
      · next hun =>
          -- the client waits for nobody
          obtain ⟨⟨g₁, l₁⟩, h₁, he⟩ := Option.map_eq_some_iff.mp h
          obtain ⟨rfl, rfl⟩ := Prod.mk.inj he
          obtain ⟨hall, hnext, hfs, hlog⟩ := ih h₁
          have hready : ¬ Job.Ready id c.job := fun hr => hr.1 hun
          refine ⟨.cons ⟨c.pid, ?_⟩ hall, hnext, hfs, ?_⟩
          · simp [Client.job, hun]
          · rw [hlog, List.map_cons, List.filter_cons_of_neg (by simpa using hready)]
      · next hun =>
          dsimp only at h
          split at h
          · next herase =>
              have hready : Job.Ready id c.job := ⟨hun, herase⟩
              split at h
              · exact absurd h (by simp)
              · next g₁ c₁ hlaunch =>
                  obtain ⟨⟨pid, rfl⟩, hnext₁, hfs₁, hlog₁⟩ := projectLaunchClient_spec hlaunch
                  obtain ⟨⟨g₂, l₂⟩, h₂, he⟩ := Option.map_eq_some_iff.mp h
                  obtain ⟨rfl, rfl⟩ := Prod.mk.inj he
                  obtain ⟨hall, hnext, hfs, hlog⟩ := ih h₂
                  refine ⟨.cons ⟨pid, ?_⟩ hall, hnext.trans hnext₁, hfs.trans hfs₁, ?_⟩
                  · rw [if_pos hready]; rfl
                  · rw [hlog, hlog₁, List.map_cons,
                      List.filter_cons_of_pos (by simpa using hready), List.append_assoc]
                    rfl
          · next herase =>
              have hready : ¬ Job.Ready id c.job := fun hr => herase hr.2
              obtain ⟨⟨g₁, l₁⟩, h₁, he⟩ := Option.map_eq_some_iff.mp h
              obtain ⟨rfl, rfl⟩ := Prod.mk.inj he
              obtain ⟨hall, hnext, hfs, hlog⟩ := ih h₁
              refine ⟨.cons ⟨c.pid, ?_⟩ hall, hnext, hfs, ?_⟩
              · rw [if_neg hready]; rfl
              · rw [hlog, List.map_cons, List.filter_cons_of_neg (by simpa using hready)]

theorem projectGetClientById_isSome (l : List Client) (id : Uuid) :
    (projectGetClientById l id).isSome = decide (id ∈ (l.map Client.job).map Job.id) := by
  rw [projectGetClientById, Bool.eq_iff_iff, List.find?_isSome, decide_eq_true_iff, List.map_map,
    List.mem_map]
  simp [Client.job]

/-- The clients that depend on nobody in the project are launched. -/
theorem restoreClients_spec {p : Project} {g g' : Globals} {l l' : List Client}
    (h : restoreClients p g l = some (g', l')) :
    let ids := (p.lostClients.map Client.job).map Job.id
    List.Forall₂ (Job.Restored ids) (l.map Client.job) (l'.map Client.job)
      ∧ g'.nextAddr = g.nextAddr
      ∧ g'.log = g.log ++ launchEvents p.addr
          ((l.map Client.job).filter (fun c => c.saneDeps ids = [])) := by
  intro ids
  induction l generalizing g l' with
  | nil =>
      obtain ⟨rfl, rfl⟩ := Prod.mk.inj (Option.some.inj h)
      exact ⟨.nil, rfl, by simp [launchEvents]⟩
  | cons c l ih =>
      have hsane : (clientDependencyListSanityCheck p.lostClients c).dependencies
          = c.job.saneDeps ids := by
        unfold clientDependencyListSanityCheck Job.saneDeps
        simp only [projectGetClientById_isSome]
        rfl
      rw [restoreClients] at h
      split at h
      · next hun =>
          rw [clientDependencyInitUnsatisfied, hsane, ne_eq, List.reverse_eq_nil_iff] at hun
          obtain ⟨⟨g₁, l₁⟩, h₁, he⟩ := Option.map_eq_some_iff.mp h
          obtain ⟨rfl, rfl⟩ := Prod.mk.inj he
          obtain ⟨hall, hnext, hlog⟩ := ih h₁
          refine ⟨.cons ⟨c.pid, ?_⟩ hall, hnext, ?_⟩
          · rw [if_neg hun, ← hsane]; rfl
          · rw [hlog, List.map_cons, List.filter_cons_of_neg (by simpa using hun)]
      · next hun =>
          rw [clientDependencyInitUnsatisfied, hsane, ne_eq, List.reverse_eq_nil_iff,
            not_not] at hun
          split at h
          · exact absurd h (by simp)
          · next g₁ c₁ hlaunch =>
              obtain ⟨⟨pid, rfl⟩, hnext₁, _, hlog₁⟩ := projectLaunchClient_spec hlaunch
              obtain ⟨⟨g₂, l₂⟩, h₂, he⟩ := Option.map_eq_some_iff.mp h
              obtain ⟨rfl, rfl⟩ := Prod.mk.inj he
              obtain ⟨hall, hnext, hlog⟩ := ih h₂
              refine ⟨.cons ⟨pid, ?_⟩ hall, hnext.trans hnext₁, ?_⟩
              · rw [if_pos hun, ← hsane]; rfl
              · rw [hlog, hlog₁, List.map_cons,
                  List.filter_cons_of_pos (by simpa using hun), List.append_assoc]
                rfl

end Lash
