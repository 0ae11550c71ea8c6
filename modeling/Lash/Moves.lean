import Lash.Effects
import Lash.Lib.Runs

/-!
# The moves that the functions make

What each function that changes the tasks of a project amounts to in the protocol: the session
before and the session after are one `Move` apart.
-/

namespace Lash

/-- A session makes a move of the protocol and records its events. -/
def Session.Makes (s s' : Session) (loaded loaded' : Bool) (act : Act) : Prop :=
  ∃ evs, Move s.p.addr (s.p.view loaded) act evs (s'.p.view loaded') ∧ s.Steps s' evs

/-- Nothing that tasks depend on was changed. -/
theorem Session.Makes.quiet {s s' : Session} {l : Bool} (hv : s'.p.view l = s.p.view l)
    (hs : s.Steps s' []) : s.Makes s' l l .quiet := by
  refine ⟨[], ?_, hs⟩
  rw [hv]
  exact .quiet

/-- Something that tasks do not depend on, then a move. -/
theorem Session.Makes.after {s t u : Session} {l l' : Bool} {act : Act}
    (hv : t.p.view l = s.p.view l) (hs : s.Steps t []) (h : t.Makes u l l' act) :
    s.Makes u l l' act := by
  obtain ⟨evs, hmove, hsteps⟩ := h
  rw [hv, hs.addr] at hmove
  exact ⟨[] ++ evs, hmove, hs.trans hsteps⟩

theorem Project.mem_live {p : Project} {c : Client} (l : Bool) (h : c ∈ p.clients) :
    c.job ∈ (p.view l).live :=
  List.mem_map_of_mem h

theorem Project.mem_lost {p : Project} {c : Client} (l : Bool) (h : c ∈ p.lostClients) :
    c.job ∈ (p.view l).lost :=
  List.mem_map_of_mem h

namespace View

theorem Distinct.live {v : View} (h : v.Distinct) : (v.live.map Job.addr).Nodup := by
  unfold Distinct jobs at h
  rw [List.map_append] at h
  exact h.of_append_left

theorem Distinct.lost {v : View} (h : v.Distinct) : (v.lost.map Job.addr).Nodup := by
  unfold Distinct jobs at h
  rw [List.map_append] at h
  exact h.of_append_right

/-- A client is live or lost, not both. -/
theorem Distinct.ne {v : View} (h : v.Distinct) {c d : Job} (hc : c ∈ v.live) (hd : d ∈ v.lost) :
    c.addr ≠ d.addr := by
  unfold Distinct jobs at h
  rw [List.map_append, List.nodup_append] at h
  exact h.2.2 _ (List.mem_map_of_mem hc) _ (List.mem_map_of_mem hd)

theorem put_self {v : View} (h : v.Distinct) {c : Job} (hc : c ∈ v.live) : v.put c = v := by
  unfold put
  rw [Keyed.put_eq_self h.live hc]

/-- Writing back the client that heads the list. -/
theorem put_head {c d : Job} {l : List Job} (h : d.addr ∉ l.map Job.addr) (hd : d.addr = c.addr) :
    Keyed.put Job.addr d (c :: l) = d :: l := by
  have hrest := Keyed.put_of_not_mem h
  unfold Keyed.put at hrest ⊢
  rw [List.map_cons, hrest, if_pos hd.symm]

/-- Writing back a client that was just revived. -/
theorem revive_put {v : View} (h : v.Distinct) {x c d : Job} (hx : x ∈ v.lost)
    (hc : c.addr = x.addr) (hd : d.addr = c.addr) : (v.revive c).put d = v.revive d := by
  have hne : d.addr ∉ v.live.map Job.addr := by
    intro hm
    obtain ⟨y, hy, he⟩ := List.mem_map.mp hm
    exact h.ne hy hx (he.trans (hd.trans hc))
  unfold put revive
  rw [put_head hne hd, hd]

end View

/-! ## Launches -/

theorem launchEvents_project {a : Addr} {l : List Job} : ∀ e ∈ launchEvents a l, e.project = a := by
  intro e he
  obtain ⟨c, _, rfl⟩ := List.mem_map.mp he
  rfl

@[simp] theorem launchEvents_isTask (a : Addr) (l : List Job) :
    (launchEvents a l).filter Event.isTask = launchEvents a l := by
  rw [List.filter_eq_self]
  intro e he
  obtain ⟨c, _, rfl⟩ := List.mem_map.mp he
  rfl

/-- Launching some clients and nothing else. -/
theorem Session.Steps.launches {s s' : Session} {l : List Job} (haddr : s'.p.addr = s.p.addr)
    (hnext : s'.g.nextAddr = s.g.nextAddr) (hlog : s'.g.log = s.g.log ++ launchEvents s.p.addr l) :
    s.Steps s' (launchEvents s.p.addr l) := by
  have h := of_log_append _ haddr hnext hlog launchEvents_project
  rwa [launchEvents_isTask] at h

/-! ## Reports -/

theorem Client.job_clearTask (c : Client) : c.clearTask.job = c.job.done c.flags := rfl

/-- A client saved something: its store may have been written, and it may count as saved now. -/
theorem clientFinishTask_save {s s' : Session} {c c' : Client} (htype : c.taskType.isSave)
    (h : clientFinishTask s c true = some (s', c')) :
    ∃ fs flags, s' = s.setFs fs ∧ c'.job = { c.job with flags := flags } := by
  unfold clientFinishTask at h
  rw [if_pos rfl] at h
  split at h
  · split at h
    · exact absurd h (by simp)
    · obtain ⟨rfl, rfl⟩ := Prod.mk.inj (Option.some.inj h)
      exact ⟨_, _, rfl, rfl⟩
  · obtain ⟨rfl, rfl⟩ := Prod.mk.inj (Option.some.inj h)
    exact ⟨s.g.fs, _, rfl, rfl⟩
  all_goals next hty => rw [hty] at htype; exact absurd htype (by decide)

/-- A client loaded something: its dependants hear of it. -/
theorem clientFinishTask_restore {s s' : Session} {c c' : Client} (htype : c.taskType.isRestore)
    (h : clientFinishTask s c true = some (s', c')) :
    c' = c ∧ ∃ g lost, satisfyLost s.p c.id s.g s.p.lostClients = some (g, lost)
      ∧ s' = { g := g, p := { s.p with lostClients := lost } } := by
  unfold clientFinishTask at h
  rw [if_pos rfl] at h
  split at h
  · next hty => rw [hty] at htype; exact absurd htype (by decide)
  · next hty => rw [hty] at htype; exact absurd htype (by decide)
  · obtain ⟨u, hu, he⟩ := Option.map_eq_some_iff.mp h
    obtain ⟨⟨g, lost⟩, hsat, rfl⟩ := Option.map_eq_some_iff.mp hu
    obtain ⟨rfl, rfl⟩ := Prod.mk.inj he
    exact ⟨rfl, g, lost, hsat, rfl⟩
  · obtain ⟨u, hu, he⟩ := Option.map_eq_some_iff.mp h
    obtain ⟨⟨g, lost⟩, hsat, rfl⟩ := Option.map_eq_some_iff.mp hu
    obtain ⟨rfl, rfl⟩ := Prod.mk.inj he
    exact ⟨rfl, g, lost, hsat, rfl⟩
  · next hty => rw [hty] at htype; exact absurd htype (by decide)

/-- The end of `client_task_completed`. -/
theorem completed_view (s : Session) (c : Client) (l : Bool) :
    ((projectClientTaskCompleted s c).1.put (projectClientTaskCompleted s c).2.clearTask).p.view l
      = ((s.p.view l).put (c.job.done c.flags)).count := by
  have hjob := projectClientTaskCompleted_job s c
  have hflags : (projectClientTaskCompleted s c).2.flags = c.flags := congrArg Job.flags hjob
  show ((projectClientTaskCompleted s c).1.p.put _).view l = _
  rw [Project.view_put, projectClientTaskCompleted_view, Client.job_clearTask, hjob, hflags,
    ← View.count_put, View.put_put]
  rfl

theorem completed_steps (s : Session) (c : Client) (l : Bool) :
    ∃ modified, s.Steps
      ((projectClientTaskCompleted s c).1.put (projectClientTaskCompleted s c).2.clearTask)
      ((s.p.view l).countEvents s.p.addr s.p.name (s.p.infoWritable s.g.fs) modified
        c.taskType) := by
  obtain ⟨m, hm⟩ := projectClientTaskCompleted_steps s c l
  exact ⟨m, hm.then_nothing (.of_log_eq rfl rfl rfl)⟩

/-- A client that has a task reports the end of it. -/
theorem clientTaskCompleted_makes {s s' : Session} {c : Client} {ok : Bool} (l : Bool)
    (hc : c ∈ s.p.clients) (hp : c.pendingTask ≠ 0) (h : clientTaskCompleted s c ok = some s') :
    s.Makes s' l l (.complete c.job ok (reportWritable s c ok)) := by
  have hlive := Project.mem_live l hc
  unfold clientTaskCompleted at h
  dsimp only at h
  generalize he : s.emit (.taskCompleted s.p.addr c.addr c.pendingTask c.taskType ok) = t at h
  have ht : s.Steps t [.taskCompleted s.p.addr c.addr c.pendingTask c.taskType ok] := by
    subst he
    exact .of_emit (.taskCompleted s.p.addr c.addr c.pendingTask c.taskType ok) rfl rfl rfl rfl
  have htp : t.p = s.p := by rw [← he]; rfl
  split at h
  · next htype =>
      have hs' := Option.some.inj h
      refine ⟨_, ?_, ht.then_nothing (.of_log_eq ?_ ?_ ?_)⟩
      · have hv : s'.p.view l = (s.p.view l).put (c.job.done c.flags) := by
          rw [← hs', ← Client.job_clearTask, ← Project.view_put, ← htp]
          rfl
        rw [hv]
        exact .cleared hlive hp htype
      all_goals rw [← hs']; rfl
  · next htype =>
      obtain ⟨⟨u, d⟩, hfin, hs'⟩ := Option.map_eq_some_iff.mp h
      dsimp only at hs'
      -- what the completion makes of the client's own part
      have hdisk : finishDisk s c ok = u.g.fs := by
        unfold finishDisk
        rw [he, hfin]
      have hwritten : (s.p.view l).pending = 1 → c.taskType.isSave →
          s.p.infoWritable u.g.fs = reportWritable s c ok := by
        intro h1 h2
        have h1' : s.p.clientTasksPending = 1 := h1
        unfold reportWritable
        rw [hdisk]
        simp [h1', h2]
      obtain ⟨m, hm⟩ := completed_steps u d l
      have hview := completed_view u d l
      rw [hs'] at hm hview
      cases ok with
      | false =>
          obtain ⟨rfl, rfl⟩ := Prod.mk.inj (Option.some.inj hfin)
          rw [htp] at hm hview
          rw [View.countEvents_written _ _ _ _ _ hwritten] at hm
          refine ⟨_, ?_, ht.trans hm⟩
          rw [hview]
          exact .failed hlive hp htype
      | true =>
          by_cases hsave : c.taskType.isSave
          · obtain ⟨fs, flags, rfl, hd⟩ := clientFinishTask_save hsave hfin
            have hdone : d.job.done d.flags = c.job.done flags := by
              rw [show d.flags = d.job.flags from rfl, hd]
              rfl
            have hdtype : d.taskType = c.taskType := congrArg Job.taskType hd
            have hut : t.Steps (t.setFs fs) [] := .of_log_eq rfl rfl rfl
            rw [show (t.setFs fs).p = s.p from htp, hdtype,
              View.countEvents_written _ _ _ _ _ hwritten] at hm
            rw [show (t.setFs fs).p = s.p from htp, hdone] at hview
            refine ⟨_, ?_, ht.trans (hut.trans hm)⟩
            rw [hview]
            exact .saved hlive hp hsave
          · have hrestore : c.taskType.isRestore := by
              cases hty : c.taskType <;> simp_all [EventType.isSave, EventType.isRestore]
            obtain ⟨rfl, g, lost, hsat, rfl⟩ := clientFinishTask_restore hrestore hfin
            obtain ⟨hall, hnext, hfs, hlog⟩ := satisfyLost_spec hsat
            have hut : t.Steps { g := g, p := { t.p with lostClients := lost } }
                (launchEvents t.p.addr
                ((t.p.lostClients.map Client.job).filter (Job.Ready d.id))) :=
              .launches rfl hnext hlog
            have hm' := ht.trans (hut.trans hm)
            rw [htp] at hall hview hm'
            rw [View.countEvents_written _ (reportWritable s d true) _ _ _
              (fun _ hs => absurd hs hsave)] at hm'
            refine ⟨_, ?_, hm'⟩
            rw [hview]
            exact .restored hlive hp hrestore hall

theorem clientTaskProgressed_quiet {s : Session} {c : Client} (l : Bool) (n : Nat)
    (hd : (s.p.view l).Distinct) (hc : c ∈ s.p.clients) :
    s.Makes (projectClientProgress s c n).1 l l .quiet := by
  apply Session.Makes.quiet
  · rw [projectClientProgress_view, View.put_self hd (Project.mem_live l hc)]
  · exact projectClientProgress_steps s c n

/-! ## Clients that come and go -/

theorem projectNewClient_view {s s' : Session} {c : Client} {id : Uuid} (l : Bool)
    (hfresh : c.addr ∉ (s.p.view l).live.map Job.addr) (h : projectNewClient s c id = some s') :
    s'.p.view l = { s.p.view l with live := { c.job with id := id } :: (s.p.view l).live } := by
  have hprep := newClientPrepare_job s.p s.g.fs c id
  unfold projectNewClient at h
  generalize newClientPrepare s.p s.g.fs c id = r at h hprep
  obtain ⟨c₁, fs⟩ := r
  dsimp only at h hprep
  split at h
  · exact absurd h (by simp)
  · next d hd =>
      have hjob : d.job = { c.job with id := id } := by rw [projectNameClient_job hd, hprep]
      rw [← Option.some.inj h]
      show (projectSetModifiedStatus _ true).p.view l = _
      rw [projectSetModifiedStatus_view]
      show (Project.put _ d).view l = _
      rw [Project.view_put, hjob]
      unfold View.put Project.view
      dsimp only [Session.setFs]
      rw [List.map_cons, View.put_head hfresh (by rw [hprep]), ← hprep]

theorem projectNewClient_steps {s s' : Session} {c : Client} {id : Uuid}
    (h : projectNewClient s c id = some s') : s.Steps s' [] := by
  unfold projectNewClient at h
  generalize newClientPrepare s.p s.g.fs c id = r at h
  obtain ⟨c₁, fs⟩ := r
  dsimp only at h
  split at h
  · exact absurd h (by simp)
  · next d _ =>
      rw [← Option.some.inj h]
      generalize hu : Session.put _ d = u
      have hs : s.Steps u [] := by
        subst hu
        exact .of_log_eq rfl rfl rfl
      exact (hs.then_nothing (projectSetModifiedStatus_true u)).then_nothing (.emit_other _ rfl rfl)

/-- A client that is in no list yet joins the project. -/
theorem projectNewClient_makes {s s' : Session} {c : Client} {id : Uuid} {name : CStr} (l : Bool)
    (hfresh : c.addr ∉ (s.p.view l).jobs.map Job.addr) (hidle : c.job.Idle)
    (hnew : l = false → s.p.taskType = .idle ∧ s.p.clientTasksPending = 0)
    (hdeps : c.dependencies = [] ∧ c.unsatisfiedDeps = []) (hname : c.dbusName = some name)
    (h : projectNewClient (s.emit (.connected s.p.addr c.addr name)) c id = some s') :
    s.Makes s' l true (.join { c.job with id := id }) := by
  have hlive : c.addr ∉ (s.p.view true).live.map Job.addr := by
    intro hm
    apply hfresh
    rw [View.jobs, List.map_append]
    exact List.mem_append_left _ hm
  have hview := projectNewClient_view (s := s.emit (.connected s.p.addr c.addr name)) true hlive h
  have hs : s.Steps (s.emit (.connected s.p.addr c.addr name)) [.connected s.p.addr c.addr name] :=
    .of_emit (.connected s.p.addr c.addr name) rfl rfl rfl rfl
  refine ⟨_, ?_, hs.then_nothing (projectNewClient_steps h)⟩
  rw [hview]
  exact Move.join (v := s.p.view l) (c := { c.job with id := id }) hfresh ⟨hidle.1, hidle.2⟩ hnew
    hdeps hname

theorem projectLoseClient_view (s : Session) (c : Client) (l : Bool) :
    (projectLoseClient s c).p.view l
      = { s.p.view l with lost := { c.job with pid := 0 } :: (s.p.view l).lost } := by
  have hjob : { (loseStore s.g.fs c).1.job with pid := 0 } = { c.job with pid := 0 } := by
    rw [loseStore_job]
  show (projectSetModifiedStatus _ true).p.view l = _
  rw [projectSetModifiedStatus_view, ← hjob]
  rfl

theorem projectLoseClient_steps (s : Session) (c : Client) :
    s.Steps (projectLoseClient s c) [.lost s.p.addr c.addr] := by
  unfold projectLoseClient
  dsimp only
  generalize hu : Session.setFs _ _ = u
  have hs : s.Steps u [.lost s.p.addr c.addr] := by
    subst hu
    exact .of_emit (.lost s.p.addr c.addr) rfl rfl rfl rfl
  have hm := projectSetModifiedStatus_true u
  exact (hs.then_nothing hm).then_nothing (.emit_other _ rfl rfl)

/-- A live client is lost. -/
theorem clientDisconnected_makes {s : Session} {c : Client} (l : Bool) (hc : c ∈ s.p.clients) :
    s.Makes (clientDisconnected s c) l l (.leave c.job) := by
  unfold clientDisconnected
  generalize hu : Session.mk _ _ = u
  have hs : s.Steps u [] := by
    subst hu
    exact .of_log_eq rfl rfl rfl
  have hview : u.p.view l = (s.p.view l).drop c.job := by
    subst hu
    simp only [Project.view, View.drop, map_job_del]
    rfl
  have hlose := projectLoseClient_steps u c
  rw [hs.addr] at hlose
  refine ⟨_, ?_, hs.trans hlose⟩
  rw [projectLoseClient_view, hview]
  exact .leave (Project.mem_live l hc)

/-! ## Clients that are back -/

@[simp] theorem resumePrepare_job (s : Session) (c : Client) :
    (resumePrepare s c).2.job = c.job := by
  unfold resumePrepare
  dsimp only
  split <;> rfl

theorem resumePrepare_view (s : Session) (c : Client) (l : Bool) :
    (resumePrepare s c).1.p.view l
      = { s.p.view l with lost := Keyed.del Job.addr c.addr (s.p.view l).lost } := by
  have haddr : (resumePrepare s c).2.addr = c.addr := congrArg Job.addr (resumePrepare_job s c)
  unfold resumePrepare at haddr ⊢
  dsimp only at haddr ⊢
  rw [haddr]
  unfold Project.view
  dsimp only
  rw [map_job_del]
  rfl

theorem resumePrepare_steps (s : Session) (c : Client) :
    s.Steps (resumePrepare s c).1 [.resumed s.p.addr c.addr] :=
  .of_emit (.resumed s.p.addr c.addr) rfl rfl rfl rfl

theorem projectLoadDataSet_spec {s s' : Session} {c c' : Client}
    (h : projectLoadDataSet s c = some (s', c')) :
    s'.p = s.p ∧
      ((dataSetSends s c = true ∧ ∃ task configs, task ≠ 0 ∧
          c'.job = c.job.give task .restoreDataSet ∧
          s.Steps s' [.loadDataSet s.p.addr c.addr (c.dbusName.getD []) task configs]) ∨
        (dataSetSends s c = false ∧ c'.job = c.job ∧ s.Steps s' [])) := by
  have hjob := clientStoreOpen_job s.g.fs c (projectGetClientConfigDir s.p c)
  unfold projectLoadDataSet at h
  unfold dataSetSends
  generalize clientStoreOpen s.g.fs c (projectGetClientConfigDir s.p c) = r at h hjob ⊢
  obtain ⟨ok, d, fs⟩ := r
  dsimp only at h hjob ⊢
  have haddr : d.addr = c.addr := congrArg Job.addr hjob
  have hdbus : d.dbusName = c.dbusName := congrArg Job.dbusName hjob
  cases hst : d.store with
  | none =>
      rw [hst] at h
      exact absurd h (by simp)
  | some st =>
      rw [hst] at h
      dsimp only at h ⊢
      split at h
      · -- the store does not open
        next hok =>
          obtain ⟨rfl, rfl⟩ := Prod.mk.inj (Option.some.inj h)
          exact ⟨rfl, Or.inr ⟨by simp [hok], hjob, .of_log_eq rfl rfl rfl⟩⟩
      · next hok =>
          split at h
          · -- it is empty
            next hkeys =>
              obtain ⟨rfl, rfl⟩ := Prod.mk.inj (Option.some.inj h)
              exact ⟨rfl, Or.inr ⟨by simp [hkeys], hjob, .of_log_eq rfl rfl rfl⟩⟩
          · next hkeys =>
              split at h
              · exact absurd h (by simp)
              · -- the bus does not accept an entry
                next harr =>
                  obtain ⟨rfl, rfl⟩ := Prod.mk.inj (Option.some.inj h)
                  exact ⟨rfl, Or.inr ⟨by simp [harr], hjob, .of_log_eq rfl rfl rfl⟩⟩
              · next configs harr =>
                  obtain ⟨rfl, rfl⟩ := Prod.mk.inj (Option.some.inj h)
                  refine ⟨rfl, Or.inl ⟨?_, s.g.taskIter + 1, configs, Nat.succ_ne_zero _, ?_, ?_⟩⟩
                  · rw [not_not] at hok
                    simp [hok, hkeys, harr]
                  · rw [← hjob]; rfl
                  · rw [← haddr, ← hdbus]
                    exact .of_emit (.loadDataSet s.p.addr d.addr (d.dbusName.getD [])
                      (s.g.taskIter + 1) configs) rfl rfl rfl rfl

/-- What is done for a client that is back, by the answer it gets. -/
theorem resumeLoad_spec {s s' : Session} {c c' : Client} {stateless : Bool}
    (h : resumeLoad s c = some (s', c', stateless)) :
    s'.p = s.p ∧
      match loadAnswer s c with
      | .sent => stateless = false ∧ ∃ task type e, task ≠ 0 ∧
          Sent s.p.addr c.job (c.dbusName.getD []) task type e ∧
          c'.job = c.job.give task type ∧ s.Steps s' [e]
      | .silent => stateless = false ∧ c'.job = c.job ∧ s.Steps s' []
      | .stateless => stateless = true ∧ c'.job = c.job ∧ s.Steps s' [] := by
  unfold resumeLoad at h
  unfold loadAnswer
  have hnothing : some (s, c, true) = some (s', c', stateless) →
      s'.p = s.p ∧ stateless = true ∧ c'.job = c.job ∧ s.Steps s' [] := by
    intro he
    simp only [Option.some.injEq, Prod.mk.injEq] at he
    obtain ⟨rfl, rfl, rfl⟩ := he
    exact ⟨rfl, rfl, rfl, .of_log_eq rfl rfl rfl⟩
  by_cases hsaved : isSaved c.flags
  · rw [if_pos hsaved] at h ⊢
    by_cases hfile : configFile c.flags
    · rw [if_pos hfile] at h ⊢
      simp only [Option.some.injEq, Prod.mk.injEq] at h
      obtain ⟨rfl, rfl, rfl⟩ := h
      refine ⟨rfl, rfl, s.g.taskIter + 1, _, _, Nat.succ_ne_zero _, .load (c.dataPath.getD []),
        rfl, ?_⟩
      exact .of_emit (.load s.p.addr c.addr (c.dbusName.getD []) (s.g.taskIter + 1)
        (c.dataPath.getD [])) rfl rfl rfl rfl
    · rw [if_neg hfile] at h ⊢
      by_cases hset : configDataSet c.flags
      · rw [if_pos hset] at h ⊢
        obtain ⟨⟨t, d⟩, hload, he⟩ := Option.map_eq_some_iff.mp h
        simp only [Prod.mk.injEq] at he
        obtain ⟨rfl, rfl, rfl⟩ := he
        obtain ⟨hp, hrest⟩ := projectLoadDataSet_spec hload
        refine ⟨hp, ?_⟩
        rcases hrest with ⟨hsends, task, configs, ht, hjob, hs⟩ | ⟨hsends, hjob, hs⟩
        · rw [hsends]
          exact ⟨rfl, task, _, _, ht, .loadDataSet configs, hjob, hs⟩
        · rw [hsends]
          exact ⟨rfl, hjob, hs⟩
      · rw [if_neg hset] at h ⊢
        exact hnothing h
  · rw [if_neg hsaved] at h ⊢
    exact hnothing h

theorem resumeStateless_view (s : Session) (c : Client) (l : Bool) :
    (resumeStateless s c).p.view l
      = ((s.p.view l).put { c.job with taskType := .unknown }).count := by
  unfold resumeStateless
  dsimp only
  generalize hd : ({ c with taskType := .restoreDataSet } : Client) = d
  have hjob : { d.job with taskType := .unknown } = { c.job with taskType := .unknown } := by
    subst hd
    rfl
  have haddr : ({ c.job with taskType := .unknown } : Job).addr = d.job.addr := by
    subst hd
    rfl
  have hcomp := projectClientTaskCompleted_job (s.put d) d
  show (Project.put _
    { (projectClientTaskCompleted (s.put d) d).2 with taskType := .unknown }).view l = _
  have hlast : Client.job
      { (projectClientTaskCompleted (s.put d) d).2 with taskType := .unknown }
      = { c.job with taskType := .unknown } := by
    rw [← hjob, ← hcomp]
    rfl
  have hput : (s.put d).p.view l = (s.p.view l).put d.job := Project.view_put s.p d l
  rw [Project.view_put, projectClientTaskCompleted_view, hlast, hput, ← View.count_put,
    View.put_put _ haddr, View.put_put _ haddr]

theorem resumeStateless_steps (s : Session) (c : Client) (l : Bool) :
    ∃ written modified, s.Steps (resumeStateless s c)
      ((s.p.view l).countEvents s.p.addr s.p.name written modified .restoreDataSet) := by
  unfold resumeStateless
  dsimp only
  generalize hd : ({ c with taskType := .restoreDataSet } : Client) = d
  have htype : d.taskType = .restoreDataSet := by
    subst hd
    rfl
  obtain ⟨m, hm⟩ := projectClientTaskCompleted_steps (s.put d) d l
  have hs : s.Steps (s.put d) [] := .of_log_eq rfl rfl rfl
  rw [htype] at hm
  exact ⟨_, m, hs.trans (hm.then_nothing (.of_log_eq rfl rfl rfl))⟩

/-- A lost client connected again. -/
theorem clientResumeProject_makes {s s' : Session} {c : Client} {sender : CStr} (l : Bool)
    (hd : (s.p.view l).Distinct) (hc : c ∈ s.p.lostClients) (hpid : c.pid ≠ 0)
    (h : clientResumeProject (s.emit (.connected s.p.addr c.addr sender)) (c.reconnect sender)
      = some s') :
    s.Makes s' l l (.resume c.job
      (resumeAnswer (s.emit (.connected s.p.addr c.addr sender)) (c.reconnect sender))) := by
  have hlost := Project.mem_lost l hc
  have hstart : s.Steps (s.emit (.connected s.p.addr c.addr sender))
      [.connected s.p.addr c.addr sender] :=
    .of_emit (.connected s.p.addr c.addr sender) rfl rfl rfl rfl
  generalize he : s.emit (.connected s.p.addr c.addr sender) = t at h hstart ⊢
  have htp : t.p = s.p := by rw [← he]; rfl
  generalize hx : c.reconnect sender = x at h ⊢
  have hxjob : x.job = c.job.reconnect sender := by rw [← hx]; rfl
  have hview := resumePrepare_view t x l
  have hjob := resumePrepare_job t x
  have hprep := hstart.trans (resumePrepare_steps t x)
  unfold clientResumeProject at h
  unfold resumeAnswer
  generalize resumePrepare t x = r at h hview hjob hprep ⊢
  obtain ⟨u, d⟩ := r
  dsimp only at h hview hjob hprep ⊢
  have haddr : u.p.addr = s.p.addr := hprep.addr
  have hdaddr : d.addr = c.addr := congrArg Job.addr (hjob.trans hxjob)
  have hdbus : d.dbusName.getD [] = sender := by
    rw [show d.dbusName = some sender from congrArg Job.dbusName (hjob.trans hxjob)]
    rfl
  have hxaddr : x.addr = c.addr := congrArg Job.addr hxjob
  rw [htp, hxaddr] at hview hprep
  split at h
  · exact absurd h (by simp)
  · next w e stateless hload =>
      obtain ⟨hp, hanswer⟩ := resumeLoad_spec hload
      split at h
      · exact absurd h (by simp)
      · next f hname =>
          have hfjob := nameIfUnnamed_job hname
          generalize hS : Session.emit (Session.put _ f) _ = S at h
          -- the client is the first of the live ones, whatever it was given
          have hSview : e.job.addr = c.job.addr →
              S.p.view l = (s.p.view l).revive e.job := by
            intro hea
            have hne : f.job.addr ∉ (s.p.view l).live.map Job.addr := by
              intro hm
              obtain ⟨y, hy, hye⟩ := List.mem_map.mp hm
              exact hd.ne hy hlost (hye.trans (hfjob ▸ hea))
            have hup : u.p.view l = { s.p.view l with
                lost := Keyed.del Job.addr c.job.addr (s.p.view l).lost } := by
              rw [hview]
              rfl
            have hput : S.p.view l
                = { u.p.view l with live := e.job :: (u.p.view l).live }.put f.job := by
              rw [← hS, ← hp]
              exact Project.view_put _ f l
            rw [hput, hup, View.put, View.put_head hne (by rw [hfjob]), View.revive, hfjob, hea]
          have hSsteps : w.Steps S [] := by
            have hput : w.Steps ({ w with p := { w.p with clients := e :: w.p.clients } }.put f)
                [] :=
              .of_log_eq rfl rfl rfl
            rw [← hS]
            exact hput.then_nothing (.emit_other _ rfl rfl)
          have hSaddr : S.p.addr = s.p.addr := by rw [hSsteps.addr, hp, haddr]
          cases hans : loadAnswer u d with
          | sent =>
              rw [hans] at hanswer
              obtain ⟨rfl, task, type, ev, ht, hsent, hejob, hw⟩ := hanswer
              rw [haddr, hdbus] at hsent
              have hejob' : e.job = (c.job.reconnect sender).give task type := by
                rw [hejob, hjob, hxjob]
              rw [if_neg (by simp), Option.some.injEq] at h
              subst h
              refine ⟨_, ?_, (hprep.trans hw).then_nothing hSsteps⟩
              rw [hSview (by rw [hejob']; rfl), hejob']
              refine .sent hlost hpid ht ?_
              have hdjob : d.job.addr = c.job.addr := hdaddr
              cases hsent with
              | load path => rw [hdjob]; exact .load path
              | loadDataSet configs => rw [hdjob]; exact .loadDataSet configs
          | silent =>
              rw [hans] at hanswer
              obtain ⟨rfl, hejob, hw⟩ := hanswer
              have hejob' : e.job = c.job.reconnect sender := by rw [hejob, hjob, hxjob]
              rw [if_neg (by simp), Option.some.injEq] at h
              subst h
              refine ⟨_, ?_, (hprep.then_nothing hw).then_nothing hSsteps⟩
              rw [hSview (by rw [hejob']; rfl), hejob']
              exact .silent hlost hpid
          | stateless =>
              rw [hans] at hanswer
              obtain ⟨rfl, hejob, hw⟩ := hanswer
              have hejob' : e.job = c.job.reconnect sender := by rw [hejob, hjob, hxjob]
              rw [if_pos rfl, Option.some.injEq] at h
              subst h
              obtain ⟨written, m, hm⟩ := resumeStateless_steps S f l
              refine ⟨_, ?_, ((hprep.then_nothing hw).then_nothing hSsteps).trans hm⟩
              have hSv := hSview (by rw [hejob']; rfl)
              rw [hSaddr, hSv]
              rw [resumeStateless_view, hSv, hfjob, hejob',
                View.revive_put hd hlost (by rfl) (by rfl)]
              exact .stateless hlost hpid

/-! ## Saving -/

/-- The clients with an internal state, in the project and in its view. -/
theorem stateful_map_job (p : Project) (l : Bool) :
    p.stateful.map Client.job = (p.view l).live.filter Job.hasState := by
  unfold Project.stateful Project.view
  rw [List.filter_map]
  rfl

theorem projectSaveNotes_p (s : Session) : (projectSaveNotes s).2.p = s.p := by
  unfold projectSaveNotes
  dsimp only
  split
  · rfl
  · split <;> rfl

theorem projectSaveNotes_steps (s : Session) : s.Steps (projectSaveNotes s).2 [] := by
  unfold projectSaveNotes
  dsimp only
  split
  · exact .of_log_eq rfl rfl rfl
  · split <;> exact .of_log_eq rfl rfl rfl

/-- `project_save` up to `project_save_clients`. -/
theorem saveBegun_steps (s : Session) (fs : Fs) (l : Bool) :
    s.Steps (((s.emit (.saveBegun s.p.addr (s.p.stateful.map Client.addr))).emit
      (.progress s.p.addr 0)).setFs fs) [beginEvent s.p.addr (s.p.view l)] := by
  have hids : s.p.stateful.map Client.addr
      = ((s.p.view l).live.filter Job.hasState).map Job.addr := by
    rw [← stateful_map_job, List.map_map]
    rfl
  have he : s.Steps (s.emit (.saveBegun s.p.addr (s.p.stateful.map Client.addr)))
      [beginEvent s.p.addr (s.p.view l)] := by
    rw [beginEvent, ← hids]
    exact .of_emit (.saveBegun s.p.addr (s.p.stateful.map Client.addr)) rfl rfl rfl rfl
  have hp := Session.Steps.emit_other (s.emit (.saveBegun s.p.addr (s.p.stateful.map Client.addr)))
    (e := .progress s.p.addr 0) rfl rfl
  exact (he.then_nothing hp).then_nothing (.of_log_eq rfl rfl rfl)

/-- The end of `projectSaveStart`: notes are written and the lost clients are forgotten. -/
theorem saveRest_spec (s : Session) (l : Bool) :
    let t := projectClearLostClients (projectSaveNotes s).2
    t.p.view l = { s.p.view l with lost := [] } ∧ t.p.clientTasksTotal = s.p.clientTasksTotal ∧
      t.p.name = s.p.name ∧ s.Steps t [] := by
  have hp := projectSaveNotes_p s
  have hs := projectSaveNotes_steps s
  generalize (projectSaveNotes s).2 = u at hp hs
  intro t
  have hut : u.Steps t [] := .of_log_eq rfl rfl rfl
  refine ⟨?_, ?_, ?_, hs.then_nothing hut⟩
  · rw [← hp]; rfl
  · rw [← hp]; rfl
  · rw [← hp]; rfl

theorem projectSaveStart_skipped {s : Session} (l : Bool)
    (h : ∃ c ∈ s.p.clients, c.pendingTask ≠ 0) :
    (projectSaveStart s).p.view l = { s.p.view l with lost := [] } ∧
      (projectSaveStart s).p.clientTasksTotal = s.p.clientTasksTotal ∧
      (projectSaveStart s).p.name = s.p.name ∧
      s.Steps (projectSaveStart s) [beginEvent s.p.addr (s.p.view l)] := by
  unfold projectSaveStart
  dsimp only
  generalize hu : Session.setFs _ _ = u
  have hs : s.Steps u [beginEvent s.p.addr (s.p.view l)] := by
    rw [← hu]
    exact saveBegun_steps s _ l
  have hp : u.p = s.p := by rw [← hu]; rfl
  have hsave : projectSaveClients u = u := by
    unfold projectSaveClients
    rw [hp, if_pos]
    obtain ⟨c, hc, hpend⟩ := h
    exact List.any_eq_true.mpr ⟨c, hc, by simpa using hpend⟩
  rw [hsave]
  obtain ⟨hview, htotal, hname, hrest⟩ := saveRest_spec u l
  rw [hp] at hview htotal hname
  exact ⟨hview, htotal, hname, hs.then_nothing hrest⟩

theorem Client.job_ask (task : Nat) (c : Client) : (c.ask task).job = c.job.ask task := by
  unfold Client.ask Job.ask
  rw [apply_ite Client.job]
  rfl

/-- All clients with an internal state are asked. -/
theorem projectSaveClients_asked {s : Session} (l : Bool)
    (h : ∀ c ∈ s.p.clients, c.pendingTask = 0) :
    ∃ task, task ≠ 0 ∧ (projectSaveClients s).p.view l
        = { (s.p.view l).ask task with lost := (s.p.view l).lost } ∧
      (projectSaveClients s).p.clientTasksTotal = ((s.p.view l).live.filter Job.hasState).length ∧
      (projectSaveClients s).p.name = s.p.name ∧
      s.Steps (projectSaveClients s) (askEvents s.p.addr s.p.name task (s.p.view l)) := by
  refine ⟨s.g.taskIter + 1, Nat.succ_ne_zero _, ?_⟩
  have hlen : s.p.stateful.length = ((s.p.view l).live.filter Job.hasState).length := by
    rw [← stateful_map_job, List.length_map]
  have hany : ¬ s.p.clients.any (fun c => c.pendingTask ≠ 0) = true := by
    rw [List.any_eq_true]
    rintro ⟨c, hc, hp⟩
    simp [h c hc] at hp
  have hasked : ∀ t, (s.p.clients.map (Client.ask t)).map Client.job
      = (s.p.view l).live.map (Job.ask t) := by
    intro t
    rw [List.map_map, Project.view, List.map_map]
    exact List.map_congr_left (fun c _ => Client.job_ask t c)
  have hgiven : askEvents s.p.addr s.p.name (s.g.taskIter + 1) (s.p.view l)
      = .save s.p.addr s.p.name (s.g.taskIter + 1)
        :: s.p.stateful.map (fun c => .taskGiven s.p.addr c.addr (s.g.taskIter + 1)) := by
    rw [askEvents, ← stateful_map_job, List.map_map]
    rfl
  unfold projectSaveClients
  rw [if_neg hany]
  refine ⟨?_, hlen, rfl, ?_⟩
  · unfold View.ask
    dsimp only
    rw [← hlen, ← hasked]
    rfl
  · have hall : (askEvents s.p.addr s.p.name (s.g.taskIter + 1) (s.p.view l)).filter Event.isTask
        = askEvents s.p.addr s.p.name (s.g.taskIter + 1) (s.p.view l) := by
      rw [hgiven, List.filter_eq_self]
      intro e he
      rcases List.mem_cons.mp he with rfl | he
      · rfl
      · obtain ⟨c, _, rfl⟩ := List.mem_map.mp he
        rfl
    rw [← hall]
    apply Session.Steps.of_log_append
    · rfl
    · rfl
    · rw [hgiven]
      exact List.append_assoc _ _ _
    · rw [hgiven]
      intro e he
      rcases List.mem_cons.mp he with rfl | he
      · rfl
      · obtain ⟨c, _, rfl⟩ := List.mem_map.mp he
        rfl

theorem projectSaveStart_asked {s : Session} (l : Bool) (h : ∀ c ∈ s.p.clients, c.pendingTask = 0) :
    ∃ task, task ≠ 0 ∧ (projectSaveStart s).p.view l = (s.p.view l).ask task ∧
      (projectSaveStart s).p.clientTasksTotal = ((s.p.view l).live.filter Job.hasState).length ∧
      (projectSaveStart s).p.name = s.p.name ∧
      s.Steps (projectSaveStart s)
        (beginEvent s.p.addr (s.p.view l) :: askEvents s.p.addr s.p.name task (s.p.view l)) := by
  unfold projectSaveStart
  dsimp only
  generalize hu : Session.setFs _ _ = u
  have hs : s.Steps u [beginEvent s.p.addr (s.p.view l)] := by
    rw [← hu]
    exact saveBegun_steps s _ l
  have hp : u.p = s.p := by rw [← hu]; rfl
  obtain ⟨task, ht, hview, htotal, hname, hask⟩ := projectSaveClients_asked (s := u) l (by rwa [hp])
  rw [hp] at hview htotal hname hask
  obtain ⟨hview', htotal', hname', hrest⟩ := saveRest_spec (projectSaveClients u) l
  refine ⟨task, ht, ?_, htotal'.trans htotal, hname'.trans hname, ?_⟩
  · rw [hview', hview]; rfl
  · exact (hs.trans hask).then_nothing hrest

/-- A save begins. -/
theorem projectSave_makes {s : Session} (l : Bool) (htask : s.p.taskType = .idle) :
    ∃ asked, s.Makes (projectSave s) l l (.save asked (saveWritable s)) := by
  have hidle : (s.p.view l).task = .idle := htask
  have hwritten : (projectSaveStart s).p.clientTasksTotal = 0 → saveWritable s
      = (projectSaveStart s).p.infoWritable (projectSaveStart s).g.fs := by
    intro h
    unfold saveWritable
    simp [htask, h]
  unfold projectSave
  rw [if_neg (not_not.mpr htask)]
  dsimp only
  by_cases hpend : ∃ c ∈ s.p.clients, c.pendingTask ≠ 0
  · obtain ⟨hview, _, hname, hs⟩ := projectSaveStart_skipped l hpend
    obtain ⟨c, hc, hcp⟩ := hpend
    refine ⟨false, ?_⟩
    have hmove : ∀ evs, _ → Move s.p.addr (s.p.view l) (.save false (saveWritable s))
        (beginEvent s.p.addr (s.p.view l) :: evs) { s.p.view l with lost := [] } :=
      fun evs hevs => .skipped hidle (Project.mem_live l hc) hcp hevs
    split
    · next htotal =>
        obtain ⟨m, hm⟩ := projectClientsSaveComplete_steps (projectSaveStart s)
        rw [hs.addr, ← hwritten htotal] at hm
        refine ⟨_, ?_, hs.trans hm⟩
        rw [projectClientsSaveComplete_view, hview]
        exact hmove _ (Or.inr ⟨_, m, rfl⟩)
    · refine ⟨_, ?_, hs⟩
      rw [hview]
      exact hmove [] (Or.inl rfl)
  · have hnone : ∀ c ∈ s.p.clients, c.pendingTask = 0 := by
      intro c hc
      by_contra hne
      exact hpend ⟨c, hc, hne⟩
    obtain ⟨task, ht, hview, htotal, hname, hs⟩ := projectSaveStart_asked l hnone
    have hjobs : ∀ c ∈ (s.p.view l).live, c.pendingTask = 0 := by
      intro c hc
      obtain ⟨x, hx, rfl⟩ := List.mem_map.mp hc
      exact hnone x hx
    refine ⟨true, ?_⟩
    split
    · next h0 =>
        obtain ⟨m, hm⟩ := projectClientsSaveComplete_steps (projectSaveStart s)
        rw [hs.addr, ← hwritten h0] at hm
        refine ⟨_, ?_, hs.trans hm⟩
        rw [projectClientsSaveComplete_view, hview]
        refine .asked hidle hjobs ht (Or.inr ⟨?_, m, ?_⟩)
        · rw [htotal, List.length_eq_zero_iff, List.filter_eq_nil_iff] at h0
          exact h0
        · rw [hname]
    · next h0 =>
        refine ⟨_, ?_, hs⟩
        rw [hview, ← List.append_nil (askEvents _ _ _ _)]
        refine .asked hidle hjobs ht (Or.inl ⟨?_, rfl⟩)
        rw [htotal, List.length_eq_zero_iff, List.filter_eq_nil_iff] at h0
        simpa using h0

/-! ## Moving, renaming and unloading -/

theorem moveProject_view (s : Session) (newDir : CStr) (l : Bool) :
    (moveProject s newDir).p.view l = s.p.view l := by
  unfold moveProject
  have hclose := closeStores_map_job s.g.fs s.p.clients
  generalize closeStores s.g.fs s.p.clients = r at hclose ⊢
  obtain ⟨cs, fs⟩ := r
  dsimp only
  split
  · show Project.view { s.p with clients := cs } l = _
    simp only [Project.view, hclose]
  · next hren =>
      have hopen := openStores_map_job { s.p with directory := newDir }
        (fs.rename s.p.directory newDir).2 cs
      show Project.view { s.p with
        directory := newDir
        clients := (openStores { s.p with directory := newDir }
          (fs.rename s.p.directory newDir).2 cs).1 } l = _
      simp only [Project.view, hopen, hclose]

theorem projectMove_view (s : Session) (newDir : CStr) (l : Bool) :
    (projectMove s newDir).p.view l = s.p.view l := by
  rcases projectMove_cases s newDir with ⟨-, h | h⟩ | ⟨-, h⟩
  · rw [h]
  · rw [h]
    rfl
  · rw [h, moveProject_view]
    rfl

theorem moveProject_steps (s : Session) (newDir : CStr) : s.Steps (moveProject s newDir) [] := by
  unfold moveProject
  dsimp only
  split
  · exact .of_log_eq rfl rfl rfl
  · exact .of_emit (.projectPathChanged s.p.addr s.p.name newDir) rfl rfl rfl rfl

theorem projectMove_steps (s : Session) (newDir : CStr) : s.Steps (projectMove s newDir) [] := by
  have hnext : s.Steps (s.setFs s.g.fs.next) [] := .of_log_eq rfl rfl rfl
  rcases projectMove_cases s newDir with ⟨-, h | h⟩ | ⟨-, h⟩
  · rw [h]
    exact .of_log_eq rfl rfl rfl
  · rwa [h]
  · rw [h]
    exact hnext.then_nothing (moveProject_steps _ newDir)

/-- A change of the project that its users are told of. -/
theorem modified_quiet {s : Session} (l : Bool) (p : Project) (e : Event)
    (haddr : p.addr = s.p.addr)
    (hview : p.view l = s.p.view l) (he : e.project = s.p.addr) (htask : e.isTask = false) :
    s.Makes (projectSetModifiedStatus ({ s with p := p }.emit e) true) l l .quiet := by
  apply Session.Makes.quiet
  · rw [projectSetModifiedStatus_view]
    exact hview
  · have hp : s.Steps { s with p := p } [] := .of_log_eq haddr rfl rfl
    have hemit := Session.Steps.emit_other { s with p := p } (he.trans haddr.symm) htask
    exact (hp.then_nothing hemit).then_nothing (projectSetModifiedStatus_true _)

theorem projectRename_makes (s : Session) (newName : CStr) (l : Bool) :
    s.Makes (projectRename s newName) l l .quiet :=
  modified_quiet l _ (.projectNameChanged s.p.addr s.p.name newName) rfl rfl rfl rfl

theorem projectSetDescription_makes (s : Session) (d : CStr) (l : Bool) :
    s.Makes (projectSetDescription s d) l l .quiet :=
  modified_quiet l _ (.projectDescriptionChanged s.p.addr s.p.name d) rfl rfl rfl rfl

theorem projectSetNotes_makes (s : Session) (n : CStr) (l : Bool) :
    s.Makes (projectSetNotes s n) l l .quiet :=
  modified_quiet l _ (.projectNotesChanged s.p.addr s.p.name n) rfl rfl rfl rfl

theorem unloadMove_steps (s : Session) : s.Steps (unloadMove s) [] := by
  unfold unloadMove
  split
  · exact projectMove_steps s _
  · exact .of_log_eq rfl rfl rfl

theorem unloadMove_view (s : Session) (l : Bool) : (unloadMove s).p.view l = s.p.view l := by
  unfold unloadMove
  split
  · exact projectMove_view s _ l
  · rfl

theorem unloadRemove_steps (s : Session) : s.Steps (unloadRemove s) [] := by
  unfold unloadRemove
  split <;> exact .of_log_eq rfl rfl rfl

theorem unloadRemove_view (s : Session) (l : Bool) : (unloadRemove s).p.view l = s.p.view l := by
  unfold unloadRemove
  split <;> rfl

/-- A project is unloaded. -/
theorem projectUnload_makes (s : Session) (l : Bool) :
    s.Makes (projectUnload s) l false .close := by
  have hs : s.Steps { s.emit (.quit s.p.addr s.p.name) with
      p := { s.p with clients := [], lostClients := [] } } [] :=
    (Session.Steps.emit_other s (e := .quit s.p.addr s.p.name) rfl rfl).then_nothing
      (.of_log_eq rfl rfl rfl)
  refine ⟨[], ?_, (hs.then_nothing (unloadMove_steps _)).then_nothing (unloadRemove_steps _)⟩
  unfold projectUnload
  rw [unloadRemove_view, unloadMove_view]
  exact .close

/-! ## Loading -/

/-- A client as `client_parse_xml` leaves it, apart from what the file says. -/
structure Client.Blank (c : Client) (addr : Addr) : Prop where
  addr : c.addr = addr
  pid : c.pid = 0
  pendingTask : c.pendingTask = 0
  taskType : c.taskType = .unknown

theorem clientNew_blank (addr : Addr) : (clientNew addr).Blank addr := ⟨rfl, rfl, rfl, rfl⟩

theorem clientDependencyAdd_blank {l : List Client} {c c' : Client} {id : Uuid} {addr : Addr}
    (hc : c.Blank addr) (h : clientDependencyAdd l c id = some c') : c'.Blank addr := by
  unfold clientDependencyAdd at h
  split at h
  · rwa [← Option.some.inj h]
  · split at h
    · exact absurd h (by simp)
    · rwa [← Option.some.inj h]
    · rw [← Option.some.inj h]
      exact ⟨hc.addr, hc.pid, hc.pendingTask, hc.taskType⟩

theorem parseDependency_blank {lost : List Client} {c c' : Client} {n : XmlNode} {addr : Addr}
    (hc : c.Blank addr) (h : parseDependency lost c n = some c') : c'.Blank addr := by
  unfold parseDependency at h
  split at h
  · exact clientDependencyAdd_blank hc h
  · rwa [← Option.some.inj h]

theorem parseClientNode_blank {lost : List Client} {c c' : Client} {n : XmlNode} {addr : Addr}
    (hc : c.Blank addr) (h : parseClientNode lost c n = some c') : c'.Blank addr := by
  have hsome : ∀ {d}, some d = some c' → Client.Blank d addr → c'.Blank addr := by
    intro d he hd
    rwa [← Option.some.inj he]
  obtain ⟨h1, h2, h3, h4⟩ := hc
  unfold parseClientNode at h
  split at h
  · exact hsome h ⟨h1, h2, h3, h4⟩
  · split at h
    · exact hsome h ⟨h1, h2, h3, h4⟩
    · split at h
      · exact hsome h ⟨h1, h2, h3, h4⟩
      · split at h
        · exact hsome h ⟨h1, h2, h3, h4⟩
        · split at h
          · exact hsome h ⟨h1, h2, h3, h4⟩
          · split at h
            · exact hsome h ⟨h1, h2, h3, h4⟩
            · split at h
              · exact Runs.foldlM_invariant (I := fun d => d.Blank addr) ⟨h1, h2, h3, h4⟩
                  (fun _ _ _ _ ht hu => parseDependency_blank ht hu) h
              · exact hsome h ⟨h1, h2, h3, h4⟩

theorem clientParseXml_blank {lost : List Client} {c c' : Client} {n : XmlNode} {addr : Addr}
    (hc : c.Blank addr) (h : clientParseXml lost c n = some c') : c'.Blank addr :=
  Runs.foldlM_invariant (I := fun d => d.Blank addr) hc
    (fun _ _ _ _ ht hu => parseClientNode_blank ht hu) h

/-- What `project_load` has done to a session so far: it has read some clients, and given each of
them an address. -/
structure Session.Reads (s s' : Session) : Prop where
  addr : s'.p.addr = s.p.addr
  clients : s'.p.clients = s.p.clients
  taskType : s'.p.taskType = s.p.taskType
  pending : s'.p.clientTasksPending = s.p.clientTasksPending
  directory : s'.p.directory = s.p.directory
  log : s'.g.log = s.g.log
  nextAddr : s.g.nextAddr ≤ s'.g.nextAddr
  blank : ∀ c ∈ s'.p.lostClients, ∃ a, s.g.nextAddr ≤ a ∧ a < s'.g.nextAddr ∧ c.Blank a
  distinct : (s'.p.lostClients.map Client.addr).Nodup

theorem Session.Reads.node {s t u : Session} {n : XmlNode} (h : s.Reads t)
    (hn : loadNode t n = some u) : s.Reads u := by
  unfold loadNode at hn
  split_ifs at hn
  · rw [← Option.some.inj hn]
    exact ⟨h.addr, h.clients, h.taskType, h.pending, h.directory, h.log, h.nextAddr, h.blank,
      h.distinct⟩
  · split at hn
    · exact absurd hn (by simp)
    · next c hc =>
        have hblank := clientParseXml_blank (clientNew_blank _) hc
        rw [← Option.some.inj hn]
        refine ⟨h.addr, h.clients, h.taskType, h.pending, h.directory, h.log,
          Nat.le_succ_of_le h.nextAddr, ?_, ?_⟩
        · intro d hd
          rcases List.mem_cons.mp hd with rfl | hd
          · exact ⟨_, h.nextAddr, Nat.lt_succ_self _, hblank⟩
          · obtain ⟨a, ha, ha', hb⟩ := h.blank d hd
            exact ⟨a, ha, Nat.lt_succ_of_lt ha', hb⟩
        · rw [List.map_cons, List.nodup_cons]
          refine ⟨?_, h.distinct⟩
          intro hm
          obtain ⟨d, hd, he⟩ := List.mem_map.mp hm
          obtain ⟨a, _, ha, hb⟩ := h.blank d hd
          rw [hb.addr, hblank.addr] at he
          exact Nat.ne_of_lt ha he
  · rwa [← Option.some.inj hn]

/-- `project_load` reads the clients of the project. -/
theorem projectLoad_reads {s s' : Session} {ok : Bool} (hnil : s.p.lostClients = [])
    (h : projectLoad s = some (ok, s')) : s.Reads s' := by
  have hrefl : s.Reads s :=
    ⟨rfl, rfl, rfl, rfl, rfl, rfl, le_refl _, by simp [hnil], by simp [hnil]⟩
  unfold projectLoad at h
  split at h
  · exact absurd h (by simp)
  · split at h
    · obtain ⟨rfl, rfl⟩ := Prod.mk.inj (Option.some.inj h)
      exact hrefl
    · split at h
      · exact absurd h (by simp)
      · next t ht =>
          have hread := Runs.foldlM_invariant (I := s.Reads) hrefl
              (fun _ _ _ _ ht hu => ht.node hu) ht
          obtain ⟨rfl, rfl⟩ := Prod.mk.inj (Option.some.inj h)
          unfold projectLoadNotes
          split <;> exact ⟨hread.addr, hread.clients, hread.taskType, hread.pending,
            hread.directory, hread.log, hread.nextAddr, hread.blank, hread.distinct⟩

end Lash
