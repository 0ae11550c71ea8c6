import Lash.Bulletins
import Mathlib.Data.List.Find

/-!
# What the processes of the clients hear of a step

The daemon speaks to the processes behind its clients with `Save` signals, `Load` and `LoadDataSet`
calls, and with `ProjectNameChanged`, which is the only control signal that a plain client listens
to. `Server.Post` says for one step what it sends of these and what becomes of the live clients; a
step sends at most one such message (`Server.step_post`).
-/

namespace Lash

/-! ## Mail -/

/-- The announcement of a new name. -/
def Event.isRename : Event → Bool
  | .projectNameChanged .. => true
  | _ => false

/-- The messages to the processes of clients, apart from `Quit`. -/
def Event.isMail : Event → Bool
  | .save .. | .load .. | .loadDataSet .. | .projectNameChanged .. => true
  | _ => false

/-- The mail among some events. -/
def mail (log : List Event) : List Event := log.filter Event.isMail

@[simp] theorem mail_nil : mail [] = [] := rfl

@[simp] theorem mail_append (l l' : List Event) : mail (l ++ l') = mail l ++ mail l' :=
  List.filter_append l l'

theorem mail_cons_of_not {e : Event} (he : e.isMail = false) (l : List Event) :
    mail (e :: l) = mail l := List.filter_cons_of_neg (by simp [he])

theorem mail_cons_of {e : Event} (he : e.isMail = true) (l : List Event) :
    mail (e :: l) = e :: mail l := List.filter_cons_of_pos he

/-- Apart from new names, mail is about tasks. -/
theorem mail_eq_of_no_rename {es : List Event} (h : ∀ e ∈ es, e.isRename = false) :
    mail es = mail (es.filter Event.isTask) := by
  rw [mail, mail, List.filter_filter]
  apply List.filter_congr
  intro e he
  have hrename := h e he
  cases e <;> first | rfl | exact absurd hrename (by simp [Event.isRename])

theorem mail_finishEvents {a : Addr} {name : CStr} {written modified : Bool} {type : EventType} :
    mail (finishEvents a name written modified type) = [] := by
  unfold finishEvents
  cases type <;> cases written <;> cases modified <;> rfl

theorem mail_countEvents {v : View} {a : Addr} {name : CStr} {written modified : Bool}
    {type : EventType} : mail (v.countEvents a name written modified type) = [] := by
  unfold View.countEvents
  split
  · exact (mail_cons_of_not rfl _).trans mail_finishEvents
  · rfl

theorem mail_launchEvents {a : Addr} {l : List Job} : mail (launchEvents a l) = [] := by
  rw [mail, List.filter_eq_nil_iff]
  intro e he
  obtain ⟨c, -, rfl⟩ := List.mem_map.mp he
  simp [Event.isMail]

theorem mail_askEvents {a : Addr} {name : CStr} {task : Nat} {v : View} :
    mail (askEvents a name task v) = [.save a name task] := by
  have hgiven : mail ((v.live.filter Job.hasState).map
      (fun c => Event.taskGiven a c.addr task)) = [] := by
    rw [mail, List.filter_eq_nil_iff]
    intro e he
    obtain ⟨c, -, rfl⟩ := List.mem_map.mp he
    simp [Event.isMail]
  rw [askEvents, mail_cons_of rfl, hgiven]

/-! ## Functions that announce no name -/

/-- Nobody is told of a new name. -/
def Hushed (g g' : Globals) : Prop :=
  ∃ es, g'.log = g.log ++ es ∧ ∀ e ∈ es, e.isRename = false

namespace Hushed

variable {g g' g'' : Globals}

/-- A new name is announced in a bulletin. -/
theorem of_said {bs : List Event} (h : Says g g' bs) (hbs : bs.any Event.isRename = false) :
    Hushed g g' := by
  obtain ⟨es, hlog, rfl⟩ := h
  refine ⟨es, hlog, ?_⟩
  intro e he
  by_contra hrename
  have hbulletin : e.isBulletin = true := by
    cases e <;> first | rfl | exact absurd rfl hrename
  exact hrename (Bool.eq_false_iff.mpr
    (List.any_eq_false.mp hbs e (List.mem_filter.mpr ⟨he, hbulletin⟩)))

theorem of_eq (h : g'.log = g.log) : Hushed g g' := .of_said (.of_eq h) rfl

theorem refl (g : Globals) : Hushed g g := .of_eq rfl

theorem trans (h : Hushed g g') (h' : Hushed g' g'') : Hushed g g'' := by
  obtain ⟨es, hlog, hes⟩ := h
  obtain ⟨es', hlog', hes'⟩ := h'
  refine ⟨es ++ es', by rw [hlog', hlog, List.append_assoc], ?_⟩
  intro e he
  rcases List.mem_append.mp he with he | he
  · exact hes e he
  · exact hes' e he

theorem emit (g : Globals) {e : Event} (he : e.isRename = false) : Hushed g (g.emit e) :=
  ⟨[e], rfl, fun _ hm => List.mem_singleton.mp hm ▸ he⟩

end Hushed

/-! ## Steps -/

namespace Server

variable {s s' t : Server} {a b : Addr} {i : Input}

/-- A project is restored under the name in its file: no loaded project has it. -/
def RestoresApart (s : Server) (i : Input) : Prop :=
  ∀ a ∈ s.restoring i, ∀ r ∈ projectLoad (s.session a),
    r.1 = true → s.findProjectByName r.2.p.name = none

instance (s : Server) (i : Input) : Decidable (s.RestoresApart i) :=
  inferInstanceAs (Decidable (∀ a ∈ s.restoring i, ∀ r ∈ projectLoad (s.session a), _))

theorem findProjectByName_setSession (ha : a ∉ s.loaded) (u : Session) (name : CStr) :
    (s.setSession a u).findProjectByName name = s.findProjectByName name := by
  unfold findProjectByName
  rw [setSession_loaded]
  apply List.find?_congr
  intro b hb
  have hne : b ≠ a := fun he => ha (he ▸ hb)
  rw [setSession_project_ne s u hne]

theorem startRestore_hushed (h : s.startRestore a = some s') : Hushed s.g s'.g := by
  unfold startRestore at h
  dsimp only at h
  split at h
  · exact absurd h (by simp)
  · next g lost hlost =>
      rw [← Option.some.inj h]
      refine Hushed.trans ?_ (.of_said (restoreClients_said hlost) rfl)
      refine ((Hushed.emit s.g ?_).trans (.emit _ ?_)).trans (.emit _ ?_)
      all_goals rfl

/-- **Names are announced on request only**, if every project is restored under its own name. -/
theorem step_hushed (hr : s.RestoresApart i) (h : s.step i = some s')
    (hi : ∀ old new, i ≠ .projectRename old new) : Hushed s.g s'.g := by
  cases step_deed h with
  | nothing => exact .refl _
  | children childs => exact .of_eq rfl
  | outside fs forks => exact .of_eq rfl
  | @join _ _ _ _ _ _ _ t b u _ hborn hu =>
      have hnew : Hushed s.g t.g := by
        rcases getNewbornProject_some hborn with ⟨rfl, -⟩ | hnew
        · exact .of_eq rfl
        · obtain ⟨es, hlog, -, -⟩ := (createNewProject_some hnew).logged
          unfold createNewProject at hnew
          split at hnew
          · exact absurd hnew (by simp)
          · obtain ⟨rfl, -⟩ := Prod.mk.inj (Option.some.inj hnew)
            exact .emit _ rfl
      obtain ⟨name, hsaid⟩ := projectNewClient_said hu
      exact (hnew.trans (.emit t.g rfl)).trans (.of_said hsaid rfl)
  | resume _ _ _ hu =>
      obtain ⟨name, hsaid⟩ := clientResumeProject_said hu
      exact (Hushed.emit s.g rfl).trans (.of_said hsaid rfl)
  | leave childs _ _ _ => exact .of_said (clientDisconnected_said { g := _, p := _ } _) rfl
  | @complete _ b u c ok v hrep _ hv =>
      have hu : u.g = s.g := by
        obtain ⟨-, d, -, -, ⟨rfl, -⟩ | ⟨_, _, _, _, _, _, _, _, _, _, _, rfl⟩⟩ :=
          reporting_cases hrep
        · rfl
        · rfl
      rw [← hu]
      exact .of_said (clientTaskCompleted_said hv) rfl
  | progress n _ _ _ => exact .of_said (projectClientProgress_said (s.session _) _ n) rfl
  | @save _ b _ _ =>
      have hg : (s.projectSave b).g = (Lash.projectSave (s.session b)).g := by
        unfold Server.projectSave
        dsimp only
        split <;> rfl
      rw [hg]
      exact .of_said (projectSave_said (s.session b)) rfl
  | @close _ b _ _ =>
      refine Hushed.trans ?_ (.emit _ rfl)
      rcases projectUnload_said (s.session b) with hsaid | ⟨dir, hsaid⟩
      · exact .of_said hsaid rfl
      · exact .of_said hsaid rfl
  | @restore _ b ok _ hb hnot hi ht =>
      unfold projectRestore at ht
      rw [if_neg hnot] at ht
      split at ht
      · exact absurd ht (by simp)
      · next u hload =>
          obtain ⟨-, rfl⟩ := Prod.mk.inj (Option.some.inj ht)
          exact .of_eq (projectLoad_log hload)
      · next u hload =>
          have hfree := hr b hi (true, u) hload rfl
          dsimp only at ht hfree
          rw [← findProjectByName_setSession hnot u] at hfree
          rw [hfree] at ht
          obtain ⟨v, hv, he⟩ := Option.map_eq_some_iff.mp ht
          obtain ⟨-, rfl⟩ := Prod.mk.inj he
          have hu : Hushed s.g (s.setSession b u).g := .of_eq (projectLoad_log hload)
          exact hu.trans (startRestore_hushed hv)
  | depend | undepend => exact .refl _
  | launch _ _ hd => exact .of_said (projectLaunchClient_said hd) rfl
  | @rename _ old new _ => exact absurd rfl (hi old new)
  | @describe b _ d _ => exact .of_said (signal_said _ rfl true) rfl
  | @note b _ n _ => exact .of_said (signal_said _ rfl true) rfl
  | @move b _ path _ _ =>
      rcases projectMove_said (s.session b) path with ⟨-, hsaid⟩ | ⟨-, hsaid⟩
      · exact .of_said hsaid rfl
      · exact .of_said hsaid rfl

/-! ## Live clients -/

end Server

/-- Who a live client is, as far as its process is concerned. -/
def Client.badge (c : Client) : Addr × Option CStr × Bool × Bool :=
  (c.addr, c.dbusName, hasInternalState c.flags, configDataSet c.flags)

namespace Server

variable {s s' t : Server} {a b : Addr} {i : Input}

/-- A live client of a loaded project, under its name on the bus. -/
structure Lists (s : Server) (n : CStr) (a : Addr) (c : Client) : Prop where
  loaded : a ∈ s.loaded
  live : c ∈ (s.project a).clients
  name : c.dbusName = some n

/-- A client was live before, with the same task, and its project had the same name. -/
def Keeps (s s' : Server) (n : CStr) (a : Addr) (d : Client) : Prop :=
  ∃ c, s.Lists n a c ∧ d.badge = c.badge ∧ d.pendingTask = c.pendingTask ∧
    (s'.project a).name = (s.project a).name

/-- What a client that connects is told: nothing, and it has no task, or its task. -/
inductive Told (n : CStr) : Nat → List Event → Prop
  | nothing : Told n 0 []
  | load {a x task path} (ht : task ≠ 0) : Told n task [.load a x n task path]
  | loadDataSet {a x task configs} (ht : task ≠ 0) :
      Told n task [.loadDataSet a x n task configs]

/-- What a step sends, and what becomes of the live clients. -/
inductive Post (s : Server) : Input → Server → List Event → Prop
  | quiet {i : Input} {s' : Server} (hrep : s.reporting i = none)
      (h : ∀ n a d, s'.Lists n a d → s.Keeps s' n a d) : Post s i s' []
  | connect {sender pid cls flags wd argv id evs} {s' : Server}
      (htold : ∃ task, Told sender task evs)
      (h : ∀ n a d, s'.Lists n a d →
        s.Keeps s' n a d ∨ n = sender ∧ Told sender d.pendingTask evs) :
      Post s (.connect sender pid cls flags wd argv id) s' evs
  /-- A client completes its task. -/
  | done {i : Input} {s' : Server} {b x : Addr}
      (hi : ∃ u c ok, s.reporting i = some (b, u, c, ok) ∧ c.addr = x)
      (hname : (s'.project b).name = (s.project b).name)
      (h : ∀ n a d, s'.Lists n a d → ¬ (a = b ∧ d.addr = x) → s.Keeps s' n a d)
      (hself : ∀ n d, s'.Lists n b d → d.addr = x →
        d.pendingTask = 0 ∧ ∃ c, s.Lists n b c ∧ d.badge = c.badge) : Post s i s' []
  /-- The clients of a project are asked to save. -/
  | asked {i : Input} {s' : Server} {b : Addr} {task : Nat} (ht : task ≠ 0)
      (hi : s.saving i = some b) (hname : (s'.project b).name = (s.project b).name)
      (hfree : ∀ c ∈ (s.project b).clients, c.pendingTask = 0)
      (h : ∀ n a d, s'.Lists n a d → a ≠ b → s.Keeps s' n a d)
      (hself : ∀ n d, s'.Lists n b d → ∃ c, s.Lists n b c ∧ d.badge = c.badge ∧
        d.pendingTask = if hasInternalState c.flags then task else 0) :
      Post s i s' [.save b (s.project b).name task]
  | renamed {old new : CStr} {s' : Server} {b : Addr} (hi : s.findProjectByName old = some b)
      (hname : (s'.project b).name = new)
      (h : ∀ n a d, s'.Lists n a d → ∃ c, s.Lists n a c ∧ d.badge = c.badge ∧
        d.pendingTask = c.pendingTask ∧ (a ≠ b → (s'.project a).name = (s.project a).name)) :
      Post s (.projectRename old new) s' [.projectNameChanged b old new]

theorem Lists.keeps {n : CStr} {d : Client} (h : s.Lists n a d)
    (hname : (s'.project a).name = (s.project a).name) : s.Keeps s' n a d :=
  ⟨d, h, rfl, rfl, hname⟩

/-- Only a request changes the name of a loaded project. -/
theorem step_keeps_name (hw : s.Wf) (h : s.step i = some s')
    (hi : ∀ old new, i ≠ .projectRename old new) (ha : a ∈ s.loaded) (ha' : a ∈ s'.loaded) :
    (s'.project a).name = (s.project a).name := by
  cases step_names hw h with
  | same hsub hname => exact hname a ha'
  | @rename old new => exact absurd rfl (hi old new)
  | more hloaded hname => exact hname a ha

end Server

/-! ## Moves that give nobody a task -/

/-- An act that lets nobody in and neither gives nor ends a task. -/
def Act.Tranquil : Act → Prop
  | .join _ | .resume _ _ | .complete _ _ _ | .save _ _ => False
  | _ => True

/-- The clients that are live afterwards were live before, in the same state. -/
theorem Move.live_same {a : Addr} {v v' : View} {act : Act} {evs : List Event}
    (h : Move a v act evs v') (hact : act.Tranquil) :
    mail evs = [] ∧ ∀ e ∈ v'.live, ∃ c ∈ v.live, e.addr = c.addr ∧ e.dbusName = c.dbusName ∧
      e.flags = c.flags ∧ e.pendingTask = c.pendingTask := by
  have hsame : ∀ e ∈ v.live, ∃ c ∈ v.live, e.addr = c.addr ∧ e.dbusName = c.dbusName ∧
      e.flags = c.flags ∧ e.pendingTask = c.pendingTask := fun e he => ⟨e, he, rfl, rfl, rfl, rfl⟩
  have hput : ∀ {c d : Job}, c ∈ v.live → d.addr = c.addr → d.dbusName = c.dbusName →
      d.flags = c.flags → d.pendingTask = c.pendingTask → ∀ e ∈ (v.put d).live,
        ∃ c ∈ v.live, e.addr = c.addr ∧ e.dbusName = c.dbusName ∧ e.flags = c.flags ∧
          e.pendingTask = c.pendingTask := by
    intro c d hc haddr hname hflags hpend e he
    rcases Keyed.mem_put.mp he with ⟨rfl, -⟩ | ⟨he, -⟩
    · exact ⟨c, hc, haddr, hname, hflags, hpend⟩
    · exact hsame e he
  cases h with
  | quiet => exact ⟨rfl, hsame⟩
  | join | sent | silent | stateless | cleared | failed | saved | restored | skipped | asked =>
      exact hact.elim
  | leave hc => exact ⟨rfl, fun e he => hsame e (Keyed.mem_del.mp he).1⟩
  | close => exact ⟨rfl, fun e he => absurd he List.not_mem_nil⟩
  | restore hloaded hjobs =>
      refine ⟨(mail_cons_of_not rfl _).trans mail_launchEvents, ?_⟩
      exact fun e he => hsame e he
  | launch hc => exact ⟨rfl, hsame⟩
  | depend hc => exact ⟨rfl, hput hc rfl rfl rfl rfl⟩
  | undepend hc => exact ⟨rfl, hput hc rfl rfl rfl rfl⟩

/-- Who is in the same state has the same badge. -/
theorem Client.badge_of_job {c d : Client} (haddr : d.addr = c.addr)
    (hname : d.dbusName = c.dbusName) (hflags : d.flags = c.flags) : d.badge = c.badge := by
  unfold Client.badge
  rw [haddr, hname, hflags]

namespace Server

variable {s s' t : Server} {a b : Addr} {i : Input}

/-- A project that was not touched. -/
theorem MovesAt.keeps_other {act : Act} (h : s.MovesAt s' a act) {n : CStr} {d : Client}
    (hab : b ≠ a) (hd : s'.Lists n b d) : s.Keeps s' n b d := by
  obtain ⟨hproject, hloaded⟩ := h.others b hab
  have hlive := hd.live
  rw [hproject] at hlive
  exact ⟨d, ⟨hloaded.mp hd.loaded, hlive, hd.name⟩, rfl, rfl, by rw [hproject]⟩

theorem Lists.job {n : CStr} {d : Client} (hd : s.Lists n a d) : d.job ∈ (s.view a).live :=
  List.mem_map_of_mem hd.live

/-- A client that is in the same state as one that was live before. -/
theorem Wf.keeps (hw : s.Wf) {n : CStr} {d : Client} {j : Job} (hd : s'.Lists n a d)
    (hname : a ∈ s.loaded → (s'.project a).name = (s.project a).name) (hj : j ∈ (s.view a).live)
    (he : d.addr = j.addr ∧ d.dbusName = j.dbusName ∧ d.flags = j.flags ∧
      d.pendingTask = j.pendingTask) : s.Keeps s' n a d := by
  obtain ⟨c, hc, rfl⟩ := List.mem_map.mp hj
  obtain ⟨haddr, hdbus, hflags, hpend⟩ := he
  have ha : a ∈ s.loaded := by
    by_contra hnot
    rw [(hw.clients_unloaded hnot).1] at hc
    exact absurd hc List.not_mem_nil
  exact ⟨c, ⟨ha, hc, hdbus.symm.trans hd.name⟩, Client.badge_of_job haddr hdbus hflags, hpend,
    hname ha⟩

/-- The mail of a step without new names is that of the move. -/
theorem mail_of_logged {evs : List Event} (hh : Hushed s.g s'.g) (h : Logged a s.g s'.g evs) :
    mail (s.news s') = mail evs := by
  obtain ⟨es, hlog, hes⟩ := hh
  obtain ⟨es', hlog', -, hf⟩ := h
  have hsame : es = es' := List.append_cancel_left (hlog.symm.trans hlog')
  rw [news_of_log hlog, mail_eq_of_no_rename hes, hsame, hf]

end Server

/-! ## Reports and saves -/

/-- **Who completes a task has none then**, and is who it was. -/
theorem clientTaskCompleted_clears {s t : Session} {c : Client} {ok : Bool}
    (h : clientTaskCompleted s c ok = some t) : ∃ d : Client, d.badge = c.badge ∧
      d.pendingTask = 0 ∧ t.p.clients = putClient d s.p.clients := by
  unfold clientTaskCompleted at h
  dsimp only at h
  split at h
  · rw [← Option.some.inj h]
    exact ⟨c.clearTask, rfl, rfl, rfl⟩
  · obtain ⟨⟨u, d⟩, hfin, rfl⟩ := Option.map_eq_some_iff.mp h
    obtain ⟨hprofile, -, -, -, -, hclients⟩ := clientFinishTask_profile hfin
    obtain ⟨-, -, hsame⟩ := clientFinishTask_keeps hfin
    have hbadge : d.badge = c.badge := by
      simp only [Client.profile, Prod.mk.injEq] at hprofile
      obtain ⟨haddr, hname, hstate, -, -⟩ := hprofile
      unfold Client.badge
      rw [haddr, hname, hstate, hsame.dataSet]
    obtain ⟨hprogress, -⟩ := projectClientProgress_clients u d 100
    have hjob := projectClientTaskCompleted_job u d
    refine ⟨(projectClientTaskCompleted u d).2.clearTask, ?_, rfl, ?_⟩
    · refine Eq.trans ?_ hbadge
      exact Client.badge_of_job (congrArg Job.addr hjob) (congrArg Job.dbusName hjob)
        (congrArg Job.flags hjob)
    · have hcount : (projectClientTaskCompleted u d).1.p.clients
          = putClient (projectClientProgress u d 100).2 s.p.clients := by
        refine (projectCountDown_clients (projectClientProgress u d 100).1 _).trans ?_
        rw [hprogress, hclients]
        rfl
      exact (congrArg (putClient _) hcount).trans (Keyed.put_put rfl)

/-- **A save asks every client or none**: none that has state to save if one of them is still at a
task. -/
theorem projectSave_asks (s : Session) : ∃ evs, s.Steps (projectSave s) evs ∧
    (mail evs = [] ∧ ((projectSave s).p.view true).live = (s.p.view true).live ∨
      ∃ task, task ≠ 0 ∧ (∀ c ∈ s.p.clients, c.pendingTask = 0) ∧
        mail evs = [.save s.p.addr s.p.name task] ∧
        ((projectSave s).p.view true).live = (s.p.view true).live.map (Job.ask task)) := by
  -- a save that begins may be complete at once
  have hrest : ∀ evs, s.Steps (projectSaveStart s) evs → s.p.taskType = .idle →
      ∃ more, s.Steps (projectSave s) (evs ++ more) ∧ mail more = [] ∧
        (projectSave s).p.view true = (projectSaveStart s).p.view true := by
    intro evs hsteps hidle
    unfold projectSave
    rw [if_neg (not_not.mpr hidle)]
    dsimp only
    split
    · obtain ⟨m, hm⟩ := projectClientsSaveComplete_steps (projectSaveStart s)
      exact ⟨_, hsteps.trans hm, mail_finishEvents, projectClientsSaveComplete_view _ _⟩
    · refine ⟨[], ?_, rfl, rfl⟩
      rw [List.append_nil]
      exact hsteps
  by_cases hidle : s.p.taskType = .idle
  · by_cases hpend : ∃ c ∈ s.p.clients, c.pendingTask ≠ 0
    · obtain ⟨hview, -, -, hsteps⟩ := projectSaveStart_skipped true hpend
      obtain ⟨more, hsave, hmail, hview'⟩ := hrest _ hsteps hidle
      refine ⟨_, hsave, Or.inl ⟨?_, ?_⟩⟩
      · rw [mail_append, hmail]
        rfl
      · rw [hview', hview]
    · have hnone : ∀ c ∈ s.p.clients, c.pendingTask = 0 := by simpa using hpend
      obtain ⟨task, htask, hview, -, -, hsteps⟩ := projectSaveStart_asked true hnone
      obtain ⟨more, hsave, hmail, hview'⟩ := hrest _ hsteps hidle
      refine ⟨_, hsave, Or.inr ⟨task, htask, hnone, ?_, ?_⟩⟩
      · rw [mail_append, hmail, mail_cons_of_not rfl, mail_askEvents]
        rfl
      · rw [hview', hview]
        rfl
  · refine ⟨[], ?_, Or.inl ⟨rfl, ?_⟩⟩
    · unfold projectSave
      rw [if_pos hidle]
      exact .of_log_eq rfl rfl rfl
    · unfold projectSave
      rw [if_pos hidle]

/-! ## Every step -/

/-- Only a client that is back and a save have tasks sent. -/
theorem Move.mail_nil {a : Addr} {v v' : View} {act : Act} {evs : List Event}
    (h : Move a v act evs v') (hsave : ∀ asked written, act ≠ .save asked written)
    (hsent : ∀ c, act ≠ .resume c .sent) : mail evs = [] := by
  cases h with
  | sent hc hpid htask he => exact absurd rfl (hsent _)
  | skipped | asked => exact absurd rfl (hsave _ _)
  | stateless hc hpid =>
      rw [mail_cons_of_not rfl, mail_cons_of_not rfl]
      exact mail_countEvents
  | failed hc hp htype => exact (mail_cons_of_not rfl _).trans mail_countEvents
  | saved hc hp htype => exact (mail_cons_of_not rfl _).trans mail_countEvents
  | restored hc hp htype hlost =>
      rw [mail_cons_of_not rfl, mail_append, mail_launchEvents, mail_countEvents]
      rfl
  | restore hloaded hjobs => exact (mail_cons_of_not rfl _).trans mail_launchEvents
  | quiet | join | leave | silent | cleared | close | launch | depend | undepend => rfl

namespace Server

variable {s s' : Server} {a b : Addr} {i : Input} {sender : CStr} {g : Globals}

theorem findProjectByName_eq {name : CStr} (h : s.findProjectByName name = some a) :
    (s.project a).name = name := by
  have hname := List.find?_some h
  exact of_decide_eq_true hname

theorem projectSetModifiedStatus_mail (t : Session) (status : Bool) :
    ∃ es, (projectSetModifiedStatus t status).g.log = t.g.log ++ es ∧ mail es = [] := by
  unfold projectSetModifiedStatus
  split
  · exact ⟨[], (List.append_nil _).symm, rfl⟩
  · exact ⟨_, rfl, rfl⟩

/-- A project gets a new name. -/
theorem rename_post (hw : s.Wf) {old new : CStr} (h : s.step (.projectRename old new) = some s') :
    s.Post (.projectRename old new) s' (mail (s.news s')) := by
  have hs : (s.onProject old
      (fun a => s.setSession a (Lash.projectRename (s.session a) new))).1 = s' :=
    Option.some.inj h
  unfold onProject at hs
  split at hs
  · subst hs
    have hnews : s.news s = [] := news_of_log (List.append_nil _).symm
    rw [hnews]
    exact .quiet rfl (fun n a d hd => hd.keeps rfl)
  · next b hfind =>
      obtain ⟨es, hlog, hmail⟩ := projectSetModifiedStatus_mail
        ({ s.session b with p := { s.project b with
            moveOnClose := if (s.project b).name ≠ new then true else (s.project b).moveOnClose
            name := new } }.emit (.projectNameChanged (s.project b).addr (s.project b).name new))
        true
      have hp : (Lash.projectRename (s.session b) new).p.name = new ∧
          (Lash.projectRename (s.session b) new).p.clients = (s.project b).clients := by
        unfold Lash.projectRename
        rw [projectSetModifiedStatus_p]
        exact ⟨rfl, rfl⟩
      have hnews : mail (s.news s') = [.projectNameChanged b old new] := by
        have hall : s'.g.log = s.g.log ++ (.projectNameChanged b old new :: es) := by
          rw [← hs]
          refine Eq.trans hlog ?_
          show (s.g.log ++ [_]) ++ es = _
          rw [hw.addr, findProjectByName_eq hfind, List.append_assoc]
          rfl
        rw [news_of_log hall, mail_cons_of rfl, hmail]
      rw [hnews, ← hs]
      dsimp only
      refine .renamed hfind ?_ ?_
      · rw [setSession_project_self]
        exact hp.1
      · intro n a d hd
        by_cases hab : a = b
        · subst hab
          have hlive := hd.live
          rw [setSession_project_self, hp.2] at hlive
          exact ⟨d, ⟨hd.loaded, hlive, hd.name⟩, rfl, rfl, fun hne => absurd rfl hne⟩
        · have hlive := hd.live
          rw [setSession_project_ne s _ hab] at hlive
          refine ⟨d, ⟨hd.loaded, hlive, hd.name⟩, rfl, rfl, ?_⟩
          intro _
          rw [setSession_project_ne s _ hab]

/-- Nothing is renamed by a report. -/
theorem not_rename_of_reporting {r : Addr × Session × Client × Bool} (h : s.reporting i = some r) :
    ∀ old new, i ≠ .projectRename old new := by
  rintro old new rfl
  exact absurd h (by simp [reporting])

theorem not_rename_of_saving (h : s.saving i = some a) :
    ∀ old new, i ≠ .projectRename old new := by
  rintro old new rfl
  exact absurd h (by simp [saving])

/-- Who saves reports nothing. -/
theorem reporting_of_saving (h : s.saving i = some a) : s.reporting i = none := by
  cases i with
  | projectSave | saveRound => rfl
  | _ => exact absurd h (by simp [saving])

/-- No step but those that are asked for or resume somebody has mail to send. -/
theorem mail_of_answers (hh : Hushed s.g s'.g) (hans : s.Answers s' i) (hsave : s.saving i = none)
    (hresume : s.resuming i = none) : mail (s.news s') = [] := by
  rcases hans with hun | ⟨a, act, hmove, hexp⟩
  · rw [news_of_log (hun.log.trans (List.append_nil _).symm)]
    rfl
  · obtain ⟨evs, hm, hlog⟩ := hmove.move
    rw [mail_of_logged hh hlog]
    refine hm.mail_nil ?_ ?_
    · rintro asked written rfl
      have hsome : s.saving i = some a := hexp.1
      rw [hsave] at hsome
      exact absurd hsome (by simp)
    · rintro c rfl
      obtain ⟨x, hx, -⟩ := hexp
      rw [hresume] at hx
      exact absurd hx (by simp)

/-- A client completes its task. -/
theorem report_post (hw : s.Wf) (hr : s.RestoresApart i) (h : s.step i = some s') {u : Session}
    {c : Client} {ok : Bool} (hrep : s.reporting i = some (b, u, c, ok)) :
    s.Post i s' (mail (s.news s')) := by
  have hi := not_rename_of_reporting hrep
  have hmail : mail (s.news s') = [] := by
    refine mail_of_answers (step_hushed hr h hi) (hw.step_answers h) ?_ ?_
    · cases i <;> first | rfl | exact absurd hrep (by simp [reporting])
    · cases i <;> first | rfl | exact absurd hrep (by simp [reporting])
  obtain ⟨hb, d, hd, -, hcase⟩ := reporting_cases hrep
  have hstep := step_of_reporting hw hrep
  rw [h] at hstep
  obtain ⟨v, hv, he⟩ := Option.map_eq_some_iff.mp hstep.symm
  obtain ⟨e, hbadge, hpend, hclients⟩ := clientTaskCompleted_clears hv
  -- the client is the one of before, whose store may have been filled
  have hself : e.badge = d.badge ∧ ∀ x ∈ v.p.clients, x = e ∨ x ∈ (s.project b).clients := by
    rw [hclients]
    rcases hcase with ⟨rfl, rfl, -⟩ | ⟨_, _, _, _, _, _, _, _, _, _, rfl, rfl⟩
    · exact ⟨hbadge, fun x hx => Keyed.eq_or_mem_of_mem_put hx⟩
    · refine ⟨hbadge, ?_⟩
      intro x hx
      rcases Keyed.mem_put.mp hx with ⟨rfl, -⟩ | ⟨hx, hne⟩
      · exact Or.inl rfl
      · rcases Keyed.mem_put.mp hx with ⟨rfl, -⟩ | ⟨hx, -⟩
        · exact absurd (congrArg Prod.fst hbadge).symm hne
        · exact Or.inr hx
  have haddr : e.addr = d.addr := congrArg Prod.fst hself.1
  have hname : (s'.project b).name = (s.project b).name := by
    refine step_keeps_name hw h hi hb ?_
    rw [← he]
    exact hb
  rw [hmail]
  refine .done (b := b) (x := d.addr) ⟨u, c, ok, hrep, ?_⟩ hname ?_ ?_
  · rcases hcase with ⟨-, rfl, -⟩ | ⟨_, _, _, _, _, _, _, _, _, _, rfl, -⟩ <;> rfl
  · intro n a f hf hne
    by_cases hab : a = b
    · subst hab
      have hlive := hf.live
      rw [← he, setSession_project_self] at hlive
      rcases hself.2 f hlive with rfl | hlive
      · exact absurd ⟨rfl, haddr⟩ hne
      · exact ⟨f, ⟨hb, hlive, hf.name⟩, rfl, rfl, hname⟩
    · have hproject : s'.project a = s.project a := by
        rw [← he, setSession_project_ne s v hab]
      have hlive := hf.live
      rw [hproject] at hlive
      have hloaded := hf.loaded
      rw [← he] at hloaded
      exact ⟨f, ⟨hloaded, hlive, hf.name⟩, rfl, rfl, by rw [hproject]⟩
  · intro n f hf hfx
    have hlive := hf.live
    rw [← he, setSession_project_self, hclients] at hlive
    have hfe : f = e := by
      rcases Keyed.mem_put.mp hlive with ⟨hfe, -⟩ | ⟨-, hne⟩
      · exact hfe
      · exact absurd (hfx.trans haddr.symm) hne
    subst hfe
    refine ⟨hpend, d, ⟨hb, hd, ?_⟩, hself.1⟩
    exact (congrArg (fun r => r.2.1) hself.1).symm.trans hf.name

/-- Some clients are asked to save, or none. -/
theorem save_post (hw : s.Wf) (hr : s.RestoresApart i) (h : s.step i = some s')
    (hsave : s.saving i = some b) : s.Post i s' (mail (s.news s')) := by
  have hi := not_rename_of_saving hsave
  have hs : s.projectSave b = s' := Option.some.inj ((step_of_saving hsave).symm.trans h)
  have hg : s'.g = (Lash.projectSave (s.session b)).g ∧
      s'.project = (s.setSession b (Lash.projectSave (s.session b))).project ∧
      s'.loaded = s.loaded := by
    rw [← hs]
    unfold Server.projectSave
    dsimp only
    split <;> exact ⟨rfl, rfl, rfl⟩
  obtain ⟨hg, hproject, hloaded⟩ := hg
  have hb := saving_loaded hsave
  have hname : (s'.project b).name = (s.project b).name := by
    refine step_keeps_name hw h hi hb ?_
    rw [hloaded]
    exact hb
  have hclients : (s'.project b).clients = (Lash.projectSave (s.session b)).p.clients := by
    rw [hproject, setSession_project_self]
  obtain ⟨evs, hsteps, hcase⟩ := projectSave_asks (s.session b)
  have hlog : Logged b s.g s'.g evs := by
    have hlogged := hsteps.logged
    rw [show (s.session b).p.addr = b from hw.addr b, ← hg] at hlogged
    exact hlogged
  rw [mail_of_logged (step_hushed hr h hi) hlog]
  have hother : ∀ n a d, s'.Lists n a d → a ≠ b → s.Keeps s' n a d := by
    intro n a d hd hab
    have hsame : s'.project a = s.project a := by rw [hproject, setSession_project_ne s _ hab]
    have hlive := hd.live
    rw [hsame] at hlive
    have ha := hd.loaded
    rw [hloaded] at ha
    exact ⟨d, ⟨ha, hlive, hd.name⟩, rfl, rfl, by rw [hsame]⟩
  have hjob : ∀ n d, s'.Lists n b d →
      d.job ∈ ((Lash.projectSave (s.session b)).p.view true).live := by
    intro n d hd
    have hlive := hd.live
    rw [hclients] at hlive
    exact Project.mem_live true hlive
  rcases hcase with ⟨hmail, hlive⟩ | ⟨task, htask, hfree, hmail, hlive⟩
  · rw [hmail]
    refine .quiet (reporting_of_saving hsave) ?_
    intro n a d hd
    by_cases hab : a = b
    · subst hab
      have hj := hjob n d hd
      rw [hlive, ← view_of_loaded hb] at hj
      exact hw.keeps hd (fun _ => hname) hj ⟨rfl, rfl, rfl, rfl⟩
    · exact hother n a d hd hab
  · rw [hmail, show (s.session b).p.addr = b from hw.addr b]
    refine .asked htask hsave hname hfree hother ?_
    intro n d hd
    have hj := hjob n d hd
    rw [hlive] at hj
    obtain ⟨j, hj, he⟩ := List.mem_map.mp hj
    obtain ⟨c, hc, rfl⟩ := List.mem_map.mp hj
    have hsame : d.addr = c.addr ∧ d.dbusName = c.dbusName ∧ d.flags = c.flags ∧
        d.pendingTask = if hasInternalState c.flags then task else 0 := by
      have hzero : c.pendingTask = 0 := hfree c hc
      unfold Job.ask at he
      split at he
      · next hstate =>
          rw [if_pos (show hasInternalState c.flags = true from hstate)]
          exact ⟨(congrArg Job.addr he).symm, (congrArg Job.dbusName he).symm,
            (congrArg Job.flags he).symm, (congrArg Job.pendingTask he).symm⟩
      · next hstate =>
          rw [if_neg (show ¬ hasInternalState c.flags = true from hstate)]
          refine ⟨(congrArg Job.addr he).symm, (congrArg Job.dbusName he).symm,
            (congrArg Job.flags he).symm, ?_⟩
          exact (congrArg Job.pendingTask he).symm.trans hzero
    obtain ⟨haddr, hdbus, hflags, hpend⟩ := hsame
    exact ⟨c, ⟨hb, hc, hdbus.symm.trans hd.name⟩, Client.badge_of_job haddr hdbus hflags, hpend⟩

/-- Nobody is let in, and no task is given or ended. -/
theorem tranquil_post (hw : s.Wf) (hr : s.RestoresApart i) (h : s.step i = some s')
    (hi : ∀ old new, i ≠ .projectRename old new) (hrep : s.reporting i = none) {act : Act}
    (hm : s.MovesAt s' b act) (hact : act.Tranquil) : s.Post i s' (mail (s.news s')) := by
  obtain ⟨evs, hmove, hlog⟩ := hm.move
  obtain ⟨hmail, hlive⟩ := hmove.live_same hact
  rw [mail_of_logged (step_hushed hr h hi) hlog, hmail]
  refine .quiet hrep ?_
  intro n a d hd
  by_cases hab : a = b
  · subst hab
    obtain ⟨j, hj, hsame⟩ := hlive d.job hd.job
    exact hw.keeps hd (fun ha => step_keeps_name hw h hi ha hd.loaded) hj hsame
  · exact hm.keeps_other hab hd

/-- Somebody connects. -/
theorem connect_post (hw : s.Wf) {sender : CStr} {pid : Int} {cls : CStr} {flags : Flags}
    {wd : CStr} {argv : List CStr} {id : Uuid}
    (hr : s.RestoresApart (.connect sender pid cls flags wd argv id))
    (h : s.step (.connect sender pid cls flags wd argv id) = some s') {act : Act}
    (hm : s.MovesAt s' b act) (hact : (∃ c, act = .join c) ∨ ∃ c answer, act = .resume c answer)
    (hfresh : act.ResumesFresh) :
    s.Post (.connect sender pid cls flags wd argv id) s' (mail (s.news s')) := by
  have hi : ∀ old new, Input.connect sender pid cls flags wd argv id ≠ .projectRename old new := by
    intro old new he
    exact absurd he (by simp)
  obtain ⟨evs, hmove, hlog⟩ := hm.move
  rw [mail_of_logged (step_hushed hr h hi) hlog]
  -- who is live and was not has the name of the sender
  have hsender : ∀ n d, s'.Lists n b d → (∀ c ∈ (s.view b).live, c.addr ≠ d.addr) →
      n = sender := by
    intro n d hd hnew
    have hold : ¬ (b ∈ s.loaded ∧ ∃ c ∈ (s.project b).clients, c.SameName d) := by
      rintro ⟨-, c, hc, haddr, -⟩
      exact hnew c.job (List.mem_map_of_mem hc) haddr.symm
    rcases step_live hw h with hall | ⟨_, _, _, _, _, _, _, _, _, heq, hall⟩
    · exact absurd (hall b hd.loaded d hd.live) hold
    · injection heq with heq
      obtain ⟨-, -, hname⟩ := (hall b hd.loaded d hd.live).resolve_left hold
      rw [← heq] at hname
      exact Option.some.inj (hd.name.symm.trans hname)
  have hw' : s'.Wf := (hw.step_answers h).wf hw
  -- one client more is live than before
  have hmore : ∀ {j : Job}, j ∈ (s'.view b).live →
      (∀ e ∈ (s'.view b).live, e = j ∨ e ∈ (s.view b).live) →
      (∀ c ∈ (s.view b).live, c.addr ≠ j.addr) →
      (∀ name, j.dbusName = some name → Told name j.pendingTask (mail evs)) →
      j.dbusName.isSome = true →
      s.Post (.connect sender pid cls flags wd argv id) s' (mail evs) := by
    intro j hj hlive hnew htold hnamed
    have htold' : Told sender j.pendingTask (mail evs) := by
      obtain ⟨name, hname⟩ := Option.isSome_iff_exists.mp hnamed
      obtain ⟨d, hd, rfl⟩ := List.mem_map.mp hj
      have hb : b ∈ s'.loaded := by
        by_contra hnot
        rw [(hw'.clients_unloaded hnot).1] at hd
        exact absurd hd List.not_mem_nil
      rw [← hsender name d ⟨hb, hd, hname⟩ hnew]
      exact htold name hname
    refine .connect ⟨j.pendingTask, htold'⟩ ?_
    intro n a d hd
    by_cases hab : a = b
    · subst hab
      rcases hlive d.job hd.job with he | hj
      · right
        rw [show d.pendingTask = j.pendingTask from congrArg Job.pendingTask he]
        refine ⟨hsender n d hd ?_, htold'⟩
        rw [show d.addr = j.addr from congrArg Job.addr he]
        exact hnew
      · left
        refine hw.keeps hd (fun ha => step_keeps_name hw h hi ha hd.loaded) hj ?_
        exact ⟨rfl, rfl, rfl, rfl⟩
    · exact Or.inl (hm.keeps_other hab hd)
  have hne : ∀ {c j : Job}, c ∈ (s.view b).lost → j.addr = c.addr →
      ∀ x ∈ (s.view b).live, x.addr ≠ j.addr := by
    intro c j hc haddr x hx
    rw [haddr]
    exact (hw.distinct b).ne hx hc
  generalize s'.view b = v' at hmove hmore
  rcases hact with ⟨c, rfl⟩ | ⟨c, answer, rfl⟩
  · cases hmove with
    | join hnew idle _ _ hname =>
        refine hmore (j := c) List.mem_cons_self (fun e he => List.mem_cons.mp he) ?_ ?_
          (by rw [hname]; rfl)
        · intro x hx he
          apply hnew
          rw [← he]
          exact List.mem_map_of_mem (List.mem_append_left _ hx)
        · intro name _
          rw [idle.pendingTask]
          exact .nothing
  · cases hmove with
    | @sent _ name task type e hc hpid htask he =>
        refine hmore (j := (c.reconnect name).give task type) List.mem_cons_self
          (fun e he => List.mem_cons.mp he) (hne hc rfl) ?_ rfl
        intro name' hname
        rw [← Option.some.inj hname]
        cases he with
        | load path => exact .load htask
        | loadDataSet configs => exact .loadDataSet htask
    | @silent _ name hc hpid =>
        refine hmore (j := c.reconnect name) List.mem_cons_self
          (fun e he => List.mem_cons.mp he) (hne hc rfl) ?_ rfl
        intro name' _
        have hzero : c.pendingTask = 0 := hfresh.resolve_right (by simp)
        rw [show (c.reconnect name).pendingTask = 0 from hzero]
        exact .nothing
    | @stateless _ name pname written modified hc hpid =>
        refine hmore (j := { c.reconnect name with taskType := .unknown }) ?_ ?_ (hne hc rfl) ?_ rfl
        · rw [View.live_count]
          exact List.mem_cons_self
        · intro e he
          rw [View.live_count] at he
          exact List.mem_cons.mp he
        · intro name' _
          have hzero : c.pendingTask = 0 := hfresh.resolve_right (by simp)
          rw [show Job.pendingTask { c.reconnect name with taskType := .unknown } = 0 from hzero,
            mail_cons_of_not rfl, mail_cons_of_not rfl, mail_countEvents]
          exact .nothing

/-- **What the processes of the clients hear of a step**, and what becomes of the clients. -/
theorem step_post (hw : s.Wf) (hfresh : s.ResumesFresh i) (hr : s.RestoresApart i)
    (h : s.step i = some s') : s.Post i s' (mail (s.news s')) := by
  by_cases hren : ∃ old new, i = .projectRename old new
  · obtain ⟨old, new, rfl⟩ := hren
    exact rename_post hw h
  have hi : ∀ old new, i ≠ .projectRename old new := fun old new he => hren ⟨old, new, he⟩
  cases hrep : s.reporting i with
  | some r => exact report_post hw hr h hrep
  | none =>
      cases hsave : s.saving i with
      | some b => exact save_post hw hr h hsave
      | none =>
          rcases hw.step_answers h with hun | ⟨b, act, hm, hexp⟩
          · have hnews : s.news s' = [] := news_of_log (hun.log.trans (List.append_nil _).symm)
            rw [hnews]
            refine .quiet hrep ?_
            intro n a d hd
            have hlive := hd.live
            have hloaded := hd.loaded
            rw [hun.project] at hlive
            rw [hun.loaded] at hloaded
            exact ⟨d, ⟨hloaded, hlive, hd.name⟩, rfl, rfl, by rw [hun.project]⟩
          · cases act with
            | join c =>
                obtain ⟨-, sender, pid, cls, flags, wd, argv, rfl⟩ := hexp
                exact connect_post hw hr h hm (Or.inl ⟨c, rfl⟩) trivial
            | resume c answer =>
                have hok := hfresh.act hexp
                obtain ⟨x, hx, -⟩ := hexp
                cases i with
                | connect sender pid cls flags wd argv id =>
                    exact connect_post hw hr h hm (Or.inr ⟨c, answer, rfl⟩) hok
                | _ => exact absurd hx (by simp [resuming])
            | complete c ok written =>
                obtain ⟨t, x, hx, -⟩ := hexp
                rw [hrep] at hx
                exact absurd hx (by simp)
            | save asked written =>
                have hx : s.saving i = some b := hexp.1
                rw [hsave] at hx
                exact absurd hx (by simp)
            | quiet | leave | close | restore | launch | depend | undepend =>
                exact tranquil_post hw hr h hi hrep hm trivial

/-! ## The reply to `Connect` -/

/-- The client that a project got is the one that is looked up. -/
theorem connected_lists {t : Server} {u : Session} {c d : Client} (hb : b ∈ t.loaded)
    (hold : ∀ e ∈ (t.project b).clients, e.addr ≠ c.addr) (hname : c.dbusName = some sender)
    (hlive : Session.LiveFrom { g := g, p := t.project b } c u)
    (hfind : (u.p.clients.find? (fun e => e.addr = c.addr)) = some d) :
    (t.setSession b u).Lists sender b d := by
  have hd := List.mem_of_find?_eq_some hfind
  have haddr : d.addr = c.addr := by
    have hfound := List.find?_some hfind
    exact of_decide_eq_true hfound
  refine ⟨hb, by rw [setSession_project_self]; exact hd, ?_⟩
  rcases hlive d hd with ⟨e, he, hsame⟩ | hsame
  · exact absurd (hsame.1.symm.trans haddr) (hold e he)
  · exact hsame.2.trans hname

/-- Whoever connects is a live client then. -/
theorem addClient_lists (hw : s.Wf) {pid : Int} {cls : CStr} {flags : Flags} {wd : CStr}
    {argv : List CStr} {id : Uuid} {x : Addr}
    (h : s.addClient sender pid cls flags wd argv id = some (s', a, x)) :
    ∃ d, (s'.project a).clients.find? (fun c => c.addr = x) = some d ∧ s'.Lists sender a d := by
  have hfound : ∀ {l : List Client} {y : Addr}, y ∈ l.map Client.addr →
      ∃ d, l.find? (fun c => c.addr = y) = some d := by
    intro l y hy
    obtain ⟨c, hc, rfl⟩ := List.mem_map.mp hy
    rw [← Option.isSome_iff_exists, List.find?_isSome]
    exact ⟨c, hc, decide_eq_true rfl⟩
  unfold addClient at h
  split at h
  · next b c hfind =>
      obtain ⟨u, hu, he⟩ := Option.map_eq_some_iff.mp h
      simp only [Prod.mk.injEq] at he
      obtain ⟨rfl, rfl, rfl⟩ := he
      have hfind' := hfind
      rw [if_neg (by rintro rfl; simp at hfind)] at hfind'
      obtain ⟨hb, hc, -⟩ := findClient_some hfind'
      obtain ⟨-, hmem, -⟩ := clientResumeProject_spec hu
      obtain ⟨d, hd⟩ := hfound hmem
      rw [setSession_project_self]
      refine ⟨d, hd, connected_lists (c := c.reconnect sender) hb ?_ rfl
        (clientResumeProject_live hu) hd⟩
      intro e he
      exact (hw.distinct b).ne (List.mem_map_of_mem he) (List.mem_map_of_mem hc)
  · dsimp only at h
    split at h
    · exact absurd h (by simp)
    · next t b hborn =>
        obtain ⟨u, hu, he⟩ := Option.map_eq_some_iff.mp h
        simp only [Prod.mk.injEq] at he
        obtain ⟨rfl, rfl, rfl⟩ := he
        have hb := hw.newborn hborn
        obtain ⟨-, -, d₁, e, -, haddr, -, hnamed, hclients⟩ := projectNewClient_spec hu
        have headdr : e.addr = s.g.nextAddr :=
          (congrArg Job.addr (projectNameClient_job hnamed)).trans haddr
        obtain ⟨d, hd⟩ := hfound (l := u.p.clients) (y := s.g.nextAddr) (by
          rw [hclients]
          refine List.mem_map.mpr ⟨e, ?_, headdr⟩
          exact Keyed.mem_put_self List.mem_cons_self (haddr.trans headdr.symm))
        rw [setSession_project_self]
        refine ⟨d, hd, connected_lists
          (c := newClient s.g.nextAddr sender pid cls flags wd argv) hb.mem ?_ rfl
          (projectNewClient_live hu) hd⟩
        intro f hf hfe
        have hj : f.job ∈ ((t.project b).view (decide (b ∈ s.loaded))).live :=
          List.mem_map_of_mem hf
        rw [hb.view] at hj
        have hlt := hw.bound b f.addr (List.mem_map_of_mem (List.mem_append_left _ hj))
        exact Nat.lt_irrefl _ (hfe ▸ hlt)

/-- **The reply to `Connect` describes the client** that is live under the name of the sender. -/
theorem connect_reply (hw : s.Wf) {sender : CStr} {pid : Int} {cls : CStr} {flags : Flags}
    {wd : CStr} {argv : List CStr} {id : Uuid} {r : Reply}
    (h : s.handle (.connect sender pid cls flags wd argv id) = some (s', r)) :
    ∃ a c, s'.Lists sender a c ∧ r = .client c.idStr (c.name.getD []) (s'.project a).name
      (c.dataPath.getD []) c.flags (c.workingDir.getD []) := by
  simp only [handle, dbusConnect] at h
  split at h
  · exact absurd h (by simp)
  · next t a x hadd =>
      obtain ⟨d, hfind, hd⟩ := addClient_lists hw hadd
      simp only [hfind] at h
      obtain ⟨rfl, rfl⟩ := Prod.mk.inj (Option.some.inj h)
      exact ⟨a, d, hd, rfl⟩

end Server

end Lash
