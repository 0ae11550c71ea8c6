import Lash.Owing

/-!
# A pending task belongs to the connection

A client is one process after another: it is lost, launched again and resumed under a new D-Bus
name. This module asks when the task a client is said to have was given to the process that is
there now. `client_resume_project` keeps the task of the process before if it gives the client no
new one, so the answer is: as long as nobody who still had a task is resumed that way.
-/

namespace Lash

/-- An event that gives a task to the client at an address, under its name on the bus. -/
def Event.Gives (a x : Addr) (name : CStr) (task : Nat) : Event → Prop
  | .save b _ t => b = a ∧ t = task
  | .load b y dest t _ => b = a ∧ y = x ∧ dest = name ∧ t = task
  | .loadDataSet b y dest t _ => b = a ∧ y = x ∧ dest = name ∧ t = task
  | _ => False

/-- The client at an address connected last under a name; `post` is what happened since. -/
def ConnectedSince (a x : Addr) (name : CStr) (post log : List Event) : Prop :=
  ∃ pre, log = pre ++ .connected a x name :: post ∧ ∀ n, Event.connected a x n ∉ post

theorem ConnectedSince.append {a x : Addr} {name : CStr} {post log evs : List Event}
    (h : ConnectedSince a x name post log) (hno : ∀ n, Event.connected a x n ∉ evs) :
    ConnectedSince a x name (post ++ evs) (log ++ evs) := by
  obtain ⟨pre, rfl, hpost⟩ := h
  refine ⟨pre, by simp, ?_⟩
  intro n hm
  rcases List.mem_append.mp hm with hm | hm
  · exact hpost n hm
  · exact hno n hm

/-- A task that the client has was given to it since it connected. -/
def Job.Informed (a : Addr) (log : List Event) (c : Job) : Prop :=
  ∃ name post, ConnectedSince a c.addr name post log ∧ c.dbusName = some name ∧
    (c.pendingTask ≠ 0 → c.taskType ≠ .unknown ∧ ∃ e ∈ post, e.Gives a c.addr name c.pendingTask)

namespace Job.Informed

variable {a : Addr} {log evs : List Event} {c d : Job}

theorem append (h : c.Informed a log) (hno : ∀ n, Event.connected a c.addr n ∉ evs) :
    c.Informed a (log ++ evs) := by
  obtain ⟨name, post, hconn, hname, hgive⟩ := h
  refine ⟨name, post ++ evs, hconn.append hno, hname, ?_⟩
  intro hp
  obtain ⟨htype, e, he, hg⟩ := hgive hp
  exact ⟨htype, e, List.mem_append_left _ he, hg⟩

/-- The client has the same task as before, or none. -/
theorem congr (h : c.Informed a log) (haddr : d.addr = c.addr) (hname : d.dbusName = c.dbusName)
    (htask : d.pendingTask ≠ 0 → d.pendingTask = c.pendingTask ∧ d.taskType = c.taskType) :
    d.Informed a log := by
  obtain ⟨name, post, hconn, hn, hgive⟩ := h
  refine ⟨name, post, haddr ▸ hconn, hname.trans hn, ?_⟩
  intro hp
  obtain ⟨hpend, htype⟩ := htask hp
  rw [hpend] at hp
  rw [hpend, htype, haddr]
  exact hgive hp

/-- A client that has just connected. -/
theorem new {name : CStr} (hname : c.dbusName = some name)
    (hno : ∀ n, Event.connected a c.addr n ∉ evs)
    (hgive : c.pendingTask ≠ 0 →
      c.taskType ≠ .unknown ∧ ∃ e ∈ evs, e.Gives a c.addr name c.pendingTask) :
    c.Informed a (log ++ .connected a c.addr name :: evs) :=
  ⟨name, evs, ⟨log, rfl, hno⟩, hname, hgive⟩

/-- The client was given a task now. -/
theorem give {task : Nat} {type : EventType} (h : c.Informed a log) (htype : type ≠ .unknown)
    (hno : ∀ n, Event.connected a c.addr n ∉ evs)
    (hgive : ∀ name, c.dbusName = some name → ∃ e ∈ evs, e.Gives a c.addr name task) :
    (c.give task type).Informed a (log ++ evs) := by
  obtain ⟨name, post, hconn, hname, _⟩ := h
  obtain ⟨e, he, hg⟩ := hgive name hname
  exact ⟨name, post ++ evs, hconn.append hno, hname,
    fun _ => ⟨htype, e, List.mem_append_right _ he, hg⟩⟩

end Job.Informed

/-- No client connects when a task is counted down. -/
theorem connected_not_mem_countEvents {v : View} {a b x : Addr} {pname n : CStr}
    {written modified : Bool} {type : EventType} :
    Event.connected b x n ∉ v.countEvents a pname written modified type := by
  unfold View.countEvents finishEvents
  split
  · cases type <;> cases written <;> cases modified <;> simp
  · simp

theorem connected_not_mem_launchEvents {a b x : Addr} {n : CStr} {l : List Job} :
    Event.connected b x n ∉ launchEvents a l := by
  simp [launchEvents]

theorem connected_not_mem_finishEvents {a b x : Addr} {pname n : CStr} {written modified : Bool}
    {type : EventType} : Event.connected b x n ∉ finishEvents a pname written modified type := by
  unfold finishEvents
  cases type <;> cases written <;> cases modified <;> simp

/-- A client that is back and had no task, or is given one. -/
def Act.ResumesFresh : Act → Prop
  | .resume c answer => c.pendingTask = 0 ∨ answer = .sent
  | _ => True

/-- **One move** keeps every live client informed, if who is resumed has no old task. -/
theorem Move.informed {a : Addr} {v v' : View} {act : Act} {evs log : List Event}
    (h : Move a v act evs v') (hd : v.Distinct) (hok : act.ResumesFresh)
    (hI : ∀ c ∈ v.live, c.Informed a log) : ∀ c ∈ v'.live, c.Informed a (log ++ evs) := by
  -- clients that the move does not touch
  have hold : (∀ c ∈ v.live, ∀ n, Event.connected a c.addr n ∉ evs) →
      ∀ c ∈ v.live, c.Informed a (log ++ evs) :=
    fun hno c hc => (hI c hc).append (hno c hc)
  -- clients when one of them was written back with its old task or none
  have hput : ∀ {c d : Job}, c ∈ v.live → (∀ x n, Event.connected a x n ∉ evs) →
      d.addr = c.addr → d.dbusName = c.dbusName →
      (d.pendingTask ≠ 0 → d.pendingTask = c.pendingTask ∧ d.taskType = c.taskType) →
      ∀ e ∈ (v.put d).live, e.Informed a (log ++ evs) := by
    intro c d hc hno haddr hname htask e he
    rcases Keyed.eq_or_mem_of_mem_put he with rfl | he
    · exact ((hI c hc).append (hno _)).congr haddr hname htask
    · exact (hI e he).append (hno _)
  -- clients when `d` was revived
  have hrevive : ∀ (name : CStr) (d : Job) {c : Job} {rest : List Event}, c ∈ v.lost →
      d.addr = c.addr → d.dbusName = some name → evs = .connected a d.addr name :: rest →
      (∀ x n, Event.connected a x n ∉ rest) →
      (d.pendingTask ≠ 0 → d.taskType ≠ .unknown ∧
        ∃ e ∈ rest, e.Gives a d.addr name d.pendingTask) →
      ∀ e ∈ (v.revive d).live, e.Informed a (log ++ evs) := by
    intro name d c rest hc haddr hname hevs hrest hgive e he
    rw [hevs]
    rcases List.mem_cons.mp he with rfl | he
    · exact .new hname (hrest _) hgive
    · refine (hI e he).append ?_
      intro n hm
      rcases List.mem_cons.mp hm with heq | hm
      · injection heq with _ haddr' _
        exact hd.ne he hc (haddr'.trans haddr)
      · exact hrest _ n hm
  cases h with
  | quiet => exact hold (by simp)
  | @join c name fresh idle hnew deps hname =>
      intro e he
      rcases List.mem_cons.mp he with rfl | he
      · exact .new hname (by simp) (fun hp => absurd idle.pendingTask hp)
      · refine (hI e he).append ?_
        intro n hm
        rw [List.mem_singleton] at hm
        injection hm with _ haddr _
        exact fresh (haddr ▸ List.mem_map_of_mem (List.mem_append_left _ he))
  | leave hc => exact fun e he => hold (by simp) e (Keyed.mem_of_mem_del he)
  | @sent c name task type ev hc hpid ht hev =>
      refine hrevive name ((c.reconnect name).give task type) hc rfl rfl rfl ?_ ?_
      · cases hev <;> simp
      · intro _
        cases hev with
        | load path =>
            exact ⟨by simp [Job.give], .load a c.addr name task path, by simp, rfl, rfl, rfl, rfl⟩
        | loadDataSet configs =>
            exact ⟨by simp [Job.give], .loadDataSet a c.addr name task configs, by simp, rfl, rfl,
              rfl, rfl⟩
  | @silent c name hc hpid =>
      refine hrevive name (c.reconnect name) hc rfl rfl rfl (by simp) ?_
      exact fun hp => absurd (hok.resolve_right (by simp)) hp
  | @stateless c name pname written modified hc hpid =>
      rw [View.live_count]
      refine hrevive name { c.reconnect name with taskType := .unknown } hc rfl rfl rfl ?_ ?_
      · intro x n hm
        rcases List.mem_cons.mp hm with heq | hm
        · exact absurd heq (by simp)
        · exact connected_not_mem_countEvents hm
      · exact fun hp => absurd (hok.resolve_right (by simp)) hp
  | cleared hc hp ht =>
      exact hput (d := Job.done _ _) hc (by simp) rfl rfl (fun hp => absurd rfl hp)
  | failed hc hp ht | saved hc hp ht =>
      rw [View.live_count]
      refine hput (d := Job.done _ _) hc ?_ rfl rfl (fun hp => absurd rfl hp)
      intro x n hm
      rcases List.mem_cons.mp hm with heq | hm
      · exact absurd heq (by simp)
      · exact connected_not_mem_countEvents hm
  | restored hc hp ht hlost =>
      rw [View.live_count]
      refine hput (d := Job.done _ _) hc ?_ rfl rfl (fun hp => absurd rfl hp)
      intro x n hm
      rcases List.mem_cons.mp hm with heq | hm
      · exact absurd heq (by simp)
      · rcases List.mem_append.mp hm with hm | hm
        · exact connected_not_mem_launchEvents hm
        · exact connected_not_mem_countEvents hm
  | skipped htask hc hp hevs =>
      refine hold ?_
      intro e he n hm
      rcases List.mem_cons.mp hm with heq | hm
      · exact absurd heq (by simp [beginEvent])
      · rcases hevs with rfl | ⟨_, _, rfl⟩
        · exact absurd hm (by simp)
        · exact connected_not_mem_finishEvents hm
  | @asked name task evs' written htask hp ht hevs =>
      have hno : ∀ x n, Event.connected a x n
          ∉ beginEvent a v :: (askEvents a name task v ++ evs') := by
        intro x n hm
        rcases List.mem_cons.mp hm with heq | hm
        · exact absurd heq (by simp [beginEvent])
        · rcases List.mem_append.mp hm with hm | hm
          · simp [askEvents] at hm
          · rcases hevs with ⟨_, rfl⟩ | ⟨_, _, rfl⟩
            · exact absurd hm (by simp)
            · exact connected_not_mem_finishEvents hm
      intro e he
      obtain ⟨c, hc, rfl⟩ := List.mem_map.mp he
      unfold Job.ask
      split
      · refine (hI c hc).give (by split <;> simp) (hno _) ?_
        intro n _
        exact ⟨.save a name task, by simp [askEvents], rfl, rfl⟩
      · exact hold (fun c _ => hno _) c hc
  | close => exact fun e he => absurd he (by simp)
  | restore hl hj => 
      have hlive := (List.append_eq_nil_iff.mp hj).1
      intro e he
      rw [show e ∈ _ ↔ e ∈ v.live from Iff.rfl, hlive] at he
      exact absurd he (by simp)
  | launch hc => exact hold (by simp)
  | @depend c id hc =>
      exact hput (d := { c with dependencies := id :: c.dependencies }) hc (by simp) rfl rfl
        (fun _ => ⟨rfl, rfl⟩)
  | @undepend c id hc =>
      exact hput (d := { c with dependencies := c.dependencies.erase id }) hc (by simp) rfl rfl
        (fun _ => ⟨rfl, rfl⟩)

/-! ## The server -/

/-- A task that the client has was given to it since it connected. -/
def Client.Informed (a : Addr) (log : List Event) (c : Client) : Prop :=
  c.pendingTask ≠ 0 → c.taskType ≠ .unknown ∧
    ∃ name post, c.dbusName = some name ∧ ConnectedSince a c.addr name post log ∧
      ∃ e ∈ post, e.Gives a c.addr name c.pendingTask

/-- What a project's part of the log says about a connection, the log says. -/
theorem ConnectedSince.of_tasks {a x : Addr} {name : CStr} {post log : List Event}
    (h : ConnectedSince a x name post (tasks a log)) :
    ∃ post', ConnectedSince a x name post' log ∧ ∀ e ∈ post, e ∈ post' := by
  obtain ⟨pre, hlog, hpost⟩ := h
  obtain ⟨l₁, l₂, rfl, _, hcons⟩ := List.filter_eq_append_iff.mp hlog
  obtain ⟨m, l, rfl, _, _, hl⟩ := List.filter_eq_cons_iff.mp hcons
  refine ⟨l, ⟨l₁ ++ m, by simp, ?_⟩, ?_⟩
  · intro n hm
    apply hpost n
    rw [← hl]
    exact List.mem_filter.mpr ⟨hm, by simp [Event.project, Event.isTask]⟩
  · intro e he
    rw [← hl] at he
    exact (List.mem_filter.mp he).1

namespace Server

/-- Every task that a client of a loaded project has was given to the process that is connected. -/
def Informed (s : Server) : Prop :=
  ∀ a ∈ s.loaded, ∀ c ∈ (s.project a).clients, c.Informed a s.g.log

/-- If the input brings back a client that still has a task, the client is sent another one. -/
def ResumesFresh (s : Server) (i : Input) : Prop :=
  ∀ r ∈ s.resuming i, r.2.pendingTask = 0 ∨ s.answer i = some .sent

instance (s : Server) (i : Input) : Decidable (s.ResumesFresh i) :=
  inferInstanceAs (Decidable (∀ r ∈ s.resuming i, _))

theorem ResumesFresh.act {s : Server} {i : Input} {a : Addr} {act : Act} (h : s.ResumesFresh i)
    (hexp : s.Explains i a act) : act.ResumesFresh := by
  cases act with
  | resume c answer =>
      obtain ⟨x, hx, rfl, hans⟩ := hexp
      rcases h (a, x) hx with h | h
      · exact Or.inl h
      · exact Or.inr (Option.some.inj (hans.symm.trans h))
  | _ => trivial

/-- **A pending task belongs to the connection**, as long as every client that is back with an old
task gets a new one. -/
theorem pending_task_of_connection {fs : Fs} {dir : CStr} {s : Server}
    (h : Reachable ResumesFresh fs dir s) : s.Informed := by
  intro a _ c hc hp
  have hjobs : ∀ d ∈ (s.view a).live, d.Informed a (tasks a s.g.log) := by
    refine h.induction (I := fun v log => ∀ d ∈ v.live, d.Informed a log) a
      (by simp [Project.view, projectNew]) ?_
    intro s i v' act evs hw hok hexp hmove hI
    exact hmove.informed (hw.distinct a) (hok.act hexp) hI
  obtain ⟨name, post, hconn, hname, hgive⟩ := hjobs c.job (List.mem_map_of_mem hc)
  obtain ⟨htype, e, he, hg⟩ := hgive hp
  obtain ⟨post', hconn', hsub⟩ := hconn.of_tasks
  exact ⟨htype, name, post', hname, hconn', e, hsub e he, hg⟩

/-- A client that never finished a save is lost during its first one, launched by hand and back: it
is taken for a stateless client, with the old task. -/
theorem pending_task_outlives_connection :
    ∃ s, Reachable FreshId emptyDisk (cstr "/p") s ∧ ¬ s.Informed := by
  have hrun : (runFrom FreshId
      [.connect (cstr ":1") 5 (cstr "synth") flagConfigFile [] [cstr "synth"] 1,
        .projectSave (cstr "New Project"),
        .nameLost (cstr ":1"),
        .outside emptyDisk [7],
        .lostClientLaunch (cstr "New Project") (uuidUnparse 1),
        .connect (cstr ":2") 7 (cstr "synth") flagConfigFile [] [cstr "synth"] 2]).any
      (fun s => s.loaded.any (fun a => (s.project a).clients.any
        (fun c => c.pendingTask ≠ 0 ∧ c.taskType = .unknown))) = true := by
    decide +kernel
  obtain ⟨s, hs, hbad⟩ := exists_of_runFrom hrun
  refine ⟨s, hs, ?_⟩
  intro hinf
  obtain ⟨a, ha, hbad⟩ := List.any_eq_true.mp hbad
  obtain ⟨c, hc, hbad⟩ := List.any_eq_true.mp hbad
  obtain ⟨hp, htype⟩ := of_decide_eq_true hbad
  exact (hinf a ha c hc hp).1 htype

/-- Here it had been saved before, so it is sent a new task. -/
theorem pending_task_of_connection_reload :
    ∃ s, Reachable ResumesFresh emptyDisk (cstr "/p") s ∧ s.Informed ∧
      ∃ a ∈ s.loaded, ∃ c ∈ (s.project a).clients, c.pendingTask = 3 := by
  have hrun : (runFrom ResumesFresh
      [.connect (cstr ":1") 5 (cstr "synth") flagConfigFile [] [cstr "synth"] 1,
        .projectSave (cstr "New Project"),
        .progress (cstr ":1") [.uint64 1, .byte 255],
        .projectSave (cstr "New Project"),
        .nameLost (cstr ":1"),
        .outside emptyDisk [7],
        .lostClientLaunch (cstr "New Project") (uuidUnparse 1),
        .connect (cstr ":2") 7 (cstr "synth") flagConfigFile [] [cstr "synth"] 2]).any
      (fun s => s.loaded.any (fun a => (s.project a).clients.any
        (fun c => c.pendingTask = 3))) = true := by
    decide +kernel
  obtain ⟨s, hs, hpend⟩ := exists_of_runFrom hrun
  refine ⟨s, hs, pending_task_of_connection hs, ?_⟩
  obtain ⟨a, ha, hpend⟩ := List.any_eq_true.mp hpend
  obtain ⟨c, hc, hpend⟩ := List.any_eq_true.mp hpend
  exact ⟨a, ha, c, hc, of_decide_eq_true hpend⟩

end Server

end Lash
