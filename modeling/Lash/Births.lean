import Lash.Deeds

/-!
# The programs that a step starts

`project_launch_client` forks a program for a lost client, and `loader_execute` notes the pid of
it in two places: in the client and in the loader's list of children. `Server.births` pairs, for
one step, the clients that were launched with the children that were added; `Server.step_births`
says that the child that was born for a client has the client's pid.
-/

namespace Lash

/-! ## Launches in the log -/

/-- The client that an event launches, and its project. -/
def Event.launches : Event → Option (Addr × Addr)
  | .launched a x => some (a, x)
  | _ => none

/-- The clients that were launched, one after another. -/
def launches (log : List Event) : List (Addr × Addr) := log.filterMap Event.launches

@[simp] theorem launches_nil : launches [] = [] := rfl

@[simp] theorem launches_append (l l' : List Event) :
    launches (l ++ l') = launches l ++ launches l' := List.filterMap_append

theorem mem_launches {a x : Addr} {log : List Event} :
    (a, x) ∈ launches log ↔ .launched a x ∈ log := by
  unfold launches
  rw [List.mem_filterMap]
  constructor
  · rintro ⟨e, he, heq⟩
    cases e <;> simp only [Event.launches, Option.some.injEq, Prod.mk.injEq, reduceCtorEq] at heq
    obtain ⟨rfl, rfl⟩ := heq
    exact he
  · exact fun h => ⟨_, h, rfl⟩

theorem launches_eq_nil {log : List Event}
    (h : ∀ a x, .launched a x ∉ log) : launches log = [] := by
  rw [List.eq_nil_iff_forall_not_mem]
  rintro ⟨a, x⟩ hm
  exact h a x (mem_launches.mp hm)

/-- Launches are about tasks. -/
theorem launches_filter_isTask (log : List Event) :
    launches (log.filter Event.isTask) = launches log := by
  induction log with
  | nil => rfl
  | cons e log ih =>
      by_cases he : e.isTask = true
      · rw [List.filter_cons_of_pos he, launches, launches, List.filterMap_cons,
          List.filterMap_cons]
        rw [launches, launches] at ih
        rw [ih]
      · rw [List.filter_cons_of_neg he, ih, launches, launches, List.filterMap_cons]
        cases e <;> first | rfl | exact absurd rfl he

/-! ## What a step adds -/

namespace Server

/-- The events of a step. -/
def news (s t : Server) : List Event := t.g.log.drop s.g.log.length

/-- The clients that a step launched, each with the entry that the loader made for it. -/
def births (s t : Server) : List ((Addr × Addr) × Child) :=
  (launches (s.news t)).zip (t.g.childs.drop s.g.childs.length)

theorem news_of_log {s t : Server} {es : List Event} (h : t.g.log = s.g.log ++ es) :
    s.news t = es := by
  rw [news, h, List.drop_left]

end Server

/-! ## Functions that start nothing -/

/-- Nobody is launched, and the loader has the children of before. -/
structure Barren (g g' : Globals) : Prop where
  childs : g'.childs = g.childs
  log : ∃ es, g'.log = g.log ++ es ∧ launches es = []

namespace Barren

variable {g g' g'' : Globals}

theorem of_eq (hchilds : g'.childs = g.childs) (hlog : g'.log = g.log) : Barren g g' :=
  ⟨hchilds, [], by rw [hlog, List.append_nil], rfl⟩

theorem trans (h : Barren g g') (h' : Barren g' g'') : Barren g g'' := by
  obtain ⟨es, hlog, hes⟩ := h.log
  obtain ⟨es', hlog', hes'⟩ := h'.log
  refine ⟨h'.childs.trans h.childs, es ++ es', ?_, ?_⟩
  · rw [hlog', hlog, List.append_assoc]
  · rw [launches_append, hes, hes', List.append_nil]

theorem emit (g : Globals) {e : Event} (he : e.launches = none) : Barren g (g.emit e) :=
  ⟨rfl, [e], rfl, by rw [launches, List.filterMap_cons_none he, List.filterMap_nil]⟩

end Barren

theorem Session.emit_barren (s : Session) {e : Event} (he : e.launches = none) :
    Barren s.g (s.emit e).g := .emit s.g he

theorem projectSetModifiedStatus_barren (s : Session) (status : Bool) :
    Barren s.g (projectSetModifiedStatus s status).g := by
  unfold projectSetModifiedStatus
  split
  · exact .of_eq rfl rfl
  · exact Session.emit_barren { s with p := { s.p with modifiedStatus := status } } rfl

theorem projectWriteInfo_barren (s : Session) : Barren s.g (projectWriteInfo s).2.g := by
  unfold projectWriteInfo
  dsimp only
  generalize s.g.fs.xmlSaveFile _ _ = r
  obtain ⟨ok, fs⟩ := r
  dsimp only
  have hfs : Barren s.g { s.g with fs := fs } := .of_eq rfl rfl
  split
  · exact hfs.trans (.emit _ rfl)
  · exact hfs

theorem projectClientProgress_barren (s : Session) (c : Client) (n : Nat) :
    Barren s.g (projectClientProgress s c n).1.g := by
  unfold projectClientProgress
  dsimp only
  split
  · exact .of_eq rfl rfl
  · exact .emit s.g rfl

/-- The signals at the end of a task. -/
theorem signals_barren (s : Session) {e : Event} (he : e.launches = none) (n : Nat) :
    Barren s.g (projectSetModifiedStatus ((s.emit (.progress s.p.addr n)).emit e) false).g := by
  have hprogress : Barren s.g (s.emit (.progress s.p.addr n)).g := s.emit_barren rfl
  have hsignal := (s.emit (.progress s.p.addr n)).emit_barren he
  exact (hprogress.trans hsignal).trans (projectSetModifiedStatus_barren _ false)

theorem projectClientsSaveComplete_barren (s : Session) :
    Barren s.g (projectClientsSaveComplete s).g :=
  (projectWriteInfo_barren s).trans (signals_barren _ rfl 100)

theorem projectLoaded_barren (s : Session) : Barren s.g (projectLoaded s).g :=
  signals_barren s rfl 100

theorem projectTaskFinished_barren (s : Session) (c : Client) :
    Barren s.g (projectTaskFinished s c).g := by
  have hstart : Barren s.g (s.emit (.taskFinished s.p.addr s.p.taskType)).g := s.emit_barren rfl
  unfold projectTaskFinished
  refine hstart.trans ?_
  generalize s.emit (.taskFinished s.p.addr s.p.taskType) = t
  have hsaved : ∀ p, Barren t.g (projectClientsSaveComplete { g := t.g, p := p }).g :=
    fun p => projectClientsSaveComplete_barren { g := t.g, p := p }
  have hloaded : ∀ p, Barren t.g (projectLoaded { g := t.g, p := p }).g :=
    fun p => projectLoaded_barren { g := t.g, p := p }
  dsimp only
  split
  · exact hsaved _
  · exact hsaved _
  · exact hloaded _
  · exact hloaded _
  · exact .of_eq rfl rfl

theorem projectClientTaskCompleted_barren (s : Session) (c : Client) :
    Barren s.g (projectClientTaskCompleted s c).1.g := by
  unfold projectClientTaskCompleted
  refine (projectClientProgress_barren s c 100).trans ?_
  generalize projectClientProgress s c 100 = r
  obtain ⟨t, d⟩ := r
  show Barren t.g (projectCountDown t d).g
  have hfinished : ∀ p, Barren t.g (projectTaskFinished { g := t.g, p := p } d).g :=
    fun p => projectTaskFinished_barren { g := t.g, p := p } d
  unfold projectCountDown
  split
  · exact .of_eq rfl rfl
  · dsimp only
    split
    · exact hfinished _
    · exact .of_eq rfl rfl

/-! ## Functions that launch -/

/-- Some clients of project `a` were launched: each has an entry in the loader's list, and is one of
the clients in `lost`, with the pid of its entry. -/
structure Hatched (a : Addr) (g g' : Globals) (lost : List Client) (bs : List (Addr × Child)) :
    Prop where
  childs : g'.childs = g.childs ++ bs.map Prod.snd
  log : ∃ es, g'.log = g.log ++ es ∧ launches es = bs.map (fun b => (a, b.1))
  slot : ∀ b ∈ bs, ∃ c ∈ lost, c.addr = b.1 ∧ c.pid = b.2.pid

namespace Hatched

variable {a : Addr} {g g' g'' : Globals} {lost lost' : List Client} {c : Client}
  {bs : List (Addr × Child)}

theorem of_barren (h : Barren g g') : Hatched a g g' lost [] where
  childs := by rw [h.childs, List.map_nil, List.append_nil]
  log := h.log
  slot := by simp

/-- One client was launched first. -/
theorem cons {x : Addr} {k : Child} (h : Hatched a g g' [c] [(x, k)])
    (h' : Hatched a g' g'' lost bs) : Hatched a g g'' (c :: lost) ((x, k) :: bs) := by
  obtain ⟨es, hlog, hes⟩ := h.log
  obtain ⟨es', hlog', hes'⟩ := h'.log
  refine ⟨?_, ⟨es ++ es', ?_, ?_⟩, ?_⟩
  · rw [h'.childs, h.childs, List.append_assoc]
    rfl
  · rw [hlog', hlog, List.append_assoc]
  · rw [launches_append, hes, hes']
    rfl
  · intro b hb
    rcases List.mem_cons.mp hb with rfl | hb
    · obtain ⟨d, hd, hslot⟩ := h.slot (x, k) (by simp)
      rw [List.mem_singleton] at hd
      exact ⟨d, by simp [hd], hslot⟩
    · obtain ⟨d, hd, hslot⟩ := h'.slot b hb
      exact ⟨d, List.mem_cons_of_mem _ hd, hslot⟩

/-- A client was passed over. -/
theorem skip (h : Hatched a g g' lost bs) : Hatched a g g' (c :: lost) bs where
  childs := h.childs
  log := h.log
  slot := by
    intro b hb
    obtain ⟨d, hd, hslot⟩ := h.slot b hb
    exact ⟨d, List.mem_cons_of_mem _ hd, hslot⟩

/-- Something was done before that launches nobody. -/
theorem after (hb : Barren g g') (h : Hatched a g' g'' lost bs) : Hatched a g g'' lost bs := by
  obtain ⟨es, hlog, hes⟩ := hb.log
  obtain ⟨es', hlog', hes'⟩ := h.log
  refine ⟨by rw [h.childs, hb.childs], ⟨es ++ es', ?_, ?_⟩, h.slot⟩
  · rw [hlog', hlog, List.append_assoc]
  · rw [launches_append, hes, hes', List.nil_append]

/-- Something was done afterwards that launches nobody. -/
theorem before (h : Hatched a g g' lost bs) (hb : Barren g' g'') : Hatched a g g'' lost bs := by
  obtain ⟨es, hlog, hes⟩ := h.log
  obtain ⟨es', hlog', hes'⟩ := hb.log
  refine ⟨by rw [hb.childs, h.childs], ⟨es ++ es', ?_, ?_⟩, h.slot⟩
  · rw [hlog', hlog, List.append_assoc]
  · rw [launches_append, hes, hes', List.append_nil]

/-- The clients are in a list with these ones. -/
theorem mono (h : Hatched a g g' lost bs)
    (hsub : ∀ c ∈ lost, ∃ d ∈ lost', d.addr = c.addr ∧ d.pid = c.pid) :
    Hatched a g g' lost' bs := by
  refine ⟨h.childs, h.log, ?_⟩
  intro b hb
  obtain ⟨c, hc, haddr, hpid⟩ := h.slot b hb
  obtain ⟨d, hd, haddr', hpid'⟩ := hsub c hc
  exact ⟨d, hd, haddr'.trans haddr, hpid'.trans hpid⟩

end Hatched

/-- `project_launch_client` adds one child, and the client has its pid. -/
theorem projectLaunchClient_hatched {g g' : Globals} {p : Project} {c c' : Client}
    (h : projectLaunchClient g p c = some (g', c')) :
    ∃ k, Hatched p.addr g g' [c'] [(c.addr, k)] := by
  unfold projectLaunchClient loaderExecute at h
  split at h
  · exact absurd h (by simp)
  · obtain ⟨rfl, rfl⟩ := Prod.mk.inj (Option.some.inj h)
    refine ⟨_, rfl, ⟨[.launched p.addr c.addr], rfl, rfl⟩, ?_⟩
    intro b hb
    rw [List.mem_singleton] at hb
    rw [hb]
    exact ⟨_, List.mem_singleton_self _, rfl, rfl⟩

theorem satisfyLost_hatched {p : Project} {id : Uuid} {g g' : Globals} {l l' : List Client}
    (h : satisfyLost p id g l = some (g', l')) : ∃ bs, Hatched p.addr g g' l' bs := by
  induction l generalizing g l' with
  | nil =>
      obtain ⟨rfl, rfl⟩ := Prod.mk.inj (Option.some.inj h)
      exact ⟨[], .of_barren (.of_eq rfl rfl)⟩
  | cons c l ih =>
      -- the rest of the list, behind a client that is not launched
      have hskip : ∀ {d : Client}, (satisfyLost p id g l).map (fun r => (r.1, d :: r.2))
          = some (g', l') → ∃ bs, Hatched p.addr g g' l' bs := by
        intro d hd
        obtain ⟨⟨g₁, l₁⟩, h₁, he⟩ := Option.map_eq_some_iff.mp hd
        obtain ⟨rfl, rfl⟩ := Prod.mk.inj he
        obtain ⟨bs, hbs⟩ := ih h₁
        exact ⟨bs, hbs.skip⟩
      rw [satisfyLost] at h
      split at h
      · exact hskip h
      · dsimp only at h
        split at h
        · split at h
          · exact absurd h (by simp)
          · next g₁ c₁ hlaunch =>
              obtain ⟨k, hk⟩ := projectLaunchClient_hatched hlaunch
              obtain ⟨⟨g₂, l₂⟩, h₂, he⟩ := Option.map_eq_some_iff.mp h
              obtain ⟨rfl, rfl⟩ := Prod.mk.inj he
              obtain ⟨bs, hbs⟩ := ih h₂
              exact ⟨_, hk.cons hbs⟩
        · exact hskip h

theorem restoreClients_hatched {p : Project} {g g' : Globals} {l l' : List Client}
    (h : restoreClients p g l = some (g', l')) : ∃ bs, Hatched p.addr g g' l' bs := by
  induction l generalizing g l' with
  | nil =>
      obtain ⟨rfl, rfl⟩ := Prod.mk.inj (Option.some.inj h)
      exact ⟨[], .of_barren (.of_eq rfl rfl)⟩
  | cons c l ih =>
      rw [restoreClients] at h
      split at h
      · obtain ⟨⟨g₁, l₁⟩, h₁, he⟩ := Option.map_eq_some_iff.mp h
        obtain ⟨rfl, rfl⟩ := Prod.mk.inj he
        obtain ⟨bs, hbs⟩ := ih h₁
        exact ⟨bs, hbs.skip⟩
      · split at h
        · exact absurd h (by simp)
        · next g₁ c₁ hlaunch =>
            obtain ⟨k, hk⟩ := projectLaunchClient_hatched hlaunch
            obtain ⟨⟨g₂, l₂⟩, h₂, he⟩ := Option.map_eq_some_iff.mp h
            obtain ⟨rfl, rfl⟩ := Prod.mk.inj he
            obtain ⟨bs, hbs⟩ := ih h₂
            exact ⟨_, hk.cons hbs⟩

/-- A client reports the end of its task: the clients that waited for it alone are launched. -/
theorem clientTaskCompleted_hatched {s t : Session} {c : Client} {ok : Bool}
    (h : clientTaskCompleted s c ok = some t) :
    ∃ bs, Hatched s.p.addr s.g t.g t.p.lostClients bs := by
  unfold clientTaskCompleted at h
  dsimp only at h
  have hstart : Barren s.g (s.emit
      (.taskCompleted s.p.addr c.addr c.pendingTask c.taskType ok)).g := s.emit_barren rfl
  have hp : (s.emit (.taskCompleted s.p.addr c.addr c.pendingTask c.taskType ok)).p = s.p := rfl
  generalize s.emit (.taskCompleted s.p.addr c.addr c.pendingTask c.taskType ok) = u at h hstart hp
  split at h
  · rw [← Option.some.inj h]
    exact ⟨[], .of_barren hstart⟩
  · obtain ⟨⟨v, d⟩, hfin, rfl⟩ := Option.map_eq_some_iff.mp h
    dsimp only
    -- the task of the client itself launches whoever is launched
    have hown : ∃ bs, Hatched s.p.addr u.g v.g v.p.lostClients bs := by
      cases ok with
      | false =>
          obtain ⟨rfl, rfl⟩ := Prod.mk.inj (Option.some.inj hfin)
          exact ⟨[], .of_barren (.of_eq rfl rfl)⟩
      | true =>
          by_cases hrestore : c.taskType.isRestore
          · obtain ⟨rfl, g, lost, hsat, rfl⟩ := clientFinishTask_restore hrestore hfin
            rw [← hp]
            exact satisfyLost_hatched hsat
          · have hsave : c.taskType.isSave := by
              cases hty : c.taskType <;> simp_all [EventType.isSave, EventType.isRestore]
            obtain ⟨fs, flags, rfl, -⟩ := clientFinishTask_save hsave hfin
            exact ⟨[], .of_barren (.of_eq rfl rfl)⟩
    obtain ⟨bs, hbs⟩ := hown
    have hrest := projectClientTaskCompleted_barren v d
    refine ⟨bs, ((hbs.after hstart).before hrest).mono ?_⟩
    have hlost : ((projectClientTaskCompleted v d).1.p.lostClients).map Client.job
        = v.p.lostClients.map Client.job := by
      have hview := congrArg View.lost (projectClientTaskCompleted_view v d true)
      rw [View.lost_count] at hview
      exact hview
    intro e he
    have hmem : e.job ∈ v.p.lostClients.map Client.job := List.mem_map_of_mem he
    rw [← hlost] at hmem
    obtain ⟨f, hf, hjob⟩ := List.mem_map.mp hmem
    exact ⟨f, hf, congrArg Job.addr hjob, congrArg Job.pid hjob⟩

/-! ## Reading a project starts nothing -/

theorem projectLoad_barren {s t : Session} {ok : Bool} (h : projectLoad s = some (ok, t)) :
    Barren s.g t.g := by
  have hnode : ∀ {u v : Session} {n : XmlNode}, loadNode u n = some v →
      v.g.childs = u.g.childs ∧ v.g.log = u.g.log := by
    intro u v n hn
    unfold loadNode at hn
    split_ifs at hn
    · rw [← Option.some.inj hn]
      exact ⟨rfl, rfl⟩
    · split at hn
      · exact absurd hn (by simp)
      · rw [← Option.some.inj hn]
        exact ⟨rfl, rfl⟩
    · rw [← Option.some.inj hn]
      exact ⟨rfl, rfl⟩
  unfold projectLoad at h
  split at h
  · exact absurd h (by simp)
  · split at h
    · obtain ⟨rfl, rfl⟩ := Prod.mk.inj (Option.some.inj h)
      exact .of_eq rfl rfl
    · split at h
      · exact absurd h (by simp)
      · next u hu =>
          have hread := Runs.foldlM_invariant (s := s)
            (I := fun v => v.g.childs = s.g.childs ∧ v.g.log = s.g.log) ⟨rfl, rfl⟩
            (fun _ _ _ _ hv hn => ⟨(hnode hn).1.trans hv.1, (hnode hn).2.trans hv.2⟩) hu
          obtain ⟨rfl, rfl⟩ := Prod.mk.inj (Option.some.inj h)
          have hnotes : (projectLoadNotes u).g = u.g := by
            unfold projectLoadNotes
            split <;> rfl
          refine .of_eq ?_ ?_
          · exact (congrArg Globals.childs hnotes).trans hread.1
          · exact (congrArg Globals.log hnotes).trans hread.2

theorem projectRename_barren (s : Session) (name : CStr) : Barren s.g (projectRename s name).g := by
  unfold projectRename
  have hemit : ∀ p, Barren s.g (Session.emit { s with p := p }
      (.projectNameChanged s.p.addr s.p.name name)).g :=
    fun p => Session.emit_barren { s with p := p } rfl
  exact (hemit _).trans (projectSetModifiedStatus_barren _ true)

/-! ## Steps -/

/-- The inputs that can make the daemon launch clients. -/
def Input.mayLaunch : Input → Bool
  | .progress .. | .commitDataSet .. | .projectOpen .. | .loadProjectPath ..
  | .lostClientLaunch .. => true
  | _ => false

/-- The moves that can launch clients. -/
def Act.mayLaunch : Act → Bool
  | .complete .. | .restore _ | .launch _ => true
  | _ => false

theorem launches_finishEvents {a : Addr} {name : CStr} {written modified : Bool}
    {type : EventType} :
    launches (finishEvents a name written modified type) = [] := by
  unfold finishEvents
  cases type <;> cases written <;> cases modified <;> rfl

theorem launches_countEvents {v : View} {a : Addr} {name : CStr} {written modified : Bool}
    {type : EventType} : launches (v.countEvents a name written modified type) = [] := by
  unfold View.countEvents
  split
  · exact launches_finishEvents
  · rfl

theorem Move.launches_nil {a : Addr} {v v' : View} {act : Act} {evs : List Event}
    (h : Move a v act evs v') (hact : act.mayLaunch = false) : launches evs = [] := by
  cases h with
  | sent hc hpid htask he => cases he <;> rfl
  | stateless => exact launches_countEvents
  | skipped htask hc hp hevs =>
      rcases hevs with rfl | ⟨name, modified, rfl⟩
      · rfl
      · exact launches_finishEvents
  | asked htask hp ht hevs =>
      apply launches_eq_nil
      intro b x hm
      rcases List.mem_cons.mp hm with heq | hm
      · exact absurd heq (by simp [beginEvent])
      · rcases List.mem_append.mp hm with hm | hm
        · simp [askEvents] at hm
        · rcases hevs with ⟨-, rfl⟩ | ⟨-, modified, rfl⟩
          · exact absurd hm (by simp)
          · have hnil := mem_launches.mpr hm
            rw [launches_finishEvents] at hnil
            exact absurd hnil (by simp)
  | cleared | failed | saved | restored | restore | launch =>
      exact absurd hact (by simp [Act.mayLaunch])
  | quiet | join | leave | silent | close | depend | undepend => rfl

namespace Server

variable {s t : Server} {a : Addr} {i : Input}

/-- A lost client has a pid. -/
def Slot (s : Server) (b : Addr × Addr) (pid : Int) : Prop :=
  ∃ c ∈ (s.project b.1).lostClients, c.addr = b.2 ∧ c.pid = pid

theorem slot_iff {b : Addr × Addr} {pid : Int} :
    s.Slot b pid ↔ ∃ c ∈ (s.view b.1).lost, c.addr = b.2 ∧ c.pid = pid := by
  constructor
  · rintro ⟨c, hc, hslot⟩
    exact ⟨c.job, List.mem_map_of_mem hc, hslot⟩
  · rintro ⟨j, hj, hslot⟩
    obtain ⟨c, hc, rfl⟩ := List.mem_map.mp hj
    exact ⟨c, hc, hslot⟩

theorem reporting_mayLaunch {r : Addr × Session × Client × Bool} (h : s.reporting i = some r) :
    i.mayLaunch = true := by
  cases i with
  | progress | commitDataSet => rfl
  | _ => exact absurd h (by simp [reporting])

theorem restoring_mayLaunch (h : s.restoring i = some a) : i.mayLaunch = true := by
  cases i with
  | projectOpen | loadProjectPath => rfl
  | _ => exact absurd h (by simp [restoring])

theorem Explains.mayLaunch {act : Act} (h : s.Explains i a act) (hact : act.mayLaunch = true) :
    i.mayLaunch = true := by
  cases act with
  | complete c ok written =>
      obtain ⟨u, x, hrep, -⟩ := h
      exact reporting_mayLaunch hrep
  | restore clients => exact restoring_mayLaunch h.1
  | launch c =>
      obtain ⟨project, client, rfl⟩ := h
      rfl
  | _ => exact absurd hact (by simp [Act.mayLaunch])

/-- What a step adds to the log, as far as launches are concerned, is in the events of its move. -/
theorem launches_news {evs : List Event} (h : Logged a s.g t.g evs) :
    launches (s.news t) = launches evs := by
  obtain ⟨es, hlog, -, rfl⟩ := h
  rw [news_of_log hlog, launches_filter_isTask]

theorem Answers.launches_nil (h : s.Answers t i) (hi : i.mayLaunch = false) :
    launches (s.news t) = [] := by
  rcases h with h | ⟨b, act, h, hexp⟩
  · rw [@news_of_log s t [] (by rw [h.log, List.append_nil])]
    rfl
  · obtain ⟨evs, hmove, hlog⟩ := h.move
    rw [launches_news hlog]
    refine hmove.launches_nil ?_
    rw [Bool.eq_false_iff]
    intro hact
    rw [hexp.mayLaunch hact] at hi
    exact absurd hi (by decide)

/-- The clients that a step launched, and the entries of their children: as many, in the same
order. -/
structure Delivers (s t : Server) : Prop where
  launches : (s.births t).map Prod.fst = launches (s.news t)
  slot : ∀ b ∈ s.births t, t.Slot b.1 b.2.pid

theorem Delivers.nothing (h : Lash.launches (s.news t) = []) : s.Delivers t := by
  have hbirths : s.births t = [] := by
    rw [births, h, List.zip_nil_left]
  exact ⟨by rw [hbirths, h, List.map_nil], by simp [hbirths]⟩

theorem Delivers.of_log (h : t.g.log = s.g.log) : s.Delivers t := by
  apply Delivers.nothing
  rw [@news_of_log s t [] (by rw [h, List.append_nil])]
  rfl

/-- Clients of one project were launched. -/
theorem Delivers.of_hatched {bs : List (Addr × Child)}
    (h : Hatched a s.g t.g (t.project a).lostClients bs) : s.Delivers t := by
  obtain ⟨es, hlog, hes⟩ := h.log
  have hbirths : s.births t = bs.map (fun b => ((a, b.1), b.2)) := by
    rw [births, news_of_log hlog, hes, h.childs, List.drop_left, List.zip_map']
  constructor
  · rw [hbirths, news_of_log hlog, hes, List.map_map]
    rfl
  · intro b hb
    rw [hbirths] at hb
    obtain ⟨b', hb', rfl⟩ := List.mem_map.mp hb
    exact h.slot b' hb'

theorem startRestore_hatched (ha : (s.project a).addr = a) (h : s.startRestore a = some t) :
    ∃ bs, Hatched a s.g t.g (t.project a).lostClients bs := by
  obtain ⟨g, lost, hrest, rfl⟩ := startRestore_some h
  obtain ⟨bs, hbs⟩ := restoreClients_hatched hrest
  rw [ha] at hbs
  refine ⟨bs, ?_⟩
  rw [setSession_project_self]
  have hstart : ∀ e₁ e₂ e₃ : Event, e₁.launches = none → e₂.launches = none → e₃.launches = none →
      Barren s.g (((s.g.emit e₁).emit e₂).emit e₃) :=
    fun e₁ e₂ e₃ h₁ h₂ h₃ => ((Barren.emit _ h₁).trans (.emit _ h₂)).trans (.emit _ h₃)
  exact hbs.after (hstart _ _ _ rfl rfl rfl)

theorem projectRestore_delivers (hw : s.Wf) {ok : Bool} (h : s.projectRestore a = some (ok, t)) :
    s.Delivers t := by
  unfold projectRestore at h
  split at h
  · obtain ⟨-, rfl⟩ := Prod.mk.inj (Option.some.inj h)
    exact .of_log rfl
  · next ha =>
      have hnil : (s.session a).p.lostClients = [] := by
        have hj := hw.unloaded a (by simp [Server.view, Project.view, ha])
        rw [View.jobs, List.append_eq_nil_iff] at hj
        simpa [Server.view, Project.view] using hj.2
      split at h
      · exact absurd h (by simp)
      · next u hload =>
          obtain ⟨-, rfl⟩ := Prod.mk.inj (Option.some.inj h)
          rw [projectLoad_false hload, setSession_session]
          exact .of_log rfl
      · next u hload =>
          have hread := projectLoad_barren hload
          have haddr : u.p.addr = a := (projectLoad_reads hnil hload).addr.trans (hw.addr a)
          dsimp only at h
          split at h
          · obtain ⟨v, hv, he⟩ := Option.map_eq_some_iff.mp h
            obtain ⟨-, rfl⟩ := Prod.mk.inj he
            obtain ⟨bs, hbs⟩ :=
              startRestore_hatched (by rw [setSession_project_self]; exact haddr) hv
            exact .of_hatched (hbs.after hread)
          · split at h
            · exact absurd h (by simp)
            · next name hname =>
                obtain ⟨v, hv, he⟩ := Option.map_eq_some_iff.mp h
                obtain ⟨-, rfl⟩ := Prod.mk.inj he
                rw [setSession_setSession] at hv
                have haddr' : (Lash.projectRename u name).p.addr = a := by
                  obtain ⟨evs, -, hsteps⟩ := projectRename_makes u name false
                  exact hsteps.addr.trans haddr
                obtain ⟨bs, hbs⟩ :=
                  startRestore_hatched (by rw [setSession_project_self]; exact haddr') hv
                exact .of_hatched (hbs.after (hread.trans (projectRename_barren u name)))

/-- **The child that was born for a client has the client's pid.** -/
theorem Wf.step_delivers (hw : s.Wf) (h : s.step i = some t) : s.Delivers t := by
  have hans := hw.step_answers h
  have hquiet : i.mayLaunch = false → s.Delivers t := fun hi => .nothing (hans.launches_nil hi)
  have hdeed := step_deed h
  cases hdeed with
  | nothing => exact .of_log rfl
  | children childs => exact .of_log rfl
  | outside | join | resume | rename | describe | note | move => exact hquiet rfl
  | leave childs hi ha hc =>
      apply hquiet
      cases i <;> first | rfl | exact absurd hi (by simp [leaving])
  | @complete i a u c ok v hi ha hv =>
      obtain ⟨-, d, hd, -, hcase⟩ := reporting_cases hi
      have hu : u.g = s.g ∧ u.p.addr = a := by
        rcases hcase with ⟨rfl, -⟩ | ⟨_, _, _, _, _, _, _, _, _, _, _, rfl⟩
        · exact ⟨rfl, hw.addr a⟩
        · exact ⟨rfl, hw.addr a⟩
      obtain ⟨bs, hbs⟩ := clientTaskCompleted_hatched hv
      rw [hu.1, hu.2] at hbs
      apply @Delivers.of_hatched s _ a bs
      rw [setSession_project_self]
      exact hbs
  | @progress i a c n ha hc =>
      apply @Delivers.of_hatched s _ a []
      exact .of_barren (projectClientProgress_barren (s.session a) c n)
  | save hi ha =>
      apply hquiet
      cases i <;> first | rfl | exact absurd hi (by simp [saving])
  | close hi ha =>
      apply hquiet
      cases i <;> first | rfl | exact absurd hi (by simp [closing])
  | restore ha hnot hi ht => exact projectRestore_delivers hw ht
  | depend | undepend => exact .of_log rfl
  | @launch i a c g d ha hc hd =>
      obtain ⟨k, hk⟩ := projectLaunchClient_hatched hd
      rw [hw.addr] at hk
      apply Delivers.of_hatched (a := a)
      rw [setSession_project_self]
      refine hk.mono ?_
      intro e he
      rw [List.mem_singleton] at he
      obtain ⟨pid, hpid⟩ := (projectLaunchClient_spec hd).1
      refine ⟨d, ?_, by rw [he], by rw [he]⟩
      exact Keyed.mem_put_self hc (congrArg Client.addr hpid).symm

end Server

end Lash
