import Lash.Births
import Lash.LaunchOrder

/-!
# Whose process connects

The daemon knows a program that it launched by its pid: `project_launch_client` leaves the pid of
the child in the lost client, and `Connect` looks it up. Here the daemon runs among the processes
of the machine (`World`): each was started by someone, and dies at some time, after which its pid
may be used again. The theorem is that a launched program gets its own client back, and nobody
else gets one, as long as the steps are `Careful`.
-/

namespace Lash

/-! ## Processes -/

/-- Who started a process. -/
inductive Origin where
  /-- The loader forked it for a client, to run the program or a terminal with the program. -/
  | child (project client : Addr) (terminal : Bool)
  /-- It is the program in the terminal that the loader started for a client. -/
  | inTerminal (project client : Addr)
  /-- Somebody else did. -/
  | other
  deriving DecidableEq

/-- The client that a process was launched for, and its project. -/
def Origin.launchedFor : Origin → Option (Addr × Addr)
  | .child a x _ | .inTerminal a x => some (a, x)
  | .other => none

structure Process where
  pid : Int
  origin : Origin
  /-- It has called `Connect`. -/
  connected : Bool
  deriving DecidableEq

/-- The daemon and the processes that are alive. -/
structure World where
  server : Server
  processes : List Process

/-- What happens in the world. -/
inductive Happening where
  | daemon (i : Input)
  /-- A process is started that is no child of the daemon. -/
  | spawn (pid : Int) (origin : Origin)
  /-- A process terminates. -/
  | exit (pid : Int)

/-- The process of a child, if the fork succeeded. -/
def Process.ofBirth (b : (Addr × Addr) × Child) : Option Process :=
  if 0 < b.2.pid then
    some { pid := b.2.pid, origin := .child b.1.1 b.1.2 b.2.terminal, connected := false }
  else none

/-- A process once an input has arrived: it may be the one that sent it. -/
def Process.after (i : Input) (p : Process) : Process :=
  match i with
  | .connect _ pid _ _ _ _ _ => if p.pid = pid then { p with connected := true } else p
  | _ => p

namespace World

/-- The processes after a step of the daemon. -/
def next (w : World) (i : Input) (t : Server) : World where
  server := t
  processes := w.processes.map (Process.after i) ++ (w.server.births t).filterMap Process.ofBirth

/-- The pids in use. -/
def pids (w : World) : List Int := w.processes.map Process.pid

/-- The loader forked the process with a pid. -/
def isChild (w : World) (pid : Int) : Bool :=
  w.processes.any (fun p => p.pid = pid &&
    match p.origin with
    | .child _ _ _ => true
    | _ => false)

/-- What happens; the daemon gets a `SIGCHLD` for its own children. -/
def step (w : World) : Happening → Option World
  | .daemon i => (w.server.step i).map (w.next i)
  | .spawn pid origin =>
    some { w with processes := w.processes ++ [{ pid, origin, connected := false }] }
  | .exit pid =>
    (if w.isChild pid then w.server.step (.sigchld pid) else some w.server).map (fun t =>
      { server := t, processes := w.processes.filter (fun p => p.pid ≠ pid) })

/-- Before anything has happened. -/
def start (fs : Fs) (dir : CStr) : World := { server := Server.start fs dir, processes := [] }

/-! ## What the machine promises -/

/-- A `SIGCHLD`, which only the exit of a child brings about. -/
def isSigchld : Input → Bool
  | .sigchld _ => true
  | _ => false

/-- The pid of a process that connects. -/
def connecting : Input → Option Int
  | .connect _ pid _ _ _ _ _ => some pid
  | _ => none

/-- A pid is given out only if no process has it; a program that runs in a terminal was started by
one; and who connects is alive and tells its own pid. -/
def Promised (w : World) : Happening → Prop
  | .daemon i => isSigchld i = false ∧ (∀ pid ∈ connecting i, pid ∈ w.pids) ∧
      ∀ t ∈ w.server.step i, (w.next i t).pids.Nodup
  | .spawn pid origin => 0 < pid ∧ pid ∉ w.pids ∧
      match origin with
      | .child _ _ _ => False
      | .inTerminal a x => ∃ p ∈ w.processes, p.origin = .child a x true
      | .other => True
  | .exit pid => pid ∈ w.pids

/-! ## Launched for one client -/

/-- A process that connects: if it was launched for a client of a loaded project it is resumed as
that client, and it is resumed as no other. -/
def Right (w : World) (h : Happening) (w' : World) : Prop :=
  ∀ i, h = .daemon i → ∀ pid ∈ connecting i, ∀ p ∈ w.processes, p.pid = pid →
    (∀ a x, p.origin.launchedFor = some (a, x) → a ∈ w.server.loaded →
      .resumed a x ∈ w.server.news w'.server) ∧
    ∀ a x, .resumed a x ∈ w.server.news w'.server → p.origin.launchedFor = some (a, x)

/-! ## Careful steps -/

/-- A program that was launched for a client of a project is alive and has not connected. -/
def Awaited (w : World) (q : Addr × Addr → Prop) : Prop :=
  ∃ p ∈ w.processes, p.connected = false ∧ ∃ b ∈ p.origin.launchedFor, q b

/-- A lost client of a loaded project has the pid, other than the one at `b`. -/
def Stale (w : World) (b : Option (Addr × Addr)) (pid : Int) : Prop :=
  ∃ a ∈ w.server.loaded, ∃ c ∈ (w.server.project a).lostClients, c.pid = pid ∧ b ≠ some (a, c.addr)

/-- The project whose lost clients an input makes the daemon forget. -/
def forgetting (s : Server) (i : Input) (a : Addr) : Prop :=
  s.saving i = some a ∧ (s.project a).taskType = .idle ∨ s.closing i = some a

/-- A client is launched: not in a terminal, not while an earlier program of it may still connect,
and not under a pid that some other lost client still has. -/
def CarefulBirth (w : World) (b : (Addr × Addr) × Child) : Prop :=
  b.2.terminal = false ∧ ¬ w.Awaited (fun c => c = b.1) ∧
    (0 < b.2.pid → ¬ w.Stale (some b.1) b.2.pid)

/-- Launches are careful, no project forgets its lost clients while a program launched for one of
them may still connect, a launched program connects once, and no process gets the pid of a lost
client. -/
def Careful (w : World) : Happening → Prop
  | .daemon i =>
      (∀ pid ∈ connecting i, ∀ p ∈ w.processes, p.pid = pid → p.origin.launchedFor ≠ none →
        p.connected = false) ∧
      (∀ a ∈ w.server.loaded, forgetting w.server i a → ¬ w.Awaited (fun b => b.1 = a)) ∧
      ∀ t ∈ w.server.step i, ∀ b ∈ w.server.births t, w.CarefulBirth b
  | .spawn pid _ => ¬ w.Stale none pid
  | .exit _ => True

end World

/-! ## What becomes of the lost clients -/

/-- A lost client after a move: it has no pid, or was launched just now, or was lost before with the
pid it has. -/
theorem Move.lost_from {a : Addr} {v v' : View} {act : Act} {evs : List Event}
    (h : Move a v act evs v') {y : Job} (hy : y ∈ v'.lost) :
    y.pid = 0 ∨ .launched a y.addr ∈ evs ∨
      .resumed a y.addr ∉ evs ∧ ∃ x ∈ v.lost, x.addr = y.addr ∧ x.pid = y.pid := by
  -- nobody is resumed, and the lost clients are the ones of before
  have hsame : v'.lost = v.lost → .resumed a y.addr ∉ evs →
      y.pid = 0 ∨ .launched a y.addr ∈ evs ∨
        .resumed a y.addr ∉ evs ∧ ∃ x ∈ v.lost, x.addr = y.addr ∧ x.pid = y.pid :=
    fun hl hres => Or.inr (Or.inr ⟨hres, y, hl ▸ hy, rfl, rfl⟩)
  cases h with
  | quiet => exact hsame rfl (by simp)
  | join => exact hsame rfl (by simp)
  | leave hc =>
      rcases List.mem_cons.mp hy with rfl | hy
      · exact Or.inl rfl
      · exact Or.inr (Or.inr ⟨by simp, y, hy, rfl, rfl⟩)
  | @sent c name task type e hc hpid htask he =>
      have hne : y.addr ≠ c.addr := (Keyed.mem_del.mp hy).2
      refine Or.inr (Or.inr ⟨?_, y, (Keyed.mem_del.mp hy).1, rfl, rfl⟩)
      cases he with
      | load path => simp [hne]
      | loadDataSet configs => simp [hne]
  | @silent c name hc hpid =>
      obtain ⟨hy, hne⟩ := Keyed.mem_del.mp hy
      have hne : y.addr ≠ c.addr := hne
      exact Or.inr (Or.inr ⟨by simp [hne], y, hy, rfl, rfl⟩)
  | @stateless c name pname written modified hc hpid =>
      rw [View.lost_count] at hy
      obtain ⟨hy, hne⟩ := Keyed.mem_del.mp hy
      have hne : y.addr ≠ c.addr := hne
      exact Or.inr (Or.inr ⟨by simp [hne, resumed_not_mem_countEvents], y, hy, rfl, rfl⟩)
  | cleared => exact hsame rfl (by simp)
  | failed | saved =>
      exact hsame (View.lost_count _) (by simp [resumed_not_mem_countEvents])
  | @restored c lost written modified pname hc hp htype hlost =>
      rw [View.lost_count] at hy
      obtain ⟨x, hx, pid, rfl⟩ := exists_of_forall₂ hlost hy
      by_cases hready : Job.Ready c.id x
      · refine Or.inr (Or.inl ?_)
        have hm : Event.launched a x.addr ∈ launchEvents a (v.lost.filter (Job.Ready c.id)) :=
          mem_launchEvents.mpr ⟨x, by simp [hx, hready], rfl⟩
        simp [hm]
      · refine Or.inr (Or.inr ⟨?_, x, hx, rfl, ?_⟩)
        · simp [resumed_not_mem_countEvents, launchEvents]
        · rw [if_neg hready]
  | skipped | asked | close => exact absurd hy (by simp [View.ask])
  | @restore clients lost hloaded hjobs hidle hdist hlost =>
      obtain ⟨x, hx, pid, rfl⟩ := exists_of_forall₂ hlost hy
      by_cases hready : x.saneDeps (clients.map Job.id) = []
      · refine Or.inr (Or.inl ?_)
        have hm : Event.launched a x.addr ∈ launchEvents a
            (clients.filter (fun c => c.saneDeps (clients.map Job.id) = [])) :=
          mem_launchEvents.mpr ⟨x, by simp [hx, hready], rfl⟩
        exact List.mem_cons_of_mem _ hm
      · left
        rw [if_neg hready]
        exact (hidle x hx).2
  | @launch c pid hc =>
      rcases Keyed.eq_or_mem_of_mem_put hy with rfl | hy
      · exact Or.inr (Or.inl (by simp))
      · exact Or.inr (Or.inr ⟨by simp, y, hy, rfl, rfl⟩)
  | depend | undepend => exact hsame rfl (by simp)

/-- A lost client before a move: it is still lost under its pid, or was launched or resumed just
now, or its project forgot it. -/
theorem Move.lost_to {a : Addr} {v v' : View} {act : Act} {evs : List Event}
    (h : Move a v act evs v') {x : Job} (hx : x ∈ v.lost) :
    (∃ y ∈ v'.lost, y.addr = x.addr ∧ y.pid = x.pid) ∨ .launched a x.addr ∈ evs ∨
      .resumed a x.addr ∈ evs ∨ (∃ asked written, v.task = .idle ∧ act = .save asked written) ∨
      act = .close := by
  have hkeep : x ∈ v'.lost → (∃ y ∈ v'.lost, y.addr = x.addr ∧ y.pid = x.pid) :=
    fun hy => ⟨x, hy, rfl, rfl⟩
  cases h with
  | quiet | join | cleared => exact Or.inl (hkeep hx)
  | depend | undepend => exact Or.inl (hkeep hx)
  | failed | saved => exact Or.inl (hkeep (by rwa [View.lost_count]))
  | leave hc => exact Or.inl (hkeep (List.mem_cons_of_mem _ hx))
  | @sent c name task type e hc hpid htask he =>
      by_cases hxc : x.addr = c.addr
      · simp [hxc]
      · exact Or.inl (hkeep (Keyed.mem_del.mpr ⟨hx, hxc⟩))
  | @silent c name hc hpid =>
      by_cases hxc : x.addr = c.addr
      · simp [hxc]
      · exact Or.inl (hkeep (Keyed.mem_del.mpr ⟨hx, hxc⟩))
  | @stateless c name pname written modified hc hpid =>
      by_cases hxc : x.addr = c.addr
      · simp [hxc]
      · refine Or.inl (hkeep ?_)
        rw [View.lost_count]
        exact Keyed.mem_del.mpr ⟨hx, hxc⟩
  | @restored c lost written modified pname hc hp htype hlost =>
      obtain ⟨y, hy, pid, hyx⟩ := exists_of_forall₂ hlost.flip hx
      by_cases hready : Job.Ready c.id x
      · refine Or.inr (Or.inl ?_)
        have hm : Event.launched a x.addr ∈ launchEvents a (v.lost.filter (Job.Ready c.id)) :=
          mem_launchEvents.mpr ⟨x, by simp [hx, hready], rfl⟩
        simp [hm]
      · refine Or.inl ⟨y, ?_, by rw [hyx], ?_⟩
        · rw [View.lost_count]
          exact hy
        · rw [hyx]
          exact if_neg hready
  | skipped htask => exact Or.inr (Or.inr (Or.inr (Or.inl ⟨_, _, htask, rfl⟩)))
  | asked htask => exact Or.inr (Or.inr (Or.inr (Or.inl ⟨_, _, htask, rfl⟩)))
  | close => exact Or.inr (Or.inr (Or.inr (Or.inr rfl)))
  | restore hloaded hjobs =>
      have hnil := (List.append_eq_nil_iff.mp hjobs).2
      rw [hnil] at hx
      exact absurd hx (by simp)
  | @launch c pid hc =>
      by_cases hxc : x.addr = c.addr
      · rw [hxc]
        exact Or.inr (Or.inl (List.mem_singleton_self _))
      · exact Or.inl (hkeep (Keyed.mem_put.mpr (Or.inr ⟨hx, hxc⟩)))

theorem resumed_not_mem_finishEvents {a b x : Addr} {name : CStr} {written modified : Bool}
    {type : EventType} : Event.resumed b x ∉ finishEvents a name written modified type :=
  fun hm => absurd (isFinish_of_mem_finishEvents hm) (by simp [Event.isFinish])

/-- Only the move that resumes a client records that. -/
theorem Move.resumes {a x : Addr} {v v' : View} {act : Act} {evs : List Event}
    (h : Move a v act evs v') (hm : .resumed a x ∈ evs) :
    ∃ answer, ∃ c : Job, act = .resume c answer ∧ c.addr = x := by
  cases h with
  | @sent c name task type e hc hpid htask he =>
      refine ⟨_, c, rfl, ?_⟩
      cases he <;> simpa [eq_comm] using hm
  | @silent c name hc hpid =>
      refine ⟨_, c, rfl, ?_⟩
      simpa [eq_comm] using hm
  | @stateless c name pname written modified hc hpid =>
      refine ⟨_, c, rfl, ?_⟩
      simpa [resumed_not_mem_countEvents, eq_comm] using hm
  | failed | saved | restored =>
      exact absurd hm (by simp [resumed_not_mem_countEvents, launchEvents])
  | skipped htask hc hp hevs =>
      rcases hevs with rfl | ⟨name, modified, rfl⟩
      · exact absurd hm (by simp [beginEvent])
      · exact absurd hm (by simp [beginEvent, resumed_not_mem_finishEvents])
  | asked htask hp ht hevs =>
      rcases hevs with ⟨-, rfl⟩ | ⟨-, modified, rfl⟩
      · exact absurd hm (by simp [beginEvent, askEvents])
      · exact absurd hm (by simp [beginEvent, askEvents, resumed_not_mem_finishEvents])
  | restore => exact absurd hm (by simp [launchEvents])
  | quiet | join | leave | cleared | close | launch | depend | undepend =>
      exact absurd hm (by simp)

theorem Move.resumed_mem {a : Addr} {v v' : View} {c : Job} {answer : Answer} {evs : List Event}
    (h : Move a v (.resume c answer) evs v') : .resumed a c.addr ∈ evs := by
  cases h <;> simp

namespace Server

variable {s t : Server} {i : Input}

/-- An event of a step is among the events of its project's move. -/
theorem mem_news {a : Addr} {e : Event} {evs : List Event} (hlog : Logged a s.g t.g evs)
    (he : e.isTask = true) (hm : e ∈ s.news t) : e ∈ evs := by
  obtain ⟨es, hes, -, rfl⟩ := hlog
  rw [news_of_log hes] at hm
  exact List.mem_filter.mpr ⟨hm, he⟩

theorem mem_news_of_mem {a : Addr} {e : Event} {evs : List Event} (hlog : Logged a s.g t.g evs)
    (hm : e ∈ evs) : e ∈ s.news t := by
  obtain ⟨es, hes, -, rfl⟩ := hlog
  rw [news_of_log hes]
  exact (List.mem_filter.mp hm).1

/-- No two lost clients of a project are at one address. -/
theorem Wf.slot_unique (hw : s.Wf) {b : Addr × Addr} {pid pid' : Int} (h : s.Slot b pid)
    (h' : s.Slot b pid') : pid = pid' := by
  obtain ⟨c, hc, haddr, rfl⟩ := slot_iff.mp h
  obtain ⟨d, hd, haddr', rfl⟩ := slot_iff.mp h'
  rw [Keyed.eq_of_key_eq (hw.distinct b.1).lost hc hd (haddr.trans haddr'.symm)]

/-- A project with lost clients is loaded. -/
theorem Wf.slot_loaded (hw : s.Wf) {b : Addr × Addr} {pid : Int} (h : s.Slot b pid) :
    b.1 ∈ s.loaded := by
  obtain ⟨c, hc, -⟩ := slot_iff.mp h
  by_contra hn
  have hj := hw.unloaded b.1 (by simp [Server.view, Project.view, hn])
  have hm : c ∈ (s.view b.1).jobs := List.mem_append_right _ hc
  rw [hj] at hm
  exact absurd hm (by simp)

/-- A client that a step launched has a child. -/
theorem Wf.birth_of_launched (hw : s.Wf) (h : s.step i = some t) {b : Addr × Addr}
    (hm : .launched b.1 b.2 ∈ s.news t) : ∃ k, (b, k) ∈ s.births t ∧ t.Slot b k.pid := by
  have hdel := hw.step_delivers h
  have hb : b ∈ (s.births t).map Prod.fst := by
    rw [hdel.launches]
    exact mem_launches.mpr hm
  obtain ⟨⟨b, k⟩, hbk, rfl⟩ := List.mem_map.mp hb
  exact ⟨k, hbk, hdel.slot _ hbk⟩

/-- **Where the pid of a lost client comes from**: a child that was born for it in this step, or the
state before. -/
theorem Wf.slot_from (hw : s.Wf) (h : s.step i = some t) {b : Addr × Addr} {pid : Int}
    (hslot : t.Slot b pid) (hpid : pid ≠ 0) :
    (∃ k, (b, k) ∈ s.births t ∧ k.pid = pid) ∨
      s.Slot b pid ∧ .resumed b.1 b.2 ∉ s.news t := by
  have hans := hw.step_answers h
  have hw' := hans.wf hw
  obtain ⟨y, hy, haddr, hy_pid⟩ := slot_iff.mp hslot
  rcases hans with hun | ⟨a, act, hmoves, -⟩
  · refine Or.inr ⟨slot_iff.mpr ?_, ?_⟩
    · rw [← hun.view]
      exact ⟨y, hy, haddr, hy_pid⟩
    · rw [@news_of_log s t [] (by rw [hun.log, List.append_nil])]
      exact List.not_mem_nil
  · obtain ⟨evs, hmove, hlog⟩ := hmoves.move
    by_cases hba : b.1 = a
    · rw [hba] at hy
      rcases hmove.lost_from hy with h0 | hl | ⟨hres, x, hx, hx_addr, hx_pid⟩
      · exact absurd (hy_pid.symm.trans h0) hpid
      · rw [haddr, ← hba] at hl
        obtain ⟨k, hk, hkslot⟩ := hw.birth_of_launched h (mem_news_of_mem hlog hl)
        exact Or.inl ⟨k, hk, hw'.slot_unique hkslot hslot⟩
      · refine Or.inr ⟨slot_iff.mpr ⟨x, hba ▸ hx, hx_addr.trans haddr, hx_pid.trans hy_pid⟩, ?_⟩
        intro hm
        rw [hba, ← haddr] at hm
        exact hres (mem_news hlog rfl hm)
    · rw [hmoves.view_ne hba] at hy
      refine Or.inr ⟨slot_iff.mpr ⟨y, hy, haddr, hy_pid⟩, ?_⟩
      intro hm
      obtain ⟨es, hes, hproj, -⟩ := hlog
      rw [news_of_log hes] at hm
      exact hba (hproj _ hm)

/-- **What becomes of the pid of a lost client**: it stays, unless the client is launched or
resumed, or forgotten with the lost clients of its project. -/
theorem Wf.slot_to (hw : s.Wf) (h : s.step i = some t) {b : Addr × Addr} {pid : Int}
    (hslot : s.Slot b pid) :
    t.Slot b pid ∨ (∃ k, (b, k) ∈ s.births t) ∨ .resumed b.1 b.2 ∈ s.news t ∨
      World.forgetting s i b.1 := by
  obtain ⟨x, hx, haddr, hpid⟩ := slot_iff.mp hslot
  rcases hw.step_answers h with hun | ⟨a, act, hmoves, hexp⟩
  · refine Or.inl (slot_iff.mpr ?_)
    rw [hun.view]
    exact ⟨x, hx, haddr, hpid⟩
  · obtain ⟨evs, hmove, hlog⟩ := hmoves.move
    by_cases hba : b.1 = a
    · rw [hba] at hx
      rcases hmove.lost_to hx with ⟨y, hy, hy_addr, hy_pid⟩ | hl | hr |
        ⟨asked, written, htask, rfl⟩ | rfl
      · exact Or.inl (slot_iff.mpr ⟨y, hba ▸ hy, hy_addr.trans haddr, hy_pid.trans hpid⟩)
      · rw [haddr, ← hba] at hl
        obtain ⟨k, hk, -⟩ := hw.birth_of_launched h (mem_news_of_mem hlog hl)
        exact Or.inr (Or.inl ⟨k, hk⟩)
      · rw [haddr, ← hba] at hr
        exact Or.inr (Or.inr (Or.inl (mem_news_of_mem hlog hr)))
      · exact Or.inr (Or.inr (Or.inr (Or.inl ⟨hba ▸ hexp.1, hba ▸ htask⟩)))
      · exact Or.inr (Or.inr (Or.inr (Or.inr (hba ▸ hexp))))
    · refine Or.inl (slot_iff.mpr ⟨x, ?_, haddr, hpid⟩)
      rw [hmoves.view_ne hba]
      exact hx

/-- A client that is resumed was lost, under the pid of who connects. -/
theorem Wf.slot_of_resumed (hw : s.Wf) (h : s.step i = some t) {a x : Addr}
    (hm : .resumed a x ∈ s.news t) :
    ∃ pid ∈ World.connecting i, pid ≠ 0 ∧ s.Slot (a, x) pid := by
  rcases hw.step_answers h with hun | ⟨b, act, hmoves, hexp⟩
  · rw [@news_of_log s t [] (by rw [hun.log, List.append_nil])] at hm
    exact absurd hm (by simp)
  · obtain ⟨evs, hmove, hlog⟩ := hmoves.move
    have hab : a = b := by
      obtain ⟨es, hes, hproj, -⟩ := hlog
      rw [news_of_log hes] at hm
      exact hproj _ hm
    subst hab
    obtain ⟨answer, c, rfl, rfl⟩ := hmove.resumes (mem_news hlog rfl hm)
    obtain ⟨d, hd, rfl, -⟩ := hexp
    cases i with
    | connect sender pid cls flags wd argv id =>
        have hpid : pid ≠ 0 := by
          rintro rfl
          simp [resuming] at hd
        have hfind : s.findLostClientByPid pid = some (a, d) := by
          rw [← hd]
          exact (if_neg hpid).symm
        obtain ⟨-, hlost, hq⟩ := findClient_some hfind
        exact ⟨pid, rfl, hpid, d, hlost, rfl, by simpa using hq⟩
    | _ => exact absurd hd (by simp [resuming])

theorem addClient_of_step {sender : CStr} {pid : Int} {cls : CStr} {flags : Flags} {wd : CStr}
    {argv : List CStr} {id : Uuid}
    (h : s.step (.connect sender pid cls flags wd argv id) = some t) :
    ∃ a addr, s.addClient sender pid cls flags wd argv id = some (t, a, addr) := by
  obtain ⟨⟨u, r⟩, hh, rfl⟩ := Option.map_eq_some_iff.mp h
  simp only [handle, dbusConnect] at hh
  split at hh
  · exact absurd hh (by simp)
  · next v a addr hadd =>
      split at hh
      all_goals
        obtain ⟨rfl, -⟩ := Prod.mk.inj (Option.some.inj hh)
        exact ⟨a, addr, hadd⟩

/-- Who connects with the pid of a lost client is resumed as a lost client with that pid. -/
theorem Wf.resumed_of_slot (hw : s.Wf) (h : s.step i = some t) {b : Addr × Addr} {pid : Int}
    (hi : pid ∈ World.connecting i) (hpid : pid ≠ 0) (hslot : s.Slot b pid) :
    ∃ c : Addr × Addr, s.Slot c pid ∧ .resumed c.1 c.2 ∈ s.news t := by
  cases i with
  | connect sender pid' cls flags wd argv id =>
      obtain rfl : pid' = pid := Option.some.inj hi
      have hloaded := hw.slot_loaded hslot
      obtain ⟨c, hc, -, hc_pid⟩ := hslot
      -- the lookup finds some lost client, if not this one
      have hsome : (s.findLostClientByPid pid').isSome := by
        unfold findLostClientByPid findClient
        rw [List.findSome?_isSome_iff]
        refine ⟨b.1, hloaded, ?_⟩
        rw [Option.isSome_map, List.find?_isSome]
        exact ⟨c, hc, by simpa using hc_pid⟩
      obtain ⟨⟨a, d⟩, hfind⟩ := Option.isSome_iff_exists.mp hsome
      obtain ⟨ha, hd, hq⟩ := findClient_some hfind
      have hd_pid : d.pid = pid' := by simpa using hq
      obtain ⟨a', addr, hadd⟩ := addClient_of_step h
      unfold addClient at hadd
      rw [if_neg hpid, hfind] at hadd
      obtain ⟨u, hu, he⟩ := Option.map_eq_some_iff.mp hadd
      simp only [Prod.mk.injEq] at he
      obtain ⟨rfl, rfl, rfl⟩ := he
      refine ⟨(a, d.addr), ⟨d, hd, rfl, hd_pid⟩, ?_⟩
      have haddr : (s.session a).p.addr = a := hw.addr a
      have hdist : ((s.session a).p.view true).Distinct := by
        rw [← view_of_loaded ha]
        exact hw.distinct a
      obtain ⟨evs, hmove, hsteps⟩ :=
        @clientResumeProject_makes (s.session a) u d sender true hdist hd
        (hd_pid.symm ▸ hpid) (by rw [haddr]; exact hu)
      rw [haddr] at hmove
      have hlog := hsteps.logged
      rw [haddr] at hlog
      exact mem_news_of_mem (t := s.setSession a u) hlog hmove.resumed_mem
  | _ => exact absurd hi (by simp [World.connecting])

end Server

namespace World

variable {w w' : World} {i : Input} {t : Server} {h : Happening}

/-! ## Processes and slots -/

@[simp] theorem after_pid (i : Input) (p : Process) : (p.after i).pid = p.pid := by
  cases i with
  | connect =>
      simp only [Process.after]
      split <;> rfl
  | _ => rfl

@[simp] theorem after_origin (i : Input) (p : Process) : (p.after i).origin = p.origin := by
  cases i with
  | connect =>
      simp only [Process.after]
      split <;> rfl
  | _ => rfl

/-- A process that has not connected after an input had not before, and did not send it. -/
theorem connected_after {p : Process} :
    (p.after i).connected = false ↔ p.connected = false ∧ p.pid ∉ connecting i := by
  cases i with
  | connect sender pid =>
      simp only [Process.after, connecting, Option.mem_def, Option.some.injEq]
      split
      · next h => simp [h]
      · next h => simp [Ne.symm h]
  | _ => simp [Process.after, connecting]

theorem ofBirth_some {b : (Addr × Addr) × Child} {p : Process} (hb : Process.ofBirth b = some p) :
    0 < b.2.pid ∧
      p = { pid := b.2.pid, origin := .child b.1.1 b.1.2 b.2.terminal, connected := false } := by
  unfold Process.ofBirth at hb
  split at hb
  · next hpos => exact ⟨hpos, (Option.some.inj hb).symm⟩
  · exact absurd hb (by simp)

/-- A process after a step of the daemon: one of before, or one that the loader forked. -/
theorem mem_next {p : Process} : p ∈ (w.next i t).processes ↔
    (∃ q ∈ w.processes, q.after i = p) ∨ ∃ b ∈ w.server.births t, Process.ofBirth b = some p := by
  simp [next]

/-- Two processes with one pid are the same. -/
theorem eq_of_pid (hn : w.pids.Nodup) {p q : Process} (hp : p ∈ w.processes) (hq : q ∈ w.processes)
    (he : p.pid = q.pid) : p = q :=
  Keyed.eq_of_key_eq hn hp hq he

/-- The pids of lost clients are those of the programs that were launched for them and have not
connected. -/
structure Slots (w : World) : Prop where
  wf : w.server.Wf
  nodup : w.pids.Nodup
  positive : ∀ p ∈ w.processes, 0 < p.pid
  direct : ∀ p ∈ w.processes, p.origin = .other ∨ ∃ a x, p.origin = .child a x false
  /-- A process with the pid of a lost client is waited for as this client. -/
  held : ∀ b pid, w.server.Slot b pid → pid ≠ 0 → ∀ p ∈ w.processes, p.pid = pid →
    p.origin = .child b.1 b.2 false ∧ p.connected = false
  /-- A launched program that has not connected finds its client. -/
  slot : ∀ p ∈ w.processes, p.connected = false → ∀ a x, p.origin = .child a x false →
    w.server.Slot (a, x) p.pid

namespace Slots

theorem start (fs : Fs) (dir : CStr) : (World.start fs dir).Slots where
  wf := (Server.start_starting fs dir).wf
  nodup := List.nodup_nil
  positive := by simp [World.start]
  direct := by simp [World.start]
  held := by simp [World.start]
  slot := by simp [World.start]

/-- A process starts that is no child of the daemon. -/
theorem spawn (hI : w.Slots) {pid : Int} {origin : Origin} (hok : w.Promised (.spawn pid origin))
    (hcareful : w.Careful (.spawn pid origin)) :
    Slots { w with processes := w.processes ++ [{ pid, origin, connected := false }] } := by
  obtain ⟨hpos, hnew, horigin⟩ := hok
  -- nobody runs in a terminal, for there is no terminal
  have hother : origin = .other := by
    cases origin with
    | other => rfl
    | child => exact absurd horigin (by simp)
    | inTerminal a x =>
        obtain ⟨p, hp, hterm⟩ := horigin
        rcases hI.direct p hp with ho | ⟨b, y, ho⟩
        · rw [hterm] at ho
          exact absurd ho (by simp)
        · rw [hterm] at ho
          exact absurd ho (by simp)
  subst hother
  constructor
  case wf => exact hI.wf
  case nodup =>
    show ((w.processes ++ [_]).map Process.pid).Nodup
    rw [List.map_append, List.nodup_append]
    refine ⟨hI.nodup, by simp, ?_⟩
    intro q hq r hr he
    rw [List.map_singleton, List.mem_singleton] at hr
    rw [he, hr] at hq
    exact hnew hq
  case positive =>
    intro p hp
    rcases List.mem_append.mp hp with hp | hp
    · exact hI.positive p hp
    · rw [List.mem_singleton.mp hp]
      exact hpos
  case direct =>
    intro p hp
    rcases List.mem_append.mp hp with hp | hp
    · exact hI.direct p hp
    · rw [List.mem_singleton.mp hp]
      exact Or.inl rfl
  case held =>
    intro b pid' hslot hpid p hp he
    rcases List.mem_append.mp hp with hp | hp
    · exact hI.held b pid' hslot hpid p hp he
    · rw [List.mem_singleton.mp hp] at he
      obtain rfl : pid = pid' := he
      have hloaded := hI.wf.slot_loaded hslot
      obtain ⟨c, hc, -, hc_pid⟩ := hslot
      exact absurd ⟨b.1, hloaded, c, hc, hc_pid, by simp⟩ hcareful
  case slot =>
    intro p hp hconn a x ho
    rcases List.mem_append.mp hp with hp | hp
    · exact hI.slot p hp hconn a x ho
    · rw [List.mem_singleton.mp hp] at ho
      exact absurd ho (by simp)

/-- Some processes are gone, and the projects are as before. -/
theorem shrink (hI : w.Slots) (ht : t.Wf) (hproject : t.project = w.server.project)
    (q : Process → Bool) : Slots { server := t, processes := w.processes.filter q } := by
  have hslot : ∀ b pid, t.Slot b pid ↔ w.server.Slot b pid := by
    intro b pid
    unfold Server.Slot
    rw [hproject]
  constructor
  case wf => exact ht
  case nodup => exact hI.nodup.sublist (List.filter_sublist.map _)
  case positive => exact fun p hp => hI.positive p (List.mem_of_mem_filter hp)
  case direct => exact fun p hp => hI.direct p (List.mem_of_mem_filter hp)
  case held =>
    intro b pid hs hpid p hp
    exact hI.held b pid ((hslot b pid).mp hs) hpid p (List.mem_of_mem_filter hp)
  case slot =>
    intro p hp hconn a x ho
    exact (hslot _ _).mpr (hI.slot p (List.mem_of_mem_filter hp) hconn a x ho)

/-- A pid that is given out to a new child of `b` is not that of another lost client. -/
theorem birth_unique (hI : w.Slots) {b : Addr × Addr} {c : (Addr × Addr) × Child}
    (hslot : w.server.Slot b c.2.pid) (hpos : 0 < c.2.pid) (hcareful : w.CarefulBirth c) :
    c.1 = b := by
  by_contra hne
  apply hcareful.2.2 hpos
  have hloaded := hI.wf.slot_loaded hslot
  obtain ⟨d, hd, haddr, hpid⟩ := hslot
  refine ⟨b.1, hloaded, d, hd, hpid, ?_⟩
  intro he
  apply hne
  rw [Option.some.inj he, haddr]

/-- A step of the daemon. -/
theorem daemon (hI : w.Slots) (hok : w.Promised (.daemon i)) (hcareful : w.Careful (.daemon i))
    (hs : w.server.step i = some t) : (w.next i t).Slots := by
  obtain ⟨-, -, hnodup⟩ := hok
  obtain ⟨-, hforget, hbirths⟩ := hcareful
  have hnodup := hnodup t hs
  have hbirths := hbirths t hs
  have hdel := hI.wf.step_delivers hs
  have hpositive : ∀ p ∈ (w.next i t).processes, 0 < p.pid := by
    intro p hp
    rcases mem_next.mp hp with ⟨q, hq, rfl⟩ | ⟨b, hb, hof⟩
    · rw [after_pid]
      exact hI.positive q hq
    · obtain ⟨hpos, rfl⟩ := ofBirth_some hof
      exact hpos
  -- a process with the pid of a new child is that child
  have hborn : ∀ {b k}, (b, k) ∈ w.server.births t → ∀ p ∈ (w.next i t).processes, p.pid = k.pid →
      p.origin = .child b.1 b.2 false ∧ p.connected = false := by
    intro b k hbk p hp he
    have hpos : 0 < k.pid := he ▸ hpositive p hp
    have hmem : { pid := k.pid, origin := .child b.1 b.2 k.terminal, connected := false }
        ∈ (w.next i t).processes :=
      mem_next.mpr (Or.inr ⟨(b, k), hbk, if_pos hpos⟩)
    rw [eq_of_pid hnodup hp hmem he, (hbirths _ hbk).1]
    exact ⟨rfl, rfl⟩
  constructor
  case wf => exact (hI.wf.step_answers hs).wf hI.wf
  case nodup => exact hnodup
  case positive => exact hpositive
  case direct =>
    intro p hp
    rcases mem_next.mp hp with ⟨q, hq, rfl⟩ | ⟨b, hb, hof⟩
    · rw [after_origin]
      exact hI.direct q hq
    · obtain ⟨-, rfl⟩ := ofBirth_some hof
      exact Or.inr ⟨b.1.1, b.1.2, by rw [(hbirths b hb).1]⟩
  case held =>
    intro b pid hslot hpid p hp he
    rcases hI.wf.slot_from hs hslot hpid with ⟨k, hbk, rfl⟩ | ⟨hslot, hres⟩
    · exact hborn hbk p hp he
    · rcases mem_next.mp hp with ⟨q, hq, rfl⟩ | ⟨c, hc, hof⟩
      · rw [after_pid] at he
        obtain ⟨ho, hconn⟩ := hI.held b pid hslot hpid q hq he
        refine ⟨by rw [after_origin, ho], connected_after.mpr ⟨hconn, ?_⟩⟩
        intro hi
        -- the process would have been resumed as the client at `b`
        rw [he] at hi
        obtain ⟨c, hc, hcres⟩ := hI.wf.resumed_of_slot hs hi hpid hslot
        obtain ⟨ho', -⟩ := hI.held c pid hc hpid q hq he
        rw [ho] at ho'
        injection ho' with h1 h2
        rw [← h1, ← h2] at hcres
        exact hres hcres
      · obtain ⟨hpos, rfl⟩ := ofBirth_some hof
        obtain rfl : c.2.pid = pid := he
        have hcb := hI.birth_unique hslot hpos (hbirths c hc)
        subst hcb
        exact hborn hc _ hp rfl
  case slot =>
    intro p hp hconn a x ho
    rcases mem_next.mp hp with ⟨q, hq, rfl⟩ | ⟨b, hb, hof⟩
    · rw [after_origin] at ho
      rw [after_pid]
      obtain ⟨hconn, hnot⟩ := connected_after.mp hconn
      have hslot := hI.slot q hq hconn a x ho
      have hawaited : ∀ r : Addr × Addr → Prop, r (a, x) → w.Awaited r :=
        fun r hr => ⟨q, hq, hconn, (a, x), by rw [ho]; rfl, hr⟩
      rcases hI.wf.slot_to hs hslot with hslot' | ⟨k, hk⟩ | hres | hf
      · exact hslot'
      · exact absurd (hawaited (fun c => c = (a, x)) rfl) (hbirths _ hk).2.1
      · obtain ⟨pid, hpid, -, hslot'⟩ := hI.wf.slot_of_resumed hs hres
        rw [hI.wf.slot_unique hslot hslot'] at hnot
        exact absurd hpid hnot
      · exact absurd (hawaited (fun b => b.1 = a) rfl) (hforget a (hI.wf.slot_loaded hslot) hf)
    · obtain ⟨-, rfl⟩ := ofBirth_some hof
      injection ho with h1 h2
      rw [← h1, ← h2]
      exact hdel.slot b hb

theorem step (hI : w.Slots) (hok : w.Promised h) (hcareful : w.Careful h)
    (hs : w.step h = some w') : w'.Slots := by
  cases h with
  | daemon i =>
      obtain ⟨t, ht, rfl⟩ := Option.map_eq_some_iff.mp hs
      exact hI.daemon hok hcareful ht
  | spawn pid origin =>
      rw [← Option.some.inj hs]
      exact hI.spawn hok hcareful
  | exit pid =>
      obtain ⟨t, ht, rfl⟩ := Option.map_eq_some_iff.mp hs
      have hsame : t.Wf ∧ t.project = w.server.project := by
        split at ht
        · refine ⟨(hI.wf.step_answers ht).wf hI.wf, ?_⟩
          rw [← Option.some.inj ht]
        · rw [← Option.some.inj ht]
          exact ⟨hI.wf, rfl⟩
      exact hI.shrink hsame.1 hsame.2 _

/-- Who connects gets its own client. -/
theorem right (hI : w.Slots) (hcareful : w.Careful h) (hs : w.step h = some w') :
    w.Right h w' := by
  rintro i rfl pid hi p hp hpid
  obtain ⟨t, ht, rfl⟩ := Option.map_eq_some_iff.mp hs
  obtain ⟨hconn, -, -⟩ := hcareful
  have hne : pid ≠ 0 := by
    have := hI.positive p hp
    omega
  refine ⟨?_, ?_⟩
  · intro a x hfor _
    rcases hI.direct p hp with ho | ⟨b, y, ho⟩
    · rw [ho] at hfor
      exact absurd hfor (by simp [Origin.launchedFor])
    · rw [ho] at hfor
      obtain ⟨rfl, rfl⟩ := Prod.mk.inj (Option.some.inj hfor)
      have hfresh : p.connected = false :=
        hconn pid hi p hp hpid (by rw [ho]; simp [Origin.launchedFor])
      have hslot := hI.slot p hp hfresh b y ho
      rw [hpid] at hslot
      obtain ⟨c, hc, hres⟩ := hI.wf.resumed_of_slot ht hi hne hslot
      obtain ⟨ho', -⟩ := hI.held c pid hc hne p hp hpid
      rw [ho] at ho'
      injection ho' with h1 h2
      rw [h1, h2]
      exact hres
  · intro a x hres
    obtain ⟨pid', hi', -, hslot⟩ := hI.wf.slot_of_resumed ht hres
    obtain rfl : pid = pid' := Option.some.inj (hi.symm.trans hi')
    obtain ⟨ho, -⟩ := hI.held (a, x) pid hslot hne p hp hpid
    rw [ho]
    rfl

end Slots

/-- What the machine does, with careful steps. -/
def Orderly (w : World) (h : Happening) : Prop := w.Promised h ∧ w.Careful h

/-- **A launched program gets its own client back**, and nobody else gets one. -/
theorem connects_right {fs : Fs} {dir : CStr} {w w' : World} {h : Happening}
    (hrun : Runs.Reach step Orderly (start fs dir) w) (hok : w.Orderly h)
    (hs : w.step h = some w') : w.Right h w' := by
  have hI : w.Slots := hrun.invariant (.start fs dir)
    (fun _ _ _ _ hI hok hs => hI.step hok.1 hok.2 hs)
  exact hI.right hok.2 hs

/-! ## Concrete runs -/

instance (w : World) (q : Addr × Addr → Prop) [DecidablePred q] : Decidable (w.Awaited q) :=
  inferInstanceAs (Decidable (∃ p ∈ w.processes, p.connected = false ∧ ∃ b ∈ _, q b))

instance (w : World) (b : Option (Addr × Addr)) (pid : Int) : Decidable (w.Stale b pid) :=
  inferInstanceAs (Decidable (∃ a ∈ _, ∃ c ∈ _, _ ∧ _))

instance (s : Server) (i : Input) (a : Addr) : Decidable (forgetting s i a) :=
  inferInstanceAs (Decidable (_ ∧ _ ∨ _))

instance (w : World) (b : (Addr × Addr) × Child) : Decidable (w.CarefulBirth b) :=
  inferInstanceAs (Decidable (_ ∧ ¬ w.Awaited (fun c => c = b.1) ∧ (_ → ¬ _)))

instance (w : World) (h : Happening) : Decidable (w.Promised h) :=
  match h with
  | .daemon i => inferInstanceAs (Decidable (_ ∧ (∀ pid ∈ connecting i, _) ∧ ∀ t ∈ _, _))
  | .spawn _ (.child _ _ _) => inferInstanceAs (Decidable (_ ∧ _ ∧ False))
  | .spawn _ (.inTerminal _ _) => inferInstanceAs (Decidable (_ ∧ _ ∧ ∃ p ∈ _, _))
  | .spawn _ .other => inferInstanceAs (Decidable (_ ∧ _ ∧ True))
  | .exit _ => inferInstanceAs (Decidable (_ ∈ _))

instance (w : World) (h : Happening) : Decidable (w.Careful h) :=
  match h with
  | .daemon i => inferInstanceAs (Decidable
      ((∀ pid ∈ connecting i, ∀ p ∈ w.processes, p.pid = pid → p.origin.launchedFor ≠ none → _) ∧
        (∀ a ∈ w.server.loaded, forgetting w.server i a → ¬ w.Awaited (fun b => b.1 = a)) ∧
        ∀ t ∈ w.server.step i, ∀ b ∈ w.server.births t, w.CarefulBirth b))
  | .spawn _ _ => inferInstanceAs (Decidable (¬ _))
  | .exit _ => isTrue trivial

instance (w : World) (h : Happening) : Decidable (w.Orderly h) :=
  inferInstanceAs (Decidable (_ ∧ _))

/-- What a run on the empty disk and one step more show. -/
theorem exists_of_run {ok : World → Happening → Prop} [∀ w h, Decidable (ok w h)]
    {hs : List Happening} {q : World → World → Bool}
    (hrun : (Runs.exec step ok (start Server.emptyDisk (cstr "/p")) hs).any
      (fun w => decide (ok w h) && (w.step h).any (q w)) = true) :
    ∃ w w', Runs.Reach step ok (start Server.emptyDisk (cstr "/p")) w ∧ ok w h ∧
      w.step h = some w' ∧ q w w' = true := by
  obtain ⟨w, hw, hq⟩ := Runs.Reach.exists_of_exec hrun
  obtain ⟨hok, hstep⟩ := (Bool.and_eq_true _ _).mp hq
  obtain ⟨w', hw', hq⟩ := (Option.any_eq_true _ _).mp hstep
  exact ⟨w, w', hw, of_decide_eq_true hok, hw', hq⟩

/-- The client with these flags connects as process 5, is lost, and is launched as process 7. -/
def relaunch (flags : Flags) : List Happening :=
  [.spawn 5 .other,
    .daemon (.connect (cstr ":1") 5 (cstr "synth") flags [] [cstr "synth"] 1),
    .daemon (.nameLost (cstr ":1")),
    .daemon (.outside Server.emptyDisk [7]),
    .daemon (.lostClientLaunch (cstr "New Project") (uuidUnparse 1))]

/-- The launched program dies before it connects and somebody else gets its pid; and a program that
was launched in a terminal has another pid than the terminal. -/
theorem connects_wrong :
    (∃ w h w', Runs.Reach step Promised (start Server.emptyDisk (cstr "/p")) w ∧ w.Promised h ∧
      w.step h = some w' ∧ ¬ w.Right h w' ∧ ∃ p ∈ w.processes, p.origin = .other) ∧
    ∃ w h w', Runs.Reach step Promised (start Server.emptyDisk (cstr "/p")) w ∧ w.Promised h ∧
      w.step h = some w' ∧ ¬ w.Right h w' ∧ ∃ p ∈ w.processes, p.origin = .inTerminal 1 0 := by
  constructor
  · have hrun : (Runs.exec step Promised (start Server.emptyDisk (cstr "/p"))
        (relaunch 0 ++ [.exit 7, .spawn 7 .other])).any (fun w =>
        decide (w.Promised (.daemon (.connect (cstr ":2") 7 (cstr "other") 0 [] [] 2))) &&
          (w.step (.daemon (.connect (cstr ":2") 7 (cstr "other") 0 [] [] 2))).any (fun w' =>
            w.processes.any (fun p => p.pid = 7 && p.origin = .other)
              && decide (Event.resumed 1 0 ∈ w.server.news w'.server))) = true := by
      decide +kernel
    obtain ⟨w, w', hw, hok, hs, hq⟩ := exists_of_run hrun
    obtain ⟨hp, hres⟩ := (Bool.and_eq_true _ _).mp hq
    obtain ⟨p, hp, hpo⟩ := List.any_eq_true.mp hp
    obtain ⟨hpid, ho⟩ := (Bool.and_eq_true _ _).mp hpo
    have ho := of_decide_eq_true ho
    refine ⟨w, _, w', hw, hok, hs, ?_, p, hp, ho⟩
    intro hright
    have hfor := (hright _ rfl 7 rfl p hp (of_decide_eq_true hpid)).2 1 0 (of_decide_eq_true hres)
    rw [ho] at hfor
    exact absurd hfor (by simp [Origin.launchedFor])
  · have hrun : (Runs.exec step Promised (start Server.emptyDisk (cstr "/p"))
        (relaunch flagTerminal ++ [.spawn 8 (.inTerminal 1 0)])).any (fun w =>
        decide (w.Promised (.daemon (.connect (cstr ":2") 8 (cstr "synth") 0 [] [] 2))) &&
          (w.step (.daemon (.connect (cstr ":2") 8 (cstr "synth") 0 [] [] 2))).any (fun w' =>
            w.processes.any (fun p => p.pid = 8 && p.origin = .inTerminal 1 0)
              && decide (1 ∈ w.server.loaded ∧ Event.resumed 1 0 ∉ w.server.news w'.server)))
        = true := by
      decide +kernel
    obtain ⟨w, w', hw, hok, hs, hq⟩ := exists_of_run hrun
    obtain ⟨hp, hres⟩ := (Bool.and_eq_true _ _).mp hq
    obtain ⟨p, hp, hpo⟩ := List.any_eq_true.mp hp
    obtain ⟨hpid, ho⟩ := (Bool.and_eq_true _ _).mp hpo
    have ho := of_decide_eq_true ho
    obtain ⟨hloaded, hres⟩ := of_decide_eq_true hres
    refine ⟨w, _, w', hw, hok, hs, ?_, p, hp, ho⟩
    intro hright
    exact hres ((hright _ rfl 8 rfl p hp (of_decide_eq_true hpid)).1 1 0 (by rw [ho]; rfl) hloaded)

/-- Here the launched program connects, and is resumed. -/
theorem connects_right_relaunch :
    ∃ w w', Runs.Reach step Orderly (start Server.emptyDisk (cstr "/p")) w ∧
      w.Right (.daemon (.connect (cstr ":2") 7 (cstr "synth") 0 [] [] 2)) w' ∧
      Event.resumed 1 0 ∈ w.server.news w'.server := by
  have hrun : (Runs.exec step Orderly (start Server.emptyDisk (cstr "/p")) (relaunch 0)).any
      (fun w =>
      decide (w.Orderly (.daemon (.connect (cstr ":2") 7 (cstr "synth") 0 [] [] 2))) &&
        (w.step (.daemon (.connect (cstr ":2") 7 (cstr "synth") 0 [] [] 2))).any (fun w' =>
          decide (Event.resumed 1 0 ∈ w.server.news w'.server))) = true := by
    decide +kernel
  obtain ⟨w, w', hw, hok, hs, hq⟩ := exists_of_run hrun
  exact ⟨w, w', hw, connects_right hw hok hs, of_decide_eq_true hq⟩

end World

end Lash
