import Lash.Document
import Lash.Owing
import Lash.Lib.Trace

/-!
# Clients are launched in the order of their dependencies

When a project is restored, the clients that depend on nothing are launched at once. Each of the
others has a copy of its dependencies that shrinks with every client that reports its state as
loaded, and is launched when the copy is empty. `Launching` relates the copies to what was
reported, in any order of reports, losses and new clients.
-/

namespace Lash

open Trace

@[simp] theorem Job.isRestore_done (c : Job) (f : Flags) : (c.done f).taskType.isRestore = false :=
  rfl

/-- A client reported a restore task as done. -/
def HasLoaded (a x : Addr) (log : List Event) : Prop :=
  ∃ task type, type.isRestore = true ∧ .taskCompleted a x task type true ∈ log

/-- If this is a launch, it is one of a restored client, and all clients that this one depends on
have loaded before. -/
def LaunchedInOrder (a : Addr) (clients : List Job) (pre : List Event) (e : Event) : Prop :=
  ∀ x, e = .launched a x → ∃ c ∈ clients, c.addr = x ∧
    ∀ d ∈ c.dependencies, ∃ y ∈ clients, y.id = d ∧ HasLoaded a y.addr pre

/-- A client that still waits for others: it was not launched, and the ones it does not wait for any
more have loaded. -/
structure Waits (a : Addr) (clients : List Job) (log : List Event) (c : Job) : Prop where
  pid : c.pid = 0
  launched : .launched a c.addr ∉ log
  loaded : ∃ r ∈ clients, r.addr = c.addr ∧ r.id = c.id ∧ ∀ d ∈ r.dependencies,
    d ∈ c.unsatisfiedDeps ∨ ∃ y ∈ clients, y.id = d ∧ HasLoaded a y.addr log

/-- The state of a project that was restored with some clients; `log` is what happened since. -/
structure Launching (a : Addr) (clients : List Job) (v : View) (log : List Event) : Prop where
  loaded : v.loaded = true
  waits : ∀ c ∈ v.lost, c.unsatisfiedDeps ≠ [] → Waits a clients log c
  live : ∀ c ∈ v.live, c.unsatisfiedDeps = []
  started : ∀ c ∈ v.lost, c.pid ≠ 0 → ∃ r ∈ clients, r.addr = c.addr ∧ r.id = c.id
  loading : ∀ c ∈ v.live, c.taskType.isRestore = true → ∃ r ∈ clients, r.addr = c.addr ∧ r.id = c.id
  once : ∀ x, log.count (.launched a x) ≤ 1
  order : Before (LaunchedInOrder a clients) log

section

variable {a x : Addr} {clients : List Job} {v v' : View} {log evs : List Event} {c d : Job}

theorem HasLoaded.append (h : HasLoaded a x log)
    (evs : List Event) : HasLoaded a x (log ++ evs) := by
  obtain ⟨task, type, htype, hm⟩ := h
  exact ⟨task, type, htype, List.mem_append_left _ hm⟩

theorem Waits.append (h : Waits a clients log c) (hevs : .launched a c.addr ∉ evs) :
    Waits a clients (log ++ evs) c := by
  obtain ⟨r, hr, haddr, hid, hdeps⟩ := h.loaded
  refine ⟨h.pid, ?_, r, hr, haddr, hid, ?_⟩
  · intro hm
    rcases List.mem_append.mp hm with hm | hm
    · exact h.launched hm
    · exact hevs hm
  · intro d hd
    apply (hdeps d hd).imp_right
    rintro ⟨y, hy, hyd, hl⟩
    exact ⟨y, hy, hyd, hl.append evs⟩

/-- A move that launches nobody. -/
theorem Launching.keep (h : Launching a clients v log) (hevs : ∀ x, Event.launched a x ∉ evs)
    (hloaded : v'.loaded = true)
    (hlost : ∀ c ∈ v'.lost, c ∈ v.lost ∨ c.unsatisfiedDeps = [] ∧ c.pid = 0)
    (hlive : ∀ c ∈ v'.live, c ∈ v.live ∨ c.unsatisfiedDeps = [] ∧
      (c.taskType.isRestore = true → ∃ r ∈ clients, r.addr = c.addr ∧ r.id = c.id)) :
    Launching a clients v' (log ++ evs) where
  loaded := hloaded
  waits := by
    intro c hc hw
    rcases hlost c hc with hc | ⟨hnil, _⟩
    · exact (h.waits c hc hw).append (hevs _)
    · exact absurd hnil hw
  live := by
    intro c hc
    rcases hlive c hc with hc | ⟨hnil, _⟩
    · exact h.live c hc
    · exact hnil
  started := by
    intro c hc hp
    rcases hlost c hc with hc | ⟨_, hpid⟩
    · exact h.started c hc hp
    · exact absurd hpid hp
  loading := by
    intro c hc ht
    rcases hlive c hc with hc | ⟨_, hfrom⟩
    · exact h.loading c hc ht
    · exact hfrom ht
  once := by
    intro x
    rw [List.count_append, List.count_eq_zero_of_not_mem (hevs x)]
    exact h.once x
  order := by
    apply h.order.append_of_forall
    rintro e he pre x rfl
    exact absurd he (hevs x)

/-- A live client is overwritten. -/
theorem Launching.put (h : Launching a clients v log) (hevs : ∀ x, Event.launched a x ∉ evs)
    (hc : c ∈ v.live) (haddr : d.addr = c.addr) (hid : d.id = c.id)
    (hdeps : d.unsatisfiedDeps = c.unsatisfiedDeps)
    (htype : d.taskType.isRestore = true → c.taskType.isRestore = true) :
    Launching a clients (v.put d) (log ++ evs) := by
  refine h.keep hevs h.loaded (fun _ hx => Or.inl hx) ?_
  intro e he
  rcases Keyed.eq_or_mem_of_mem_put he with rfl | he
  · refine Or.inr ⟨hdeps.trans (h.live c hc), fun ht => ?_⟩
    rw [haddr, hid]
    exact h.loading c hc (htype ht)
  · exact Or.inl he

/-- A lost client that was launched is live again. -/
theorem Launching.revive (h : Launching a clients v log) (hevs : ∀ x, Event.launched a x ∉ evs)
    (hc : c ∈ v.lost) (hpid : c.pid ≠ 0) (haddr : d.addr = c.addr) (hid : d.id = c.id)
    (hdeps : d.unsatisfiedDeps = c.unsatisfiedDeps) :
    Launching a clients (v.revive d) (log ++ evs) := by
  have hnil : c.unsatisfiedDeps = [] := by
    by_contra hw
    exact hpid (h.waits c hc hw).pid
  refine h.keep hevs h.loaded (fun e he => Or.inl (Keyed.mem_of_mem_del he)) ?_
  intro e he
  rcases List.mem_cons.mp he with rfl | he
  · refine Or.inr ⟨hdeps.trans hnil, fun _ => ?_⟩
    rw [haddr, hid]
    exact h.started c hc hpid
  · exact Or.inl he

theorem Launching.count (h : Launching a clients v log) : Launching a clients v.count log := by
  have hkeep : Launching a clients v.count (log ++ []) := by
    refine h.keep (by simp) (by rw [View.loaded_count]; exact h.loaded) ?_ ?_
    · intro c hc
      rw [View.lost_count] at hc
      exact Or.inl hc
    · intro c hc
      rw [View.live_count] at hc
      exact Or.inl hc
  rwa [List.append_nil] at hkeep

theorem launched_not_mem_countEvents {name : CStr} {written modified : Bool} {type : EventType}
    (x : Addr) : Event.launched a x ∉ v.countEvents a name written modified type :=
  fun hm => absurd (isFinish_of_mem_countEvents hm) (by simp [Event.isFinish])

theorem launched_not_mem_askEvents {name : CStr} {task : Nat} (x : Addr) :
    Event.launched a x ∉ askEvents a name task v := by
  intro hm
  rcases List.mem_cons.mp hm with he | hm
  · exact absurd he (by simp)
  · obtain ⟨_, _, he⟩ := List.mem_map.mp hm
    exact absurd he (by simp)

theorem launched_not_mem_finishEvents {name : CStr} {written modified : Bool} {type : EventType}
    (x : Addr) : Event.launched a x ∉ finishEvents a name written modified type :=
  fun hm => absurd (isFinish_of_mem_finishEvents hm) (by simp [Event.isFinish])

theorem mem_launchEvents {l : List Job} : .launched a x ∈ launchEvents a l ↔ ∃ c ∈ l,
    c.addr = x := by
  simp [launchEvents]

/-- Clients with different addresses are launched once each. -/
theorem count_launchEvents_le {l : List Job} (hl : (l.map Job.addr).Nodup) (x : Addr) :
    (launchEvents a l).count (.launched a x) ≤ 1 := by
  have hnodup : (launchEvents a l).Nodup := by
    have := hl.map (f := fun y => Event.launched a y) (fun y z he => by simpa using he)
    rwa [List.map_map] at this
  exact List.nodup_iff_count_le_one.mp hnodup _

/-- A client that waits for nothing but `id` waits for it once. -/
theorem Job.Ready.unsatisfied {id : Uuid} (h : Job.Ready id c) : c.unsatisfiedDeps = [id] := by
  obtain ⟨hne, herase⟩ := h
  cases hu : c.unsatisfiedDeps with
  | nil => exact absurd hu hne
  | cons e l =>
      rw [hu] at herase
      by_cases he : e = id
      · rw [he, List.erase_cons_head] at herase
        rw [he, herase]
      · rw [List.erase_cons_tail (by simpa using he)] at herase
        exact absurd herase (by simp)

/-- The client `c` reports a restore task as done: whoever waited for it waits for one less, and is
launched if there is no other. -/
theorem Launching.satisfy {lost : List Job} {task : Nat} {type : EventType}
    (h : Launching a clients v log) (hd : v.Distinct) (hc : c ∈ v.live)
    (htype : c.taskType.isRestore = true)
    (hlost : List.Forall₂ (Job.Satisfied c.id) v.lost lost) (ht : type.isRestore = true)
    (hevs : ∀ x, Event.launched a x ∉ evs) :
    Launching a clients { v with lost := lost }
      (log ++ .taskCompleted a c.addr task type true
        :: (launchEvents a (v.lost.filter (Job.Ready c.id)) ++ evs)) := by
  -- what the others waited for has come about
  have hhas : ∃ y ∈ clients, y.id = c.id ∧ HasLoaded a y.addr
      [.taskCompleted a c.addr task type true] := by
    obtain ⟨r, hr, haddr, hid⟩ := h.loading c hc htype
    exact ⟨r, hr, hid, task, type, ht, by rw [haddr]; simp⟩
  have hlaunch : ∀ x, .launched a x ∈ launchEvents a (v.lost.filter (Job.Ready c.id)) ↔
      ∃ e ∈ v.lost, Job.Ready c.id e ∧ e.addr = x := by
    intro x
    rw [mem_launchEvents]
    simp only [List.mem_filter, decide_eq_true_eq, and_assoc]
  have hready : ∀ e ∈ v.lost, Job.Ready c.id e → Waits a clients log e ∧
      ∀ d ∈ e.unsatisfiedDeps, d = c.id := by
    intro e he hre
    refine ⟨h.waits e he hre.1, ?_⟩
    rw [hre.unsatisfied]
    simp
  have hmem : ∀ x, .launched a x ∈ Event.taskCompleted a c.addr task type true
      :: (launchEvents a (v.lost.filter (Job.Ready c.id)) ++ evs) ↔
      ∃ e ∈ v.lost, Job.Ready c.id e ∧ e.addr = x := by
    intro x
    rw [← hlaunch]
    simp [hevs]
  constructor
  case loaded => exact h.loaded
  case live => exact h.live
  case loading => exact h.loading
  case waits =>
    intro f hf hw
    obtain ⟨e, he, pid, rfl⟩ := exists_of_forall₂ hlost hf
    have hnr : ¬ Job.Ready c.id e := fun hr => hw hr.2
    have hwe : e.unsatisfiedDeps ≠ [] := by
      intro hnil
      exact hw (by simp [hnil])
    have hnot : Event.launched a e.addr ∉ Event.taskCompleted a c.addr task type true
        :: (launchEvents a (v.lost.filter (Job.Ready c.id)) ++ evs) := by
      intro hm
      obtain ⟨g, hg, hrg, haddr⟩ := (hmem e.addr).mp hm
      exact hnr (Keyed.eq_of_key_eq hd.lost hg he haddr ▸ hrg)
    have hwait := (h.waits e he hwe).append hnot
    obtain ⟨r, hr, haddr, hid, hdeps⟩ := hwait.loaded
    refine ⟨?_, hwait.launched, r, hr, haddr, hid, ?_⟩
    · rw [if_neg hnr]
      exact hwait.pid
    · intro d hdr
      by_cases hdc : d = c.id
      · obtain ⟨y, hy, hyc, hl⟩ := hhas
        refine Or.inr ⟨y, hy, hyc.trans hdc.symm, ?_⟩
        obtain ⟨task', type', ht', hm'⟩ := hl
        exact ⟨task', type', ht', by simp_all⟩
      · rcases hdeps d hdr with hde | hde
        · exact Or.inl ((List.mem_erase_of_ne hdc).mpr hde)
        · exact Or.inr hde
  case started =>
    intro f hf hp
    obtain ⟨e, he, pid, rfl⟩ := exists_of_forall₂ hlost hf
    by_cases hre : Job.Ready c.id e
    · obtain ⟨r, hr, haddr, hid, _⟩ := (hready e he hre).1.loaded
      exact ⟨r, hr, haddr, hid⟩
    · rw [if_neg hre] at hp
      exact h.started e he hp
  case once =>
    intro x
    rw [List.count_append]
    by_cases hx : ∃ e ∈ v.lost, Job.Ready c.id e ∧ e.addr = x
    · obtain ⟨e, he, hre, rfl⟩ := hx
      rw [List.count_eq_zero_of_not_mem (hready e he hre).1.launched, Nat.zero_add,
        List.count_cons_of_ne (by simp), List.count_append,
        List.count_eq_zero_of_not_mem (hevs e.addr), Nat.add_zero]
      apply count_launchEvents_le
      exact hd.lost.sublist (List.filter_sublist.map _)
    · rw [List.count_eq_zero_of_not_mem (fun hm => hx ((hmem x).mp hm))]
      exact h.once x
  case order =>
    apply h.order.append
    rintro pre e post heq x rfl
    have hm : Event.launched a x ∈ Event.taskCompleted a c.addr task type true
        :: (launchEvents a (v.lost.filter (Job.Ready c.id)) ++ evs) := by
      rw [heq]
      simp
    obtain ⟨e, he, hre, rfl⟩ := (hmem x).mp hm
    obtain ⟨hwait, honly⟩ := hready e he hre
    obtain ⟨r, hr, haddr, _, hdeps⟩ := hwait.loaded
    refine ⟨r, hr, haddr, fun d hdr => ?_⟩
    obtain ⟨mid, rfl, _⟩ := split_cons heq (by simp)
    rcases hdeps d hdr with hde | ⟨y, hy, hyd, hl⟩
    · obtain ⟨y, hy, hyc, task', type', ht', hm'⟩ := hhas
      refine ⟨y, hy, hyc.trans (honly d hde).symm, task', type', ht', ?_⟩
      rw [List.mem_singleton] at hm'
      rw [hm']
      simp
    · exact ⟨y, hy, hyd, hl.append _⟩

/-- What a restored project does keeps its clients in order, as long as nobody is launched by
hand. -/
theorem Launching.move {act : Act} (hmove : Move a v act evs v') (hd : v.Distinct)
    (h : Launching a clients v log) (hclose : act ≠ .close) (hlaunch : ∀ c, act ≠ .launch c) :
    Launching a clients v' (log ++ evs) := by
  cases hmove with
  | quiet => rwa [List.append_nil]
  | @join c name fresh idle hnew deps hname =>
      refine h.keep (by simp) rfl (fun _ hx => Or.inl hx) ?_
      intro e he
      rcases List.mem_cons.mp he with rfl | he
      · exact Or.inr ⟨deps.2, fun ht => absurd ht (by rw [idle.taskType]; decide)⟩
      · exact Or.inl he
  | @leave c hc =>
      refine h.keep (by simp) h.loaded ?_ (fun e he => Or.inl (Keyed.mem_of_mem_del he))
      intro e he
      rcases List.mem_cons.mp he with rfl | he
      · exact Or.inr ⟨h.live c hc, rfl⟩
      · exact Or.inl he
  | @sent c name task type e hc hpid htask he =>
      refine h.revive ?_ hc hpid rfl rfl rfl
      intro x
      cases he <;> simp
  | silent hc hpid => exact h.revive (by simp) hc hpid rfl rfl rfl
  | @stateless c name pname written modified hc hpid =>
      refine (h.revive (d := { c.reconnect name with taskType := .unknown }) ?_ hc hpid rfl rfl
        rfl).count
      simp [launched_not_mem_countEvents]
  | @cleared c ok written hc hp htype =>
      exact h.put (by simp) hc rfl rfl rfl (by simp)
  | @failed c written modified pname hc hp htype =>
      refine (h.put (d := c.done c.flags) ?_ hc rfl rfl rfl (by simp)).count
      simp [launched_not_mem_countEvents]
  | @saved c flags written modified pname hc hp htype =>
      refine (h.put (d := c.done flags) ?_ hc rfl rfl rfl (by simp)).count
      simp [launched_not_mem_countEvents]
  | @restored c lost written modified pname hc hp htype hlost =>
      have hsat : Launching a clients { v with lost := lost }
          (log ++ .taskCompleted a c.addr c.pendingTask c.taskType true
            :: (launchEvents a (v.lost.filter (Job.Ready c.id))
              ++ v.countEvents a pname written modified c.taskType)) :=
        h.satisfy hd hc htype hlost htype launched_not_mem_countEvents
      have hput : Launching a clients (View.put { v with lost := lost } (c.done c.flags))
          (_ ++ []) :=
        hsat.put (by simp) hc rfl rfl rfl (by simp)
      rw [List.append_nil] at hput
      exact hput.count
  | @skipped c evs' written htask hc hp hevs =>
      refine h.keep ?_ h.loaded (fun _ hx => absurd hx (by simp)) (fun _ hx => Or.inl hx)
      intro x hm
      rcases List.mem_cons.mp hm with he | hm
      · exact absurd he (by simp [beginEvent])
      · rcases hevs with rfl | ⟨name, modified, rfl⟩
        · exact absurd hm (by simp)
        · exact launched_not_mem_finishEvents x hm
  | @asked name task evs' written htask hp ht hevs =>
      refine h.keep ?_ h.loaded (fun _ hx => absurd hx (by simp [View.ask])) ?_
      · intro x hm
        rcases List.mem_cons.mp hm with he | hm
        · exact absurd he (by simp [beginEvent])
        · rcases List.mem_append.mp hm with hm | hm
          · exact launched_not_mem_askEvents x hm
          · rcases hevs with ⟨_, rfl⟩ | ⟨_, modified, rfl⟩
            · exact absurd hm (by simp)
            · exact launched_not_mem_finishEvents x hm
      · intro e he
        obtain ⟨c, hc, rfl⟩ := List.mem_map.mp he
        unfold Job.ask
        split
        · refine Or.inr ⟨h.live c hc, fun ht => absurd ht ?_⟩
          simp only [Job.give]
          split <;> decide
        · exact Or.inl hc
  | close => exact absurd rfl hclose
  | restore hloaded => exact absurd (h.loaded.symm.trans hloaded) (by decide)
  | @launch c pid hc => exact absurd rfl (hlaunch c)
  | @depend c id hc =>
      exact h.put (d := { c with dependencies := id :: c.dependencies }) (by simp) hc rfl rfl rfl
        (fun ht => ht)
  | @undepend c id hc =>
      exact h.put (d := { c with dependencies := c.dependencies.erase id }) (by simp) hc rfl rfl rfl
        (fun ht => ht)

/-- A project has just been restored. -/
theorem Launching.start {cs : List Job} (hmove : Move a v (.restore cs) evs v') :
    Launching a v'.lost v' evs := by
  cases hmove with
  | @restore _ lost hloaded hjobs hidle hdist hlost =>
      obtain ⟨hlive, _⟩ := List.append_eq_nil_iff.mp hjobs
      have hmem : ∀ x, .launched a x ∈ Event.restored a (cs.map Job.addr) :: launchEvents a
          (cs.filter (fun c => c.saneDeps (cs.map Job.id) = [])) ↔
          ∃ c ∈ cs, c.saneDeps (cs.map Job.id) = [] ∧ c.addr = x := by
        intro x
        simp [mem_launchEvents, and_assoc]
      constructor
      case loaded => rfl
      case waits =>
        intro d hdl hw
        obtain ⟨c, hc, pid, rfl⟩ := exists_of_forall₂ hlost hdl
        have hne : c.saneDeps (cs.map Job.id) ≠ [] := fun hnil => hw (by simp [hnil])
        refine ⟨?_, ?_, _, hdl, rfl, rfl, ?_⟩
        · rw [if_neg hne]
          exact (hidle c hc).2
        · intro hm
          obtain ⟨e, he, hnil, haddr⟩ := (hmem _).mp hm
          exact hne (Keyed.eq_of_key_eq hdist he hc haddr ▸ hnil)
        · intro x hx
          exact Or.inl (List.mem_reverse.mpr hx)
      case live =>
        intro c hc
        exact absurd (hlive ▸ hc) (by simp)
      case started => exact fun c hc _ => ⟨c, hc, rfl, rfl⟩
      case loading =>
        intro c hc
        exact absurd (hlive ▸ hc) (by simp)
      case once =>
        intro x
        rw [List.count_cons_of_ne (by simp)]
        apply count_launchEvents_le
        exact hdist.sublist (List.filter_sublist.map _)
      case order =>
        rintro pre e post heq x rfl
        obtain ⟨c, hc, hnil, rfl⟩ := (hmem x).mp (by rw [heq]; simp)
        obtain ⟨d, hd, pid, rfl⟩ : ∃ d ∈ lost, Job.Restored (cs.map Job.id) c d := by
          obtain ⟨n, hn, rfl⟩ := List.getElem_of_mem hc
          have hn' : n < lost.length := hlost.length_eq ▸ hn
          exact ⟨lost[n], List.getElem_mem hn', hlost.get hn hn'⟩
        refine ⟨_, hd, rfl, fun x hx => ?_⟩
        rw [hnil] at hx
        exact absurd hx (by simp)

end

/-! ## Runs -/

/-- Somebody asks for a client to be launched. -/
def Input.byHand : Input → Bool
  | .lostClientLaunch _ _ => true
  | _ => false

namespace Server

variable {s t u : Server} {a : Addr} {i : Input}

/-- An input that opens a project restores it, if the project is loaded afterwards. -/
theorem restore_of_restoring {act : Act} {evs : List Event} {v' : View} (hload : a ∉ s.loaded)
    (hres : s.restoring i = some a) (hexp : s.Explains i a act)
    (hmove : Move a (s.view a) act evs v') (hl : v'.loaded = true) : ∃ cs, act = .restore cs := by
  have hv : ¬ (s.view a).loaded = true := by simpa [Server.view, Project.view] using hload
  cases hmove with
  | restore => exact ⟨_, rfl⟩
  | join =>
      obtain ⟨_, _, _, _, _, _, _, rfl⟩ := hexp
      exact absurd hres (by simp [restoring])
  | close => exact absurd hl (by simp)
  | stateless | failed | saved | restored =>
      rw [View.loaded_count] at hl
      exact absurd hl hv
  | _ => exact absurd hl hv

/-- The step that restores a project. -/
theorem Wf.restored (hw : s.Wf) (hres : s.restoring i = some a) (hstep : s.step i = some t)
    (ha : a ∈ t.loaded) :
    ∃ cs evs, Move a (s.view a) (.restore cs) evs (t.view a) ∧
      tasks a t.g.log = tasks a s.g.log ++ evs ∧ s.Explains i a (.restore cs) := by
  obtain ⟨act, evs, hmove, hlog, hexp⟩ := (hw.step_answers hstep).move a
  obtain ⟨cs, rfl⟩ := restore_of_restoring (restoring_not_mem hres) hres hexp hmove
    (by simpa [Server.view, Project.view] using ha)
  exact ⟨cs, evs, hmove, hlog, hexp⟩

/-- A restored project tells its clients apart. -/
theorem restored_ids {cs : List Job} {evs : List Event} (hw : s.Wf)
    (hmove : Move a (s.view a) (.restore cs) evs (t.view a)) (hexp : s.Explains i a (.restore cs))
    (hids : (s.project a).DistinctIds) : ((t.project a).lostClients.map Client.id).Nodup := by
  have hlost : (t.view a).lost.map Job.id = cs.map Job.id := by
    generalize t.view a = v at hmove
    cases hmove with
    | restore _ _ _ _ hlost =>
        exact forall₂_map_eq hlost (fun c c' hr => by obtain ⟨pid, rfl⟩ := hr; rfl)
  have hload : (s.view a).loaded = false := by
    generalize t.view a = v at hmove
    cases hmove with
    | restore hload => exact hload
  obtain ⟨l, hread, rfl⟩ := hexp.restored hw hload
  rw [Server.view, Project.view, List.map_map, List.map_map] at hlost
  rw [show (t.project a).lostClients.map Client.id = _ from hlost,
    show l.map (Job.id ∘ Client.job) = l.map Client.id from rfl, readClients_ids hread]
  rw [List.map_nil, List.append_nil, List.nodup_reverse]
  exact hids

/-- The project stays open, and no client is launched by hand. -/
def Unattended (s : Server) (a : Addr) (i : Input) : Prop :=
  s.closing i ≠ some a ∧ i.byHand = false

instance (s : Server) (a : Addr) (i : Input) : Decidable (s.Unattended a i) :=
  inferInstanceAs (Decidable (_ ∧ _))

/-- No client is launched twice, and none before all the clients it depends on have loaded. -/
structure LaunchesInOrder (a : Addr) (clients : List Client) (log : List Event) : Prop where
  once : ∀ x, log.count (.launched a x) ≤ 1
  order : ∀ pre x post, log = pre ++ .launched a x :: post →
    ∃ c ∈ clients, c.addr = x ∧ ∀ d ∈ c.dependencies,
      (∃ y ∈ clients, y.id = d) ∧ ∀ y ∈ clients, y.id = d → HasLoaded a y.addr pre

/-- **A restored project launches its clients in the order of their dependencies**, whatever happens
until it is closed. -/
theorem launched_in_order {fs : Fs} {dir : CStr} {ok : Server → Input → Prop}
    (h : Reachable ok fs dir s) (hres : s.restoring i = some a) (hstep : s.step i = some t)
    (ha : a ∈ t.loaded) (hids : (s.project a).DistinctIds)
    (hrun : Runs.Reach step (fun u j => u.Unattended a j) t u) :
    ∃ log, tasks a u.g.log = tasks a s.g.log ++ log ∧
      LaunchesInOrder a (t.project a).lostClients log := by
  obtain ⟨cs, evs, hmove, hlog, hexp⟩ := h.wf.restored hres hstep ha
  have hwt : t.Wf := (h.wf.step_answers hstep).wf h.wf
  have hinv : ∃ log, tasks a u.g.log = tasks a s.g.log ++ log ∧
      Launching a (t.view a).lost (u.view a) log := by
    refine hwt.induction (I := fun v log => ∃ new, log = tasks a s.g.log ++ new ∧
      Launching a (t.view a).lost v new) a ⟨evs, hlog, .start hmove⟩ ?_ hrun
    rintro w j v' act evs' hw hok hexp' hmove' ⟨new, hnew, hI⟩
    refine ⟨new ++ evs', by rw [hnew, List.append_assoc], hI.move hmove' (hw.distinct a) ?_ ?_⟩
    · rintro rfl
      exact hok.1 hexp'
    · rintro c rfl
      obtain ⟨project, client, rfl⟩ := hexp'
      exact absurd hok.2 (by simp [Input.byHand])
  obtain ⟨log, hlogu, hI⟩ := hinv
  refine ⟨log, hlogu, hI.once, ?_⟩
  intro pre x post heq
  obtain ⟨_, hcv, haddr, hdeps⟩ := hI.order pre _ post heq x rfl
  obtain ⟨c, hc, rfl⟩ := List.mem_map.mp hcv
  refine ⟨c, hc, haddr, fun d hd => ?_⟩
  obtain ⟨_, hyv, hyd, hl⟩ := hdeps d hd
  obtain ⟨y, hy, rfl⟩ := List.mem_map.mp hyv
  refine ⟨⟨y, hy, hyd⟩, fun z hz hzd => ?_⟩
  have hnodup := restored_ids h.wf hmove hexp hids
  rwa [List.inj_on_of_nodup_map hnodup hz hy (hzd.trans hyd.symm)]

/-- Two clients, the second of which depends on the first: when the first has loaded the second is
launched. -/
theorem launched_in_order_two :
    ∃ s t u, Reachable FreshId emptyDisk (cstr "/p") s ∧
      s.step (.projectOpen (cstr "New Project")) = some t ∧
      Runs.Reach step (fun u j => u.Unattended 1 j) t u ∧
      (∃ c ∈ (t.project 1).lostClients, c.dependencies ≠ [] ∧ .launched 1 c.addr ∈ u.g.log) ∧
      ∃ log, tasks 1 u.g.log = tasks 1 s.g.log ++ log ∧
        LaunchesInOrder 1 (t.project 1).lostClients log := by
  have hrun : (runFrom FreshId
      [.connect (cstr ":1") 5 (cstr "synth") flagConfigFile [] [cstr "synth"] 1,
        .connect (cstr ":2") 6 (cstr "drums") flagConfigFile [] [cstr "drums"] 2,
        .addDependency (cstr "New Project") (uuidUnparse 2) (uuidUnparse 1),
        .projectSave (cstr "New Project"),
        .progress (cstr ":1") [.uint64 1, .byte 255],
        .progress (cstr ":2") [.uint64 1, .byte 255],
        .projectClose (cstr "New Project"),
        .outside emptyDisk [7, 8]]).any
      (fun s => s.restoring (.projectOpen (cstr "New Project")) = some 1 ∧
        (s.project 1).DistinctIds ∧
        (s.step (.projectOpen (cstr "New Project"))).any (fun t => 1 ∈ t.loaded ∧
          (Runs.exec step (fun u j => u.Unattended 1 j) t
            [.connect (cstr ":3") 7 (cstr "synth") flagConfigFile [] [cstr "synth"] 3,
              .progress (cstr ":3") [.uint64 2, .byte 255]]).any
            (fun u => ∃ c ∈ (t.project 1).lostClients, c.dependencies ≠ [] ∧
              .launched 1 c.addr ∈ u.g.log))) = true := by
    decide +kernel
  obtain ⟨s, hs, hgood⟩ := exists_of_runFrom hrun
  obtain ⟨hres, hids, hgood⟩ := of_decide_eq_true hgood
  obtain ⟨t, ht, hgood⟩ := (Option.any_eq_true ..).mp hgood
  obtain ⟨ha, hgood⟩ := of_decide_eq_true hgood
  obtain ⟨u, hu, hgood⟩ := (Option.any_eq_true ..).mp hgood
  have hreach := Runs.Reach.of_exec hu
  exact ⟨s, t, u, hs, ht, hreach, of_decide_eq_true hgood,
    launched_in_order hs hres ht ha hids hreach⟩

end Server

end Lash
