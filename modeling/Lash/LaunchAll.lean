import Lash.LaunchOrder
import Lash.Circular

/-!
# A restore leaves no client behind

The clients of a restored project are launched one after another as those they depend on load. The
restore comes to rest when every launched client is back and has loaded what it was sent. Are all
clients launched then? Only a client that is sent something to load releases the ones that wait
for it, so the answer depends on who is sent nothing; `LeftOver` keeps track of those that wait.
-/

namespace Lash

open Search

/-- The task that an event gives to a client to load. -/
def Event.loads (a x : Addr) : Event → Option Nat
  | .load b y _ task _ | .loadDataSet b y _ task _ => if b = a ∧ y = x then some task else none
  | _ => none

/-- Every client that was launched is back, and every task to load that was sent was reported as
done. -/
structure Settled (a : Addr) (log : List Event) : Prop where
  connected : ∀ x, .launched a x ∈ log → .resumed a x ∈ log
  reported : ∀ x, ∀ e ∈ log, ∀ task ∈ e.loads a x,
    ∃ type, type.isRestore = true ∧ .taskCompleted a x task type true ∈ log

/-- A restored client that was not launched: it is lost and waits for clients that have not
loaded. Of these, the ones that are back were sent something to load. -/
structure Unlaunched (a : Addr) (clients : List Job) (log : List Event) (r c : Job) : Prop where
  addr : c.addr = r.addr
  pid : c.pid = 0
  waits : c.unsatisfiedDeps ≠ []
  nodup : c.unsatisfiedDeps.Nodup
  depends : ∀ d ∈ c.unsatisfiedDeps, d ∈ r.dependencies
  unloaded : ∀ y ∈ clients, y.id ∈ c.unsatisfiedDeps → ¬ HasLoaded a y.addr log
  sent : ∀ y ∈ clients, y.id ∈ c.unsatisfiedDeps → .resumed a y.addr ∈ log →
    ∃ e ∈ log, (e.loads a y.addr).isSome = true

/-- The state of a project that was restored with some clients, as long as not all are launched;
`log` is what happened since. -/
structure LeftOver (a : Addr) (clients : List Job) (v : View) (log : List Event) : Prop where
  loaded : v.loaded = true
  ids : ∀ c ∈ v.jobs, ∀ r ∈ clients, c.addr = r.addr → c.id = r.id
  known : ∀ r ∈ clients, r.addr ∈ v.addrs
  unlaunched : ∀ r ∈ clients, .launched a r.addr ∉ log → ∃ c ∈ v.lost, Unlaunched a clients log r c

/-- All restored clients are launched, or the others wait. -/
def Restoring (a : Addr) (clients : List Job) (v : View) (log : List Event) : Prop :=
  (∀ r ∈ clients, .launched a r.addr ∈ log) ∨ LeftOver a clients v log

section

variable {a x : Addr} {clients : List Job} {v v' : View} {log evs : List Event} {act : Act}
  {r c d : Job}

theorem hasLoaded_append : HasLoaded a x (log ++ evs) ↔ HasLoaded a x log ∨ HasLoaded a x evs := by
  constructor
  · rintro ⟨task, type, ht, hm⟩
    rcases List.mem_append.mp hm with hm | hm
    · exact Or.inl ⟨task, type, ht, hm⟩
    · exact Or.inr ⟨task, type, ht, hm⟩
  · rintro (h | ⟨task, type, ht, hm⟩)
    · exact h.append evs
    · exact ⟨task, type, ht, List.mem_append_right _ hm⟩

/-- The clients of a project stay, unless it is saved or closed. -/
theorem Move.addrs_stay (h : Move a v act evs v') (hd : v.Distinct) (hclose : act ≠ .close)
    (hsave : ∀ asked written, act ≠ .save asked written) (hx : x ∈ v.addrs) : x ∈ v'.addrs := by
  cases h with
  | quiet => exact hx
  | join => exact List.mem_cons_of_mem _ hx
  | @leave c hc => exact (View.addrs_drop hd (d := { c with pid := 0 }) hc rfl).mem_iff.mpr hx
  | @sent c name task type e hc =>
      exact (View.addrs_revive hd (d := (c.reconnect name).give task type) hc rfl).mem_iff.mpr hx
  | @silent c name hc =>
      exact (View.addrs_revive hd (d := c.reconnect name) hc rfl).mem_iff.mpr hx
  | @stateless c name pname written modified hc =>
      rw [View.addrs_count]
      exact (View.addrs_revive hd (d := { c.reconnect name with taskType := .unknown }) hc
        rfl).mem_iff.mpr hx
  | cleared => rwa [View.addrs_put]
  | failed | saved => rwa [View.addrs_count, View.addrs_put]
  | @restored c lost written modified pname hc hp htype hall =>
      rw [View.addrs_count, View.addrs_put, View.addrs_eq]
      rw [View.addrs_eq] at hx
      rwa [show lost.map Job.addr = v.lost.map Job.addr from
        forall₂_map_eq hall (fun _ _ hs => hs.addr)]
  | skipped => exact absurd rfl (hsave _ _)
  | asked => exact absurd rfl (hsave _ _)
  | close => exact absurd rfl hclose
  | restore hload hjobs =>
      rw [View.addrs, hjobs] at hx
      exact absurd hx (by simp)
  | launch hc =>
      rw [View.addrs_eq] at hx ⊢
      rwa [Keyed.map_key_put]
  | depend => rwa [View.addrs_put]
  | undepend => rwa [View.addrs_put]

/-- The clients keep their ids. -/
theorem LeftOver.ids_move (h : LeftOver a clients v log) (hmove : Move a v act evs v') :
    ∀ c ∈ v'.jobs, ∀ r ∈ clients, c.addr = r.addr → c.id = r.id := by
  intro d hd r hr haddr
  rcases hmove.descends hd with ⟨c, hc, hcd⟩ | rfl | ⟨cs, rfl⟩ | ⟨c, hc, id, _, rfl⟩
  · rw [← hcd.id]
    exact h.ids c hc r hr (hcd.addr.trans haddr)
  · cases hmove with
    | join fresh => exact absurd (haddr ▸ h.known r hr) fresh
  · cases hmove with
    | restore hload => exact absurd (h.loaded.symm.trans hload) (by decide)
  · exact h.ids c (List.mem_append_left _ hc) r hr haddr

/-- A move in which nobody loads: those that were not launched are lost as before. -/
theorem Unlaunched.append (h : Unlaunched a clients log r c) (hload : ∀ x, ¬ HasLoaded a x evs)
    (hres : ∀ y ∈ clients, y.id ∈ c.unsatisfiedDeps → .resumed a y.addr ∈ evs →
      ∃ e ∈ evs, (e.loads a y.addr).isSome = true) : Unlaunched a clients (log ++ evs) r c where
  addr := h.addr
  pid := h.pid
  waits := h.waits
  nodup := h.nodup
  depends := h.depends
  unloaded := by
    intro y hy hyc hl
    rcases hasLoaded_append.mp hl with hl | hl
    · exact h.unloaded y hy hyc hl
    · exact hload _ hl
  sent := by
    intro y hy hyc hm
    rcases List.mem_append.mp hm with hm | hm
    · obtain ⟨e, he, hs⟩ := h.sent y hy hyc hm
      exact ⟨e, List.mem_append_left _ he, hs⟩
    · obtain ⟨e, he, hs⟩ := hres y hy hyc hm
      exact ⟨e, List.mem_append_right _ he, hs⟩

/-- A move in which nobody loads, of a project whose clients stay: those that were not launched
wait as before. -/
theorem LeftOver.keep (h : LeftOver a clients v log) (hmove : Move a v act evs v') (hd : v.Distinct)
    (hclose : act ≠ .close) (hsave : ∀ asked written, act ≠ .save asked written)
    (hloaded : v'.loaded = true)
    (hlost : ∀ c ∈ v.lost, c.pid = 0 → .launched a c.addr ∉ evs → c ∈ v'.lost)
    (hload : ∀ x, ¬ HasLoaded a x evs)
    (hres : ∀ x, .resumed a x ∈ evs → ∀ c ∈ v.lost, .launched a c.addr ∉ log →
      ∀ y ∈ clients, y.addr = x → y.id ∈ c.unsatisfiedDeps →
        ∃ e ∈ evs, (e.loads a x).isSome = true) :
    LeftOver a clients v' (log ++ evs) where
  loaded := hloaded
  ids := h.ids_move hmove
  known := fun r hr => hmove.addrs_stay hd hclose hsave (h.known r hr)
  unlaunched := by
    intro r hr hn
    rw [List.mem_append, not_or] at hn
    obtain ⟨c, hc, hu⟩ := h.unlaunched r hr hn.1
    refine ⟨c, hlost c hc hu.pid (hu.addr ▸ hn.2), hu.append hload ?_⟩
    intro y hy hyc hm
    exact hres y.addr hm c hc (hu.addr ▸ hn.1) y hy rfl hyc

/-- The client `c` reports a restore task as done: nobody waits for it any more, and who waited for
nobody else is launched. -/
theorem LeftOver.satisfy {lost : List Job} {task : Nat} {type : EventType}
    (h : LeftOver a clients v log) (hc : c ∈ v.live)
    (hall : List.Forall₂ (Job.Satisfied c.id) v.lost lost)
    (hload : ∀ x, ¬ HasLoaded a x evs) (hres : ∀ x, .resumed a x ∉ evs) :
    ∀ r ∈ clients, .launched a r.addr ∉ log ++ .taskCompleted a c.addr task type true
        :: (launchEvents a (v.lost.filter (Job.Ready c.id)) ++ evs) →
      ∃ e ∈ lost, Unlaunched a clients (log ++ .taskCompleted a c.addr task type true
        :: (launchEvents a (v.lost.filter (Job.Ready c.id)) ++ evs)) r e := by
  intro r hr hn
  rw [List.mem_append, not_or, List.mem_cons, not_or, List.mem_append, not_or] at hn
  obtain ⟨hlog, _, hlaunch, _⟩ := hn
  obtain ⟨e, he, hu⟩ := h.unlaunched r hr hlog
  have hready : ¬ Job.Ready c.id e := by
    intro hre
    refine hlaunch (mem_launchEvents.mpr ⟨e, ?_, hu.addr⟩)
    exact List.mem_filter.mpr ⟨he, decide_eq_true hre⟩
  have hne : e.unsatisfiedDeps.erase c.id ≠ [] := fun hnil => hready ⟨hu.waits, hnil⟩
  obtain ⟨f, hf, pid, rfl⟩ : ∃ f ∈ lost, Job.Satisfied c.id e f := by
    obtain ⟨n, hn, rfl⟩ := List.getElem_of_mem he
    have hn' : n < lost.length := hall.length_eq ▸ hn
    exact ⟨lost[n], List.getElem_mem hn', hall.get hn hn'⟩
  have hmem : ∀ {x}, x ∈ e.unsatisfiedDeps.erase c.id → x ≠ c.id ∧ x ∈ e.unsatisfiedDeps := by
    intro x hx
    exact hu.nodup.mem_erase_iff.mp hx
  refine ⟨_, hf, hu.addr, ?_, hne, hu.nodup.erase _, ?_, ?_, ?_⟩
  · rw [if_neg hready]
    exact hu.pid
  · exact fun x hx => hu.depends x (hmem hx).2
  · -- whoever it still waits for is not the client that has loaded
    intro y hy hyc hl
    obtain ⟨hne', hye⟩ := hmem hyc
    rcases hasLoaded_append.mp hl with hl | ⟨task', type', ht, hm⟩
    · exact hu.unloaded y hy hye hl
    · rcases List.mem_cons.mp hm with he | hm
      · apply hne'
        exact (h.ids c (List.mem_append_left _ hc) y hy (Event.taskCompleted.inj he).2.1.symm).symm
      · rcases List.mem_append.mp hm with hm | hm
        · exact absurd hm (by simp [launchEvents])
        · exact hload y.addr ⟨task', type', ht, hm⟩
  · intro y hy hyc hm
    obtain ⟨_, hye⟩ := hmem hyc
    rcases List.mem_append.mp hm with hm | hm
    · obtain ⟨e', he', hs⟩ := hu.sent y hy hye hm
      exact ⟨e', List.mem_append_left _ he', hs⟩
    · refine absurd hm ?_
      simp [launchEvents, hres]

theorem Sent.loads {name : CStr} {task : Nat} {type : EventType} {e : Event}
    (h : Sent a c name task type e) : (e.loads a c.addr).isSome = true := by
  cases h <;> simp [Event.loads]

theorem not_hasLoaded_of_isFinish (h : ∀ e ∈ evs, e.isFinish = true) : ¬ HasLoaded a x evs := by
  rintro ⟨task, type, _, hm⟩
  exact absurd (h _ hm) (by simp [Event.isFinish])

theorem not_hasLoaded_cons {e : Event} (h : ¬ HasLoaded a x evs)
    (he : ∀ task type, type.isRestore = true → e ≠ .taskCompleted a x task type true) :
    ¬ HasLoaded a x (e :: evs) := by
  rintro ⟨task, type, ht, hm⟩
  rcases List.mem_cons.mp hm with rfl | hm
  · exact he task type ht rfl
  · exact h ⟨task, type, ht, hm⟩

theorem not_hasLoaded_nil : ¬ HasLoaded a x [] := by
  rintro ⟨task, type, _, hm⟩
  exact absurd hm (by simp)

/-- The act does not leave a client behind: who comes back and is waited for is sent something to
load, and no save clears the clients that wait. -/
def Act.LeavesNobody (a : Addr) (v : View) (log : List Event) : Act → Prop
  | .resume y answer => ∀ c ∈ v.lost, .launched a c.addr ∉ log → y.id ∈ c.unsatisfiedDeps →
      answer = .sent
  | .save _ _ => v.task = .idle → ∀ c ∈ v.lost, .launched a c.addr ∉ log → c.unsatisfiedDeps = []
  | .close => False
  | _ => True

theorem Restoring.append (h : ∀ r ∈ clients, .launched a r.addr ∈ log) :
    Restoring a clients v (log ++ evs) :=
  Or.inl (fun r hr => List.mem_append_left _ (h r hr))

/-- A save leaves nobody behind if nobody waits. -/
theorem LeftOver.saved (h : LeftOver a clients v log)
    (hnone : ∀ c ∈ v.lost, .launched a c.addr ∉ log → c.unsatisfiedDeps = []) :
    ∀ r ∈ clients, .launched a r.addr ∈ log := by
  intro r hr
  by_contra hn
  obtain ⟨c, hc, hu⟩ := h.unlaunched r hr hn
  exact hu.waits (hnone c hc (hu.addr ▸ hn))

theorem LeftOver.move (h : LeftOver a clients v log) (hmove : Move a v act evs v')
    (hd : v.Distinct) (hok : act.LeavesNobody a v log) : Restoring a clients v' (log ++ evs) := by
  -- a lost client that was not launched is not the one that is back
  have hdel : ∀ {y c : Job} {k : Addr}, y ∈ v.lost → y.pid ≠ 0 → c ∈ v.lost → c.pid = 0 →
      y.addr = k → c ∈ Keyed.del Job.addr k v.lost := by
    rintro y c _ hy hpid hc hp rfl
    refine Keyed.mem_del.mpr ⟨hc, fun he => hpid ?_⟩
    rw [← Keyed.eq_of_key_eq hd.lost hc hy he]
    exact hp
  have hcount : ∀ {name written modified type x},
      ¬ HasLoaded a x (v.countEvents a name written modified type) :=
    not_hasLoaded_of_isFinish (fun _ => isFinish_of_mem_countEvents)
  have hmove' := hmove
  cases hmove with
  | quiet =>
      refine Or.inr (h.keep hmove' hd (by simp) (by simp) h.loaded (fun _ hc _ _ => hc) ?_
        (by simp))
      exact fun x => not_hasLoaded_nil
  | join =>
      refine Or.inr (h.keep hmove' hd (by simp) (by simp) rfl (fun _ hc _ _ => hc) ?_ (by simp))
      exact fun x => not_hasLoaded_cons not_hasLoaded_nil (by simp)
  | leave =>
      refine Or.inr (h.keep hmove' hd (by simp) (by simp) h.loaded
        (fun _ hc _ _ => List.mem_cons_of_mem _ hc) ?_ (by simp))
      exact fun x => not_hasLoaded_cons not_hasLoaded_nil (by simp)
  | @sent y name task type e hy hpid htask he =>
      refine Or.inr (h.keep hmove' hd (by simp) (by simp) h.loaded
        (fun c hc hp _ => hdel hy hpid hc hp rfl) ?_ ?_)
      · intro x
        apply not_hasLoaded_cons _ (by simp)
        apply not_hasLoaded_cons _ (by simp)
        apply not_hasLoaded_cons not_hasLoaded_nil
        cases he <;> simp
      · intro x hx _ _ _ _ _ _ _
        have hxy : x = y.addr := by
          cases he <;> simpa using hx
        refine ⟨e, by simp, ?_⟩
        rw [hxy]
        exact he.loads
  | @silent y name hy hpid =>
      refine Or.inr (h.keep hmove' hd (by simp) (by simp) h.loaded
        (fun c hc hp _ => hdel hy hpid hc hp rfl) ?_ ?_)
      · intro x
        apply not_hasLoaded_cons _ (by simp)
        exact not_hasLoaded_cons not_hasLoaded_nil (by simp)
      · intro x hx c hc hn z hz hzx hzc
        have hxy : x = y.addr := by simpa using hx
        have hid := h.ids y (List.mem_append_right _ hy) z hz (hzx.trans hxy).symm
        exact absurd (hok c hc hn (hid ▸ hzc)) (by simp)
  | @stateless y name pname written modified hy hpid =>
      refine Or.inr
        (h.keep hmove' hd (by simp) (by simp) (by rw [View.loaded_count]; exact h.loaded)
        ?_ ?_ ?_)
      · intro c hc hp _
        rw [View.lost_count]
        exact hdel hy hpid hc hp rfl
      · intro x
        apply not_hasLoaded_cons _ (by simp)
        exact not_hasLoaded_cons hcount (by simp)
      · intro x hx c hc hn z hz hzx hzc
        have hxy : x = y.addr := by simpa [resumed_not_mem_countEvents] using hx
        have hid := h.ids y (List.mem_append_right _ hy) z hz (hzx.trans hxy).symm
        exact absurd (hok c hc hn (hid ▸ hzc)) (by simp)
  | cleared hc hp htype =>
      refine Or.inr (h.keep hmove' hd (by simp) (by simp) h.loaded (fun _ hc _ _ => hc) ?_
        (by simp))
      refine fun x => not_hasLoaded_cons not_hasLoaded_nil ?_
      rintro task type ht he
      rw [← (Event.taskCompleted.inj he).2.2.2.1, htype] at ht
      exact absurd ht (by decide)
  | failed =>
      refine Or.inr
        (h.keep hmove' hd (by simp) (by simp) (by rw [View.loaded_count]; exact h.loaded)
        (fun _ hc _ _ => by rwa [View.lost_count]) ?_ (by simp [resumed_not_mem_countEvents]))
      exact fun x => not_hasLoaded_cons hcount (by simp)
  | saved hc hp htype =>
      refine Or.inr
        (h.keep hmove' hd (by simp) (by simp) (by rw [View.loaded_count]; exact h.loaded)
        (fun _ hc _ _ => by rwa [View.lost_count]) ?_ (by simp [resumed_not_mem_countEvents]))
      refine fun x => not_hasLoaded_cons hcount ?_
      rintro task type ht he
      rw [← (Event.taskCompleted.inj he).2.2.2.1] at ht
      exact absurd (isSave_ne_isRestore htype) (by rw [ht]; decide)
  | @restored c lost written modified pname hc hp htype hall =>
      refine Or.inr ⟨?_, h.ids_move hmove', fun r hr => hmove'.addrs_stay hd (by simp) (by simp)
        (h.known r hr), ?_⟩
      · rw [View.loaded_count]
        exact h.loaded
      · intro r hr hn
        rw [View.lost_count]
        exact h.satisfy hc hall (fun x => hcount) resumed_not_mem_countEvents r hr hn
  | skipped htask => exact Restoring.append (h.saved (hok htask))
  | asked htask => exact Restoring.append (h.saved (hok htask))
  | close => exact absurd hok (by simp [Act.LeavesNobody])
  | restore hload => exact absurd (h.loaded.symm.trans hload) (by decide)
  | @launch y pid hy =>
      refine Or.inr (h.keep hmove' hd (by simp) (by simp) h.loaded ?_ ?_ (by simp))
      · intro c hc _ hn
        refine Keyed.mem_put.mpr (Or.inr ⟨hc, fun he => hn ?_⟩)
        rw [show c.addr = y.addr from he]
        simp
      · exact fun x => not_hasLoaded_cons not_hasLoaded_nil (by simp)
  | depend =>
      refine Or.inr (h.keep hmove' hd (by simp) (by simp) h.loaded (fun _ hc _ _ => hc) ?_
        (by simp))
      exact fun x => not_hasLoaded_nil
  | undepend =>
      refine Or.inr (h.keep hmove' hd (by simp) (by simp) h.loaded (fun _ hc _ _ => hc) ?_
        (by simp))
      exact fun x => not_hasLoaded_nil

/-- A project has just been restored: the clients that were not launched at once wait. -/
theorem LeftOver.start {cs : List Job} (hmove : Move a v (.restore cs) evs v')
    (hnodup : ∀ c ∈ cs, c.dependencies.Nodup) : LeftOver a v'.lost v' evs := by
  cases hmove with
  | @restore _ lost hload hjobs hidle hdist hall =>
      have hlive : v.live = [] := (List.append_eq_nil_iff.mp hjobs).1
      have haddrs : (lost.map Job.addr).Nodup := by
        rwa [forall₂_map_eq hall (fun _ _ hr => hr.addr)]
      constructor
      case loaded => rfl
      case ids =>
        intro c hc r hr haddr
        rw [View.jobs, hlive, List.nil_append] at hc
        rw [Keyed.eq_of_key_eq haddrs hc hr haddr]
      case known =>
        intro r hr
        rw [View.addrs_eq]
        exact List.mem_append_right _ (List.mem_map_of_mem hr)
      case unlaunched =>
        intro r hr hn
        obtain ⟨c, hc, pid, rfl⟩ := exists_of_forall₂ hall hr
        have hwaits : c.saneDeps (cs.map Job.id) ≠ [] := by
          intro hnil
          refine hn (List.mem_cons_of_mem _ (mem_launchEvents.mpr ⟨c, ?_, rfl⟩))
          exact List.mem_filter.mpr ⟨hc, decide_eq_true hnil⟩
        refine ⟨_, hr, rfl, ?_, ?_, ?_, ?_, ?_, ?_⟩
        · rw [if_neg hwaits]
          exact (hidle c hc).2
        · simpa using hwaits
        · exact List.nodup_reverse.mpr ((hnodup c hc).filter _)
        · exact fun d hd => List.mem_reverse.mp hd
        · rintro y _ _ ⟨task, type, _, hm⟩
          exact absurd hm (by simp [launchEvents])
        · intro y _ _ hm
          exact absurd hm (by simp [launchEvents])

/-- When all has settled nobody waits any more: of those that were not launched, one would depend on
launched clients only. -/
theorem LeftOver.settled (h : LeftOver a clients v log) (hset : Settled a log)
    (hdeps : ∀ c ∈ clients, ∀ d ∈ c.dependencies, ∃ y ∈ clients, y.id = d)
    (hacyclic : Acyclic (DependsOn clients)) (hself : ∀ c ∈ clients, c.id ∉ c.dependencies) :
    ∀ r ∈ clients, .launched a r.addr ∈ log := by
  by_contra hall
  have hrest : clients.filter (fun r => .launched a r.addr ∉ log) ≠ [] := by
    intro hnil
    apply hall
    intro r hr
    have := List.filter_eq_nil_iff.mp hnil r hr
    simpa using this
  have hirrefl : ∀ x, ¬ Relation.TransGen (DependsOn clients) x x := by
    apply hacyclic.irrefl
    rintro x ⟨c, hc, rfl, hx⟩
    exact hself c hc hx
  obtain ⟨x, hx, hsink⟩ := exists_sink hirrefl (by simpa using hrest :
    (clients.filter (fun r => .launched a r.addr ∉ log)).map Job.id ≠ [])
  obtain ⟨r, hr, rfl⟩ := List.mem_map.mp hx
  obtain ⟨hr, hn⟩ := List.mem_filter.mp hr
  obtain ⟨c, hc, hu⟩ := h.unlaunched r hr (of_decide_eq_true hn)
  obtain ⟨d, hd⟩ := List.exists_mem_of_ne_nil _ hu.waits
  have hdr := hu.depends d hd
  obtain ⟨y, hy, rfl⟩ := hdeps r hr d hdr
  by_cases hly : .launched a y.addr ∈ log
  · obtain ⟨e, he, hs⟩ := hu.sent y hy hd (hset.connected _ hly)
    obtain ⟨task, htask⟩ := Option.isSome_iff_exists.mp hs
    obtain ⟨type, ht, hm⟩ := hset.reported y.addr e he task htask
    exact hu.unloaded y hy hd ⟨task, type, ht, hm⟩
  · refine hsink y.id ?_ ⟨r, hr, rfl, hdr⟩
    exact List.mem_map_of_mem (List.mem_filter.mpr ⟨hy, decide_eq_true hly⟩)

end

/-! ## Runs -/

namespace Server

variable {s t u : Server} {a : Addr} {i : Input}

/-- What happened to the tasks of a project between two states. -/
def since (s : Server) (a : Addr) (u : Server) : List Event :=
  (tasks a u.g.log).drop (tasks a s.g.log).length

/-- Who comes back is sent something to load if a client that was not launched since `s` waits for
it. -/
def SendsAwaited (s : Server) (a : Addr) (u : Server) (i : Input) : Prop :=
  ∀ r ∈ u.resuming i, r.1 = a → ∀ answer ∈ u.answer i, ∀ c ∈ (u.project a).lostClients,
    Event.launched a c.addr ∉ s.since a u → r.2.id ∈ c.unsatisfiedDeps → answer = .sent

/-- No save begins as long as a client that was not launched since `s` waits. -/
def SavesNoneWaiting (s : Server) (a : Addr) (u : Server) (i : Input) : Prop :=
  u.saving i = some a → (u.project a).taskType = .idle → ∀ c ∈ (u.project a).lostClients,
    Event.launched a c.addr ∉ s.since a u → c.unsatisfiedDeps = []

/-- The input leaves none of the clients of project `a` behind, which was restored after the state
`s` and stays open. -/
structure LeavesNobody (s : Server) (a : Addr) (u : Server) (i : Input) : Prop where
  stays : u.closing i ≠ some a
  sends : s.SendsAwaited a u i
  saves : s.SavesNoneWaiting a u i

theorem LeavesNobody.act {act : Act} (h : s.LeavesNobody a u i) (hexp : u.Explains i a act) :
    act.LeavesNobody a (u.view a) (s.since a u) := by
  cases act with
  | resume c answer =>
      obtain ⟨x, hx, rfl, hans⟩ := hexp
      intro j hj hn hw
      obtain ⟨c, hc, rfl⟩ := List.mem_map.mp hj
      exact h.sends (a, x) hx rfl answer hans c hc hn hw
  | save =>
      intro hidle j hj hn
      obtain ⟨c, hc, rfl⟩ := List.mem_map.mp hj
      exact h.saves hexp.1 hidle c hc hn
  | close => exact absurd hexp h.stays
  | _ => trivial

/-- **A restore leaves no client behind**, if every client that is waited for is sent something to
load when it comes back: once all that were launched are back and have loaded what they were sent,
all are launched. -/
theorem no_client_left_behind {fs : Fs} {dir : CStr} {ok : Server → Input → Prop}
    (h : Reachable ok fs dir s) (hres : s.restoring i = some a) (hstep : s.step i = some t)
    (ha : a ∈ t.loaded) (hdoc : (s.project a).DocOk)
    (hself : ∀ c ∈ (t.project a).lostClients, c.id ∉ c.dependencies)
    (hrun : Runs.Reach step (s.LeavesNobody a) t u) (hset : Settled a (s.since a u)) :
    ∀ c ∈ (t.project a).lostClients, .launched a c.addr ∈ s.since a u := by
  obtain ⟨cs, evs, hmove, hlog, hexp⟩ := h.wf.restored hres hstep ha
  have hwt : t.Wf := (h.wf.step_answers hstep).wf h.wf
  -- the clients as they were read
  have hload : (s.view a).loaded = false := by
    generalize t.view a = v at hmove
    cases hmove with
    | restore hload => exact hload
  obtain ⟨l, hread, rfl⟩ := hexp.restored h.wf hload
  obtain ⟨_, hacyclic, hnodup⟩ := hdoc.clients hread
  have hlost : List.Forall₂ (Job.Restored ((l.map Client.job).map Job.id)) (l.map Client.job)
      (t.view a).lost := by
    generalize t.view a = v at hmove
    cases hmove with
    | restore _ _ _ _ hlost => exact hlost
  have hsince : ∀ {w new}, tasks a w.g.log = tasks a s.g.log ++ new → s.since a w = new := by
    intro w new hw
    rw [since, hw, List.drop_left]
  have hinv : Restoring a (t.view a).lost (u.view a) (s.since a u) := by
    refine (hrun.invariant (I := fun w => w.Wf ∧
      (∃ new, tasks a w.g.log = tasks a s.g.log ++ new) ∧
      Restoring a (t.view a).lost (w.view a) (s.since a w)) ⟨hwt, ⟨evs, hlog⟩, ?_⟩ ?_).2.2
    · rw [hsince hlog]
      refine Or.inr (.start hmove ?_)
      intro c hc
      obtain ⟨x, hx, rfl⟩ := List.mem_map.mp hc
      exact hnodup x hx
    · rintro w j w' _ ⟨hw, ⟨new, hnew⟩, hI⟩ hok hs
      have hans := hw.step_answers hs
      obtain ⟨act, es, hmove', hlog', hexp'⟩ := hans.move a
      have hnew' : tasks a w'.g.log = tasks a s.g.log ++ (new ++ es) := by
        rw [hlog', hnew, List.append_assoc]
      refine ⟨hans.wf hw, ⟨_, hnew'⟩, ?_⟩
      have hact := LeavesNobody.act hok hexp'
      rw [hsince hnew] at hI hact
      rw [hsince hnew']
      rcases hI with hI | hI
      · exact Restoring.append hI
      · exact hI.move hmove' (hw.distinct a) hact
  have hall : ∀ r ∈ (t.view a).lost, .launched a r.addr ∈ s.since a u := by
    rcases hinv with hI | hI
    · exact hI
    · have hids : (t.view a).lost.map Job.id = (l.map Client.job).map Job.id :=
        forall₂_map_eq hlost (fun _ _ hr => by obtain ⟨pid, rfl⟩ := hr; rfl)
      refine hI.settled hset ?_ ?_ ?_
      · intro c hc d hd
        obtain ⟨e, he, pid, rfl⟩ := exists_of_forall₂ hlost hc
        have hmem := (List.mem_filter.mp hd).2
        rw [decide_eq_true_eq, ← hids] at hmem
        exact List.mem_map.mp hmem
      · refine hacyclic.mono ?_
        rintro x y ⟨c, hc, rfl, hy⟩
        obtain ⟨e, he, pid, rfl⟩ := exists_of_forall₂ hlost hc
        exact (dependsOn_map_job l _ _).mp ⟨e, he, rfl, (List.mem_filter.mp hy).1⟩
      · intro j hj
        obtain ⟨c, hc, rfl⟩ := List.mem_map.mp hj
        exact hself c hc
  exact fun c hc => hall c.job (List.mem_map_of_mem hc)

/-! ## Concrete runs -/

/-- What `Settled` asks of one event. -/
def settledEvent (a : Addr) (log : List Event) : Event → Bool
  | .launched b x => b ≠ a || .resumed a x ∈ log
  | .load b x _ task _ | .loadDataSet b x _ task _ =>
    b ≠ a || .taskCompleted a x task .restoreFile true ∈ log
      || .taskCompleted a x task .restoreDataSet true ∈ log
  | _ => true

theorem settled_of_all {log : List Event} (h : log.all (settledEvent a log) = true) :
    Settled a log := by
  rw [List.all_eq_true] at h
  constructor
  · intro x hx
    have := h _ hx
    simpa [settledEvent] using this
  · intro x e he task htask
    have hset := h e he
    cases e with
    | load b y dest n path =>
        obtain ⟨⟨rfl, rfl⟩, rfl⟩ := Option.ite_some_none_eq_some.mp htask
        rcases (by simpa [settledEvent] using hset : _ ∨ _) with hm | hm
        · exact ⟨_, rfl, hm⟩
        · exact ⟨_, rfl, hm⟩
    | loadDataSet b y dest n configs =>
        obtain ⟨⟨rfl, rfl⟩, rfl⟩ := Option.ite_some_none_eq_some.mp htask
        rcases (by simpa [settledEvent] using hset : _ ∨ _) with hm | hm
        · exact ⟨_, rfl, hm⟩
        · exact ⟨_, rfl, hm⟩
    | _ => exact absurd htask (by simp [Event.loads])

instance (s : Server) (a : Addr) (u : Server) (i : Input) : Decidable (s.SendsAwaited a u i) :=
  inferInstanceAs (Decidable (∀ r ∈ u.resuming i, _ → ∀ answer ∈ u.answer i, _))

instance (s : Server) (a : Addr) (u : Server) (i : Input) : Decidable (s.SavesNoneWaiting a u i) :=
  inferInstanceAs (Decidable (_ → _ → ∀ c ∈ (u.project a).lostClients, _))

instance (s : Server) (a : Addr) (u : Server) (i : Input) : Decidable (s.LeavesNobody a u i) :=
  decidable_of_iff (u.closing i ≠ some a ∧ s.SendsAwaited a u i ∧ s.SavesNoneWaiting a u i)
    ⟨fun h => ⟨h.1, h.2.1, h.2.2⟩, fun h => ⟨h.stays, h.sends, h.saves⟩⟩

/-- The first client has no state to load, so the second one, which depends on it, is never
launched. -/
theorem client_left_behind :
    ∃ s t u, Reachable FreshId emptyDisk (cstr "/p") s ∧
      s.restoring (.projectOpen (cstr "New Project")) = some 1 ∧
      s.step (.projectOpen (cstr "New Project")) = some t ∧ 1 ∈ t.loaded ∧ (s.project 1).DocOk ∧
      Runs.Reach step (fun u j => u.Unattended 1 j) t u ∧ Settled 1 (s.since 1 u) ∧
      ¬ ∀ c ∈ (t.project 1).lostClients, .launched 1 c.addr ∈ s.since 1 u := by
  have hrun : (runFrom FreshId
      [.connect (cstr ":1") 5 (cstr "mixer") 0 [] [cstr "mixer"] 1,
        .connect (cstr ":2") 6 (cstr "drums") flagConfigFile [] [cstr "drums"] 2,
        .addDependency (cstr "New Project") (uuidUnparse 2) (uuidUnparse 1),
        .projectSave (cstr "New Project"),
        .progress (cstr ":2") [.uint64 1, .byte 255],
        .projectClose (cstr "New Project"),
        .outside emptyDisk [7, 8]]).any
      (fun s => s.restoring (.projectOpen (cstr "New Project")) = some 1 ∧ (s.project 1).DocOk ∧
        (s.step (.projectOpen (cstr "New Project"))).any (fun t => 1 ∈ t.loaded ∧
          (Runs.exec step (fun u j => u.Unattended 1 j) t
            [.connect (cstr ":3") 7 (cstr "mixer") 0 [] [cstr "mixer"] 3]).any
            (fun u => (s.since 1 u).all (settledEvent 1 (s.since 1 u)) ∧
              ¬ ∀ c ∈ (t.project 1).lostClients, .launched 1 c.addr ∈ s.since 1 u))) = true := by
    decide +kernel
  obtain ⟨s, hs, hbad⟩ := exists_of_runFrom hrun
  obtain ⟨hres, hdoc, hbad⟩ := of_decide_eq_true hbad
  obtain ⟨t, ht, hbad⟩ := (Option.any_eq_true ..).mp hbad
  obtain ⟨ha, hbad⟩ := of_decide_eq_true hbad
  obtain ⟨u, hu, hbad⟩ := (Option.any_eq_true ..).mp hbad
  obtain ⟨hset, hleft⟩ := of_decide_eq_true hbad
  exact ⟨s, t, u, hs, hres, ht, ha, hdoc, .of_exec hu, settled_of_all hset, hleft⟩

/-- Both clients load a file, and both are launched. -/
theorem no_client_left_behind_two :
    ∃ s t u, Reachable FreshId emptyDisk (cstr "/p") s ∧
      s.step (.projectOpen (cstr "New Project")) = some t ∧ Settled 1 (s.since 1 u) ∧
      Runs.Reach step (s.LeavesNobody 1) t u ∧ (t.project 1).lostClients.length = 2 ∧
      ∀ c ∈ (t.project 1).lostClients, .launched 1 c.addr ∈ s.since 1 u := by
  have hrun : (runFrom FreshId
      [.connect (cstr ":1") 5 (cstr "synth") flagConfigFile [] [cstr "synth"] 1,
        .connect (cstr ":2") 6 (cstr "drums") flagConfigFile [] [cstr "drums"] 2,
        .addDependency (cstr "New Project") (uuidUnparse 2) (uuidUnparse 1),
        .projectSave (cstr "New Project"),
        .progress (cstr ":1") [.uint64 1, .byte 255],
        .progress (cstr ":2") [.uint64 1, .byte 255],
        .projectClose (cstr "New Project"),
        .outside emptyDisk [7, 8]]).any
      (fun s => s.restoring (.projectOpen (cstr "New Project")) = some 1 ∧ (s.project 1).DocOk ∧
        (s.step (.projectOpen (cstr "New Project"))).any (fun t => 1 ∈ t.loaded ∧
          (t.project 1).lostClients.length = 2 ∧
          (∀ c ∈ (t.project 1).lostClients, c.id ∉ c.dependencies) ∧
          (Runs.exec step (s.LeavesNobody 1) t
            [.connect (cstr ":3") 7 (cstr "synth") flagConfigFile [] [cstr "synth"] 3,
              .progress (cstr ":3") [.uint64 2, .byte 255],
              .connect (cstr ":4") 8 (cstr "drums") flagConfigFile [] [cstr "drums"] 4,
              .progress (cstr ":4") [.uint64 3, .byte 255]]).any
            (fun u => (s.since 1 u).all (settledEvent 1 (s.since 1 u))))) = true := by
    decide +kernel
  obtain ⟨s, hs, hgood⟩ := exists_of_runFrom hrun
  obtain ⟨hres, hdoc, hgood⟩ := of_decide_eq_true hgood
  obtain ⟨t, ht, hgood⟩ := (Option.any_eq_true ..).mp hgood
  obtain ⟨ha, htwo, hself, hgood⟩ := of_decide_eq_true hgood
  obtain ⟨u, hu, hset⟩ := (Option.any_eq_true ..).mp hgood
  have hset := settled_of_all hset
  have hreach := Runs.Reach.of_exec hu
  exact ⟨s, t, u, hs, ht, hset, hreach, htwo,
    no_client_left_behind hs hres ht ha hdoc hself hreach hset⟩

end Server

end Lash
