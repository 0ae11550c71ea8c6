import Lash.Owing
import Lash.Document
import Mathlib.Data.List.Induction

/-!
# A project is never stuck in a task

While a project has a task, the daemon counts down from the number of clients that have to report.
If the count is higher than the number of clients that can still report, the task never ends, and
a project in a task cannot be saved. `Waiting` is the equation between the two numbers. Few
operations adjust the count, so it holds only in runs in which the others do not change who can
report; which these are is said by `Act.KeepsWaiting`.
-/

namespace Lash

/-! ## Who was back since the restore -/

/-- What one event says about whether a client was resumed since the project was restored. -/
def resumedNow (a x : Addr) (r : Bool) : Event → Bool
  | .restored b _ => if b = a then false else r
  | .resumed b y => if b = a ∧ y = x then true else r
  | _ => r

/-- A client was resumed since its project was restored. -/
def resumedSince (a x : Addr) (log : List Event) : Bool := log.foldl (resumedNow a x) false

section

variable {a x : Addr} {log evs : List Event}

theorem resumedNow_eq_self {r : Bool} {e : Event} (hrestored : ∀ l, e ≠ .restored a l)
    (hresumed : e ≠ .resumed a x) : resumedNow a x r e = r := by
  cases e with
  | restored b l =>
      rw [resumedNow, if_neg]
      rintro rfl
      exact hrestored l rfl
  | resumed b y =>
      rw [resumedNow, if_neg]
      rintro ⟨rfl, rfl⟩
      exact hresumed rfl
  | _ => rfl

theorem foldl_resumedNow_eq_self {r : Bool} (hrestored : ∀ l, Event.restored a l ∉ evs)
    (hresumed : Event.resumed a x ∉ evs) : evs.foldl (resumedNow a x) r = r := by
  induction evs with
  | nil => rfl
  | cons e evs ih =>
      rw [List.foldl_cons, resumedNow_eq_self]
      · apply ih
        · exact fun l hm => hrestored l (List.mem_cons_of_mem _ hm)
        · exact fun hm => hresumed (List.mem_cons_of_mem _ hm)
      · rintro l rfl
        exact hrestored l List.mem_cons_self
      · rintro rfl
        exact hresumed List.mem_cons_self

theorem resumedSince_append (hrestored : ∀ l, Event.restored a l ∉ evs)
    (hresumed : Event.resumed a x ∉ evs) :
    resumedSince a x (log ++ evs) = resumedSince a x log := by
  rw [resumedSince, List.foldl_append]
  exact foldl_resumedNow_eq_self hrestored hresumed

/-- Only the project's part of the log matters. -/
theorem resumedSince_tasks : resumedSince a x (tasks a log) = resumedSince a x log := by
  induction log using List.reverseRecOn with
  | nil => rfl
  | append_singleton log e ih =>
      have hsplit : tasks a (log ++ [e]) = tasks a log ++ tasks a [e] := List.filter_append ..
      rw [hsplit]
      by_cases he : (e.project = a && e.isTask) = true
      · rw [show tasks a [e] = [e] from List.filter_eq_self.mpr (by simpa using he)]
        rw [resumedSince, resumedSince, List.foldl_append, List.foldl_append]
        exact congrArg (fun r => [e].foldl (resumedNow a x) r) ih
      · rw [show tasks a [e] = [] from List.filter_eq_nil_iff.mpr (by simpa using he),
          List.append_nil, ih, resumedSince_append]
        · intro l hm
          rw [List.mem_singleton] at hm
          subst hm
          exact he (by simp [Event.project, Event.isTask])
        · intro hm
          rw [List.mem_singleton] at hm
          subst hm
          exact he (by simp [Event.project, Event.isTask])

end

/-! ## The equation -/

/-- The client has a task. -/
def Job.busy (c : Job) : Bool := c.pendingTask ≠ 0

/-- The client was not back yet since the project was restored. -/
def Job.awaited (a : Addr) (log : List Event) (c : Job) : Bool := !resumedSince a c.addr log

namespace View

/-- How many lost clients can still come back and report that they loaded. -/
def expected (a : Addr) (v : View) (log : List Event) : Nat :=
  if v.task = .load then v.lost.countP (Job.awaited a log) else 0

/-- How many clients can still report the end of the task. -/
def reporters (a : Addr) (v : View) (log : List Event) : Nat :=
  v.live.countP Job.busy + v.expected a log

end View

/-- A project with a task waits for somebody, and for exactly those who can report. -/
structure Waiting (a : Addr) (v : View) (log : List Event) : Prop where
  pos : 0 < v.pending
  count : v.pending = v.reporters a log
  /-- The reports of all clients are counted. -/
  counted : ∀ c ∈ v.live, c.pendingTask ≠ 0 → c.taskType ≠ .unknown
  lost : ∀ c ∈ v.lost, c.pendingTask = 0

/-! ## The conditions -/

namespace View

/-- The client is expected: its project is loading and it was not back yet. -/
def Expects (a : Addr) (v : View) (log : List Event) (c : Job) : Prop :=
  v.task = .load ∧ resumedSince a c.addr log = false

instance (a : Addr) (v : View) (log : List Event) (c : Job) : Decidable (v.Expects a log c) :=
  inferInstanceAs (Decidable (_ ∧ _))

/-- A client may leave: the project has no task, or nobody waits for the client. -/
def Spares (a : Addr) (v : View) (log : List Event) (c : Job) : Prop :=
  v.task ≠ .idle → c.pendingTask = 0 ∧ (v.task = .load → resumedSince a c.addr log = true)

/-- A lost client may be resumed in this way: one that is expected gets something to load or
counts as done, any other gets nothing, or is the last report that is missing. -/
def CountsBack (a : Addr) (v : View) (log : List Event) (c : Job) (answer : Answer) : Prop :=
  v.task ≠ .idle →
    (v.Expects a log c → answer ≠ .silent) ∧
      (¬ v.Expects a log c → answer = .silent ∨ answer = .stateless ∧ v.pending = 1)

instance (a : Addr) (v : View) (log : List Event) (c : Job) : Decidable (v.Spares a log c) :=
  inferInstanceAs (Decidable (_ → _ ∧ (_ → _)))

instance (a : Addr) (v : View) (log : List Event) (c : Job) (answer : Answer) :
    Decidable (v.CountsBack a log c answer) :=
  inferInstanceAs (Decidable (_ → (_ → _) ∧ (_ → _)))

end View

/-- An act that leaves the count equal to the number of clients that can report. -/
def Act.KeepsWaiting (a : Addr) (v : View) (log : List Event) : Act → Prop
  | .restore clients => clients ≠ []
  | .leave c => v.Spares a log c
  | .resume c answer => v.CountsBack a log c answer
  | _ => True

/-! ## One move -/

section step

variable {a : Addr} {v v' w : View} {act : Act} {evs log : List Event} {c d : Job}

theorem awaited_append (hrestored : ∀ l, Event.restored a l ∉ evs)
    (hresumed : ∀ x, Event.resumed a x ∉ evs) :
    Job.awaited a (log ++ evs) = Job.awaited a log := by
  funext c
  rw [Job.awaited, Job.awaited, resumedSince_append hrestored (hresumed _)]

/-- The lost clients are the same, in other states. -/
theorem expected_congr (htask : w.task = v.task)
    (hlost : w.lost.map Job.addr = v.lost.map Job.addr)
    (hrestored : ∀ l, Event.restored a l ∉ evs) (hresumed : ∀ x, Event.resumed a x ∉ evs) :
    w.expected a (log ++ evs) = v.expected a log := by
  have hmap : ∀ l : List Job, l.countP (Job.awaited a log)
      = (l.map Job.addr).countP (fun x => !resumedSince a x log) := by
    intro l
    rw [List.countP_map]
    rfl
  rw [View.expected, View.expected, htask, awaited_append hrestored hresumed, hmap, hmap, hlost]

/-- A client is back: it is not expected any more. -/
theorem expected_resumed (hd : v.Distinct) (hc : c ∈ v.lost) (haddr : d.addr = c.addr) {name : CStr}
    {rest : List Event} (hrestored : ∀ l, Event.restored a l ∉ rest)
    (hresumed : ∀ x, Event.resumed a x ∉ rest) :
    (v.revive d).expected a (log ++ .connected a c.addr name :: .resumed a c.addr :: rest)
      + (if v.Expects a log c then 1 else 0) = v.expected a log := by
  have hdel : (Keyed.del Job.addr c.addr v.lost).countP (Job.awaited a
      (log ++ .connected a c.addr name :: .resumed a c.addr :: rest))
      = (Keyed.del Job.addr c.addr v.lost).countP (Job.awaited a log) := by
    apply List.countP_congr
    intro x hx
    have hne := (Keyed.mem_del.mp hx).2
    have hlog : resumedSince a x.addr
        (log ++ .connected a c.addr name :: .resumed a c.addr :: rest) =
        resumedSince a x.addr log := by
      apply resumedSince_append
      · simpa using hrestored
      · simpa [hne] using hresumed x.addr
    rw [Job.awaited, Job.awaited, hlog]
  have hcount := Keyed.countP_del (q := Job.awaited a log) hd.lost hc
  have hrevive : (v.revive d).lost = Keyed.del Job.addr c.addr v.lost := by rw [← haddr]; rfl
  rw [View.expected, View.expected, hrevive, hdel, View.revive_task]
  unfold View.Expects
  by_cases ht : v.task = .load
  · simp only [ht, if_true, true_and]
    rw [← hcount]
    congr 1
    simp only [Job.awaited, Bool.not_eq_true']
  · simp [ht]

theorem reporters_revive (hd : v.Distinct) (hc : c ∈ v.lost) (haddr : d.addr = c.addr) {name : CStr}
    {rest : List Event} (hrestored : ∀ l, Event.restored a l ∉ rest)
    (hresumed : ∀ x, Event.resumed a x ∉ rest) :
    (v.revive d).reporters a (log ++ .connected a c.addr name :: .resumed a c.addr :: rest)
      + (if v.Expects a log c then 1 else 0) = v.reporters a log + d.busy.toNat := by
  have hexp : (v.revive d).expected a (log ++ .connected a c.addr name :: .resumed a c.addr :: rest)
      + (if v.Expects a log c then 1 else 0) = v.expected a log :=
    expected_resumed hd hc haddr hrestored hresumed
  have hlive := View.countP_revive (v := v) Job.busy (d := d)
  rw [View.reporters, View.reporters]
  omega

/-- One report less is missing, and one client less can report. -/
theorem Waiting.count_down (hp : w.pending = w.reporters a log + 1)
    (hcounted : ∀ c ∈ w.live, c.pendingTask ≠ 0 → c.taskType ≠ .unknown)
    (hlost : ∀ c ∈ w.lost, c.pendingTask = 0) (ht : w.count.task ≠ .idle) :
    Waiting a w.count log := by
  rcases w.count_eq with ⟨_, hc⟩ | ⟨h1, hc⟩
  · rw [hc] at ht
    exact absurd rfl ht
  · rw [hc]
    refine ⟨?_, ?_, hcounted, hlost⟩
    · show 0 < w.pending - 1
      omega
    · show w.pending - 1 = w.reporters a log
      omega

/-- The same number of clients has a task, and the same lost clients are expected. -/
theorem Waiting.same (hI : Waiting a v log) (hp : w.pending = v.pending) (ht : w.task = v.task)
    (hbusy : w.live.countP Job.busy = v.live.countP Job.busy)
    (hcounted : ∀ c ∈ w.live, c.pendingTask ≠ 0 → c.taskType ≠ .unknown)
    (hlost : List.Forall₂ Job.SameTask v.lost w.lost)
    (hrestored : ∀ l, Event.restored a l ∉ evs) (hresumed : ∀ x, Event.resumed a x ∉ evs) :
    Waiting a w (log ++ evs) where
  pos := by
    rw [hp]
    exact hI.pos
  count := by
    rw [hp, hI.count, View.reporters, View.reporters, hbusy,
      expected_congr ht (forall₂_map_eq hlost (fun _ _ hs => hs.addr)) hrestored hresumed]
  counted := hcounted
  lost := by
    intro d hd
    obtain ⟨x, hx, hs⟩ := exists_of_forall₂ hlost hd
    rw [hs.pendingTask]
    exact hI.lost x hx

theorem forall₂_sameTask (l : List Job) : List.Forall₂ Job.SameTask l l :=
  List.forall₂_same.mpr (fun c _ => .refl c)

/-- A live client is written back with the same task. -/
theorem Waiting.put (hI : Waiting a v log) (hd : v.Distinct) (hc : c ∈ v.live)
    (hs : c.SameTask d) : Waiting a (v.put d) log := by
  rw [← List.append_nil log]
  refine hI.same rfl rfl ?_ ?_ (forall₂_sameTask _) (by simp) (by simp)
  · have hbusy := View.countP_put Job.busy hd hc hs.addr
    rw [show d.busy = c.busy by rw [Job.busy, Job.busy, hs.pendingTask]] at hbusy
    omega
  · intro x hx hp
    rcases Keyed.eq_or_mem_of_mem_put hx with rfl | hx
    · rw [hs.pendingTask] at hp
      rw [hs.taskType]
      exact hI.counted c hc hp
    · exact hI.counted x hx hp

/-- A client that nobody waits for is lost. -/
theorem Waiting.leave (hI : Waiting a v log) (hd : v.Distinct) (ht : v.task ≠ .idle)
    (hc : c ∈ v.live) (hok : v.Spares a log c) :
    Waiting a { v.drop c with lost := { c with pid := 0 } :: v.lost }
      (log ++ [.lost a c.addr]) := by
  obtain ⟨hp, hback⟩ := hok ht
  have hbusy := View.countP_drop Job.busy hd hc
  rw [show c.busy = false by simp [Job.busy, hp]] at hbusy
  have hexp : View.expected a { v.drop c with lost := { c with pid := 0 } :: v.lost }
      (log ++ [.lost a c.addr]) = v.expected a log := by
    rw [View.expected, View.expected, awaited_append (by simp) (by simp)]
    show (if v.task = .load then _ else 0) = _
    by_cases hload : v.task = .load
    · rw [if_pos hload, if_pos hload, List.countP_cons, if_neg, Nat.add_zero]
      simp [Job.awaited, hback hload]
    · rw [if_neg hload, if_neg hload]
  refine ⟨hI.pos, ?_, ?_, ?_⟩
  · have hcount := hI.count
    simp only [View.reporters, hexp, Bool.toNat_false] at hbusy hcount ⊢
    exact hcount.trans (by rw [← hbusy]; rfl)
  · exact fun x hx => hI.counted x (Keyed.mem_of_mem_del hx)
  · intro x hx
    rcases List.mem_cons.mp hx with rfl | hx
    · exact hp
    · exact hI.lost x hx

/-- A lost client that is back is sent a task exactly if it is expected. -/
theorem Waiting.revive (hI : Waiting a v log) (hd : v.Distinct) (hc : c ∈ v.lost)
    (haddr : d.addr = c.addr) {name : CStr} {rest : List Event}
    (hrestored : ∀ l, Event.restored a l ∉ rest) (hresumed : ∀ x, Event.resumed a x ∉ rest)
    (hbusy : d.busy = decide (v.Expects a log c))
    (hcounted : d.pendingTask ≠ 0 → d.taskType ≠ .unknown) :
    Waiting a (v.revive d) (log ++ .connected a c.addr name :: .resumed a c.addr :: rest) := by
  refine ⟨hI.pos, ?_, ?_, ?_⟩
  · have hrep : (v.revive d).reporters a
        (log ++ .connected a c.addr name :: .resumed a c.addr :: rest)
        + (if v.Expects a log c then 1 else 0) = v.reporters a log + d.busy.toNat :=
      reporters_revive hd hc haddr hrestored hresumed
    have hcount := hI.count
    rw [hbusy] at hrep
    rw [View.revive_pending]
    by_cases he : v.Expects a log c
    · simp only [he, if_true, decide_true, Bool.toNat_true] at hrep
      omega
    · simp only [he, if_false, decide_false, Bool.toNat_false] at hrep
      omega
  · intro x hx hp
    rcases List.mem_cons.mp hx with rfl | hx
    · exact hcounted hp
    · exact hI.counted x hx hp
  · exact fun x hx => hI.lost x (Keyed.mem_of_mem_del hx)

/-- A client that has a task reports: it counts as done, and the lost clients wait as they did. -/
theorem Waiting.report {f : Flags} (hI : Waiting a v log) (hd : v.Distinct) (ht : w.task = v.task)
    (hp : w.pending = v.pending) (hlive : w.live = (v.put (c.done f)).live)
    (hlost : List.Forall₂ Job.SameTask v.lost w.lost)
    (hrestored : ∀ l, Event.restored a l ∉ evs) (hresumed : ∀ x, Event.resumed a x ∉ evs)
    (hc : c ∈ v.live) (hpend : c.pendingTask ≠ 0) (hne : w.count.task ≠ .idle) :
    Waiting a w.count (log ++ evs) := by
  have hbusy := View.countP_put Job.busy hd hc (show (c.done f).addr = c.addr from rfl)
  rw [← hlive, show c.busy = true by simp [Job.busy, hpend],
    show (c.done f).busy = false from rfl] at hbusy
  have hexp : w.expected a (log ++ evs) = v.expected a log :=
    expected_congr ht (forall₂_map_eq hlost (fun _ _ hs => hs.addr)) hrestored hresumed
  have hcount := hI.count
  apply Waiting.count_down _ _ _ hne
  · simp only [View.reporters, Bool.toNat_true, Bool.toNat_false] at hbusy hcount ⊢
    omega
  · intro d hd' hpd
    rw [hlive] at hd'
    rcases Keyed.eq_or_mem_of_mem_put hd' with rfl | hd'
    · exact absurd rfl hpd
    · exact hI.counted d hd' hpd
  · intro d hd'
    obtain ⟨x, hx, hs⟩ := exists_of_forall₂ hlost hd'
    rw [hs.pendingTask]
    exact hI.lost x hx

/-- A new client has no task. -/
theorem Waiting.join (hI : Waiting a v log) (idle : c.Idle) {name : CStr} :
    Waiting a { v with loaded := true, live := c :: v.live }
      (log ++ [.connected a c.addr name]) := by
  refine hI.same rfl rfl ?_ ?_ (forall₂_sameTask _) (by simp) (by simp)
  · show (c :: v.live).countP Job.busy = _
    rw [List.countP_cons_of_neg (by simp [Job.busy, idle.pendingTask])]
  · intro x hx hp
    rcases List.mem_cons.mp hx with rfl | hx
    · exact absurd idle.pendingTask hp
    · exact hI.counted x hx hp

/-- An expected client that is back as one without state counts as done. -/
theorem Waiting.stateless (hI : Waiting a v log) (hd : v.Distinct) (hc : c ∈ v.lost)
    (hexp : v.Expects a log c) {name : CStr} {pname : CStr} {written modified : Bool}
    (ht : (v.revive { c.reconnect name with taskType := .unknown }).count.task ≠ .idle) :
    Waiting a (v.revive { c.reconnect name with taskType := .unknown }).count
      (log ++ .connected a c.addr name :: .resumed a c.addr
        :: v.countEvents a pname written modified .restoreDataSet) := by
  have hp := hI.lost c hc
  -- it is not expected any more, and has no task
  have hrep : (v.revive { c.reconnect name with taskType := .unknown }).reporters a
      (log ++ .connected a c.addr name :: .resumed a c.addr
        :: v.countEvents a pname written modified .restoreDataSet)
      + (if v.Expects a log c then 1 else 0) = v.reporters a log
        + Bool.toNat (Job.busy { c.reconnect name with taskType := .unknown }) :=
    reporters_revive hd hc rfl restored_not_mem_countEvents resumed_not_mem_countEvents
  have hidle : Job.busy { c.reconnect name with taskType := .unknown } = false := by
    simp [Job.busy, Job.reconnect, hp]
  rw [if_pos hexp, hidle, Bool.toNat_false, ← hI.count] at hrep
  apply Waiting.count_down hrep.symm _ _ ht
  · intro x hx hpx
    rcases List.mem_cons.mp hx with rfl | hx
    · exact absurd hp hpx
    · exact hI.counted x hx hpx
  · exact fun x hx => hI.lost x (Keyed.mem_of_mem_del hx)

/-- A save begins: exactly the clients that are asked have a task, and none is expected. -/
theorem Waiting.ask {task : Nat} (hp : ∀ c ∈ v.live, c.pendingTask = 0) (hne : task ≠ 0)
    (ht : (v.ask task).task ≠ .idle) : Waiting a (v.ask task) log := by
  have hsome : (v.live.filter Job.hasState).length ≠ 0 := by
    intro h0
    simp only [View.ask, if_pos h0] at ht
    exact ht rfl
  have hsave : (v.ask task).task = .save := if_neg hsome
  have hcounted : ∀ c ∈ (v.ask task).live, c.pendingTask ≠ 0 → c.taskType ≠ .unknown := by
    intro d hd' hpd
    obtain ⟨c, hc, rfl⟩ := List.mem_map.mp hd'
    rw [Job.ask] at hpd ⊢
    split
    · simp only [Job.give]
      split <;> simp
    · next hs =>
        rw [if_neg hs] at hpd
        exact absurd (hp c hc) hpd
  have howing : (v.ask task).live.countP Job.busy = (v.ask task).owing := by
    apply List.countP_congr
    intro c hc
    rw [Job.owes_eq_true]
    simp only [Job.busy, decide_eq_true_eq]
    exact ⟨fun hpc => ⟨hpc, hcounted c hc hpc⟩, fun hpc => hpc.1⟩
  refine ⟨Nat.pos_of_ne_zero hsome, ?_, hcounted, fun c hc => absurd hc (by simp [View.ask])⟩
  rw [View.reporters, howing, View.countP_ask hne hp, View.expected, if_neg (by rw [hsave]; simp)]
  rfl

/-- A project is restored: every client of it is expected. -/
theorem Waiting.restore {clients lost : List Job} (hj : v.jobs = [])
    (hidle : ∀ c ∈ clients, c.Idle ∧ c.pid = 0) (hsome : clients ≠ [])
    (hlost : List.Forall₂ (Job.Restored (clients.map Job.id)) clients lost) :
    Waiting a { v with loaded := true, task := .load, pending := clients.length, lost := lost }
      (log ++ .restored a (clients.map Job.addr) ::
        launchEvents a (clients.filter (fun c => c.saneDeps (clients.map Job.id) = []))) := by
  have hlive : v.live = [] := (List.append_eq_nil_iff.mp hj).1
  have hlen : clients.length = lost.length := hlost.length_eq
  have hawaited : ∀ c ∈ lost, Job.awaited a (log ++ .restored a (clients.map Job.addr) ::
      launchEvents a (clients.filter (fun c => c.saneDeps (clients.map Job.id) = []))) c =
        true := by
    intro c _
    rw [Job.awaited, resumedSince, List.foldl_append, List.foldl_cons, foldl_resumedNow_eq_self]
    · simp [resumedNow]
    · simp [launchEvents]
    · simp [launchEvents]
  refine ⟨List.length_pos_iff.mpr hsome, ?_, ?_, ?_⟩
  · rw [View.reporters, View.expected, if_pos rfl, List.countP_eq_length.mpr hawaited]
    simp [hlive, hlen]
  · rw [hlive]
    exact fun c hc => absurd hc (by simp)
  · intro d hd'
    obtain ⟨c, hc, pid, rfl⟩ := exists_of_forall₂ hlost hd'
    exact (hidle c hc).1.pendingTask

/-- A lost client is launched. -/
theorem Waiting.launch (hI : Waiting a v log) (hd : v.Distinct) (hc : c ∈ v.lost) {pid : Int} :
    Waiting a { v with lost := Keyed.put Job.addr { c with pid := pid } v.lost }
      (log ++ [.launched a c.addr]) := by
  refine hI.same rfl rfl rfl hI.counted ?_ (by simp) (by simp)
  apply List.forall₂_map_right_iff.mpr
  apply List.forall₂_same.mpr
  intro x hx
  by_cases hxc : x.addr = c.addr
  · rw [if_pos hxc, Keyed.eq_of_key_eq hd.lost hx hc hxc]
    exact ⟨rfl, rfl, rfl⟩
  · rw [if_neg hxc]
    exact .refl x

/-- **One move** keeps the count equal to the number of clients that can report. -/
theorem Waiting.move (h : Move a v act evs v') (hd : v.Distinct) (hok : act.KeepsWaiting a v log)
    (hI : v.loaded = true → v.task ≠ .idle → Waiting a v log) :
    v'.loaded = true → v'.task ≠ .idle → Waiting a v' (log ++ evs) := by
  -- where a report is counted, there is a task before
  have hbefore : ∀ {w : View}, w.count.loaded = true → w.count.task ≠ .idle → w.task = v.task →
      w.loaded = v.loaded → Waiting a v log := by
    intro w hl hne ht hload
    rw [View.loaded_count, hload] at hl
    rw [(View.count_task hne).1, ht] at hne
    exact hI hl hne
  intro hl ht
  cases h with
  | quiet =>
      rw [List.append_nil]
      exact hI hl ht
  | join _ idle hnew =>
      have hload : v.loaded = true := by
        by_contra hn
        exact ht (hnew (by simpa using hn)).1
      exact (hI hload ht).join idle
  | leave hc => exact (hI hl ht).leave hd ht hc hok
  | @sent c name task type ev hc hpid hne hev =>
      have hexp : v.Expects a log c := by
        by_contra he
        rcases (hok ht).2 he with h | ⟨h, _⟩ <;> exact absurd h (by simp)
      refine (hI hl ht).revive (d := (c.reconnect name).give task type) hd hc rfl ?_ ?_ ?_ ?_
      · cases hev <;> simp
      · cases hev <;> simp
      · simp [Job.busy, Job.give, hne, hexp]
      · intro _
        cases hev <;> simp [Job.give]
  | @silent c name hc hpid =>
      have hexp : ¬ v.Expects a log c := by
        intro he
        exact (hok ht).1 he rfl
      have hp := (hI hl ht).lost c hc
      refine (hI hl ht).revive (d := c.reconnect name) hd hc rfl (by simp) (by simp) ?_
        (fun hn => absurd hp hn)
      simp [Job.busy, Job.reconnect, hp, hexp]
  | @stateless c name pname written modified hc hpid =>
      obtain ⟨htask, hne⟩ := View.count_task ht
      have hexp : v.Expects a log c := by
        by_contra he
        rw [htask] at ht
        rcases (hok ht).2 he with h | ⟨_, h⟩
        · exact absurd h (by simp)
        · exact hne h
      exact (hbefore hl ht rfl rfl).stateless hd hc hexp ht
  | @cleared c ok written hc hp htype => exact absurd htype ((hI hl ht).counted c hc hp)
  | failed hc hp =>
      exact (hbefore hl ht rfl rfl).report hd rfl rfl rfl (forall₂_sameTask _)
        (by simp [restored_not_mem_countEvents]) (by simp [resumed_not_mem_countEvents]) hc hp ht
  | saved hc hp =>
      exact (hbefore hl ht rfl rfl).report hd rfl rfl rfl (forall₂_sameTask _)
        (by simp [restored_not_mem_countEvents]) (by simp [resumed_not_mem_countEvents]) hc hp ht
  | restored hc hp _ hlost =>
      exact (hbefore hl ht rfl rfl).report hd rfl rfl rfl (hlost.imp (fun _ _ hs => hs.sameTask))
        (by simp [restored_not_mem_countEvents, launchEvents])
        (by simp [resumed_not_mem_countEvents, launchEvents]) hc hp ht
  | skipped htask => exact absurd htask ht
  | asked _ hp hne => exact .ask hp hne ht
  | close => exact absurd hl (by simp)
  | restore _ hj hidle _ hlost => exact .restore hj hidle hok hlost
  | launch hc => exact (hI hl ht).launch hd hc
  | depend hc | undepend hc =>
      rw [List.append_nil]
      exact (hI hl ht).put hd hc ⟨rfl, rfl, rfl⟩

end step

/-! ## Runs -/

namespace Server

/-- The input leaves the counts equal to the numbers of clients that can report. -/
def KeepsWaiting (s : Server) (i : Input) : Prop :=
  (∀ a ∈ s.restoring i, (s.project a).clientNodes ≠ []) ∧
    (∀ r ∈ s.leaving i, (s.view r.1).Spares r.1 s.g.log r.2.job) ∧
    ∀ r ∈ s.resuming i, ∀ answer ∈ s.answer i,
      (s.view r.1).CountsBack r.1 s.g.log r.2.job answer

instance (n : List XmlNode) : Decidable (n ≠ []) :=
  match n with
  | [] => isFalse (fun h => h rfl)
  | _ :: _ => isTrue (by simp)

instance (s : Server) (i : Input) : Decidable (s.KeepsWaiting i) :=
  inferInstanceAs (Decidable ((∀ a ∈ s.restoring i, _) ∧ (∀ r ∈ s.leaving i, _) ∧
    ∀ r ∈ s.resuming i, ∀ answer ∈ s.answer i, _))

theorem KeepsWaiting.act {s : Server} {i : Input} {a : Addr} {act : Act} {evs : List Event}
    {v' : View} (h : s.KeepsWaiting i) (hw : s.Wf) (hexp : s.Explains i a act)
    (hm : Move a (s.view a) act evs v') : act.KeepsWaiting a (s.view a) (tasks a s.g.log) := by
  cases act with
  | restore clients =>
      cases hm with
      | restore hload =>
          obtain ⟨l, hl, rfl⟩ := hexp.restored hw hload
          have hne := h.1 a hexp.1
          have hlen := length_readClients hl
          rintro hnil
          rw [List.map_eq_nil_iff.mp hnil] at hlen
          exact hne (List.length_eq_zero_iff.mp (by simpa using hlen.symm))
  | leave c =>
      obtain ⟨x, hx, rfl⟩ := hexp
      have := h.2.1 (a, x) hx
      simpa only [Act.KeepsWaiting, View.Spares, resumedSince_tasks] using this
  | resume c answer =>
      obtain ⟨x, hx, rfl, hans⟩ := hexp
      have := h.2.2 (a, x) hx answer hans
      simpa only [Act.KeepsWaiting, View.CountsBack, View.Expects, resumedSince_tasks] using this
  | _ => trivial

/-- Every loaded project with a task waits for somebody, and counts exactly the clients that can
still report: those that have a task, and while it is loading those that were not back yet. -/
def NeverStuck (s : Server) : Prop :=
  ∀ a ∈ s.loaded, (s.project a).taskType ≠ .idle →
    0 < (s.project a).clientTasksPending ∧
      (s.project a).clientTasksPending
        = (s.project a).clients.countP (fun c => c.pendingTask ≠ 0)
          + if (s.project a).taskType = .load then
              (s.project a).lostClients.countP (fun c => !resumedSince a c.addr s.g.log)
            else 0

/-- **A project is never stuck in a task**, as long as nobody who is waited for leaves and nobody
else is made to report. -/
theorem never_stuck {fs : Fs} {dir : CStr} {s : Server} (h : Reachable KeepsWaiting fs dir s) :
    s.NeverStuck := by
  intro a ha ht
  have hI : (s.view a).loaded = true → (s.view a).task ≠ .idle →
      Waiting a (s.view a) (tasks a s.g.log) := by
    refine h.induction (I := fun v log => v.loaded = true → v.task ≠ .idle → Waiting a v log)
      a ?_ ?_
    · intro hl
      exact absurd hl (by simp [Project.view])
    · intro s i v' act evs hw hok hexp hmove hI
      exact Waiting.move hmove (hw.distinct a) (hok.act hw hexp hmove) hI
  have hI := hI (by simpa [Server.view, Project.view] using ha) ht
  refine ⟨hI.pos, ?_⟩
  have hcount := hI.count
  simp only [View.reporters, View.expected, Server.view, Project.view, List.countP_map] at hcount
  have hawaited : Job.awaited a (tasks a s.g.log) ∘ Client.job
      = fun c => !resumedSince a c.addr s.g.log := by
    funext c
    exact congrArg not resumedSince_tasks
  rw [hawaited] at hcount
  exact hcount

/-- A client that was asked to save is lost: nobody can end the save. -/
theorem save_gets_stuck :
    ∃ s, Reachable FreshId emptyDisk (cstr "/p") s ∧ ¬ s.NeverStuck := by
  have hrun : (runFrom FreshId
      [.connect (cstr ":1") 5 (cstr "synth") flagConfigFile [] [cstr "synth"] 1,
        .projectSave (cstr "New Project"),
        .nameLost (cstr ":1")]).any
      (fun s => 1 ∈ s.loaded ∧ (s.project 1).taskType = .save ∧
        (s.project 1).clientTasksPending = 1 ∧ (s.project 1).clients.length = 0) = true := by
    decide +kernel
  obtain ⟨s, hs, hbad⟩ := exists_of_runFrom hrun
  obtain ⟨hloaded, htask, hpending, hclients⟩ := of_decide_eq_true hbad
  refine ⟨s, hs, ?_⟩
  intro hnever
  obtain ⟨_, hcount⟩ := hnever 1 hloaded (by simp [htask])
  rw [List.length_eq_zero_iff.mp hclients, hpending, htask] at hcount
  exact absurd hcount (by simp)

/-- A project with one client is saved, closed and opened again, and the client is sent its file. -/
theorem never_stuck_reload :
    ∃ s, Reachable KeepsWaiting emptyDisk (cstr "/p") s ∧ s.NeverStuck ∧
      1 ∈ s.loaded ∧ (s.project 1).taskType = .load := by
  have hrun : (runFrom KeepsWaiting
      [.connect (cstr ":1") 5 (cstr "synth") flagConfigFile [] [cstr "synth"] 1,
        .projectSave (cstr "New Project"),
        .progress (cstr ":1") [.uint64 1, .byte 255],
        .projectClose (cstr "New Project"),
        .outside emptyDisk [7],
        .projectOpen (cstr "New Project"),
        .connect (cstr ":2") 7 (cstr "synth") flagConfigFile [] [cstr "synth"] 2]).any
      (fun s => 1 ∈ s.loaded ∧ (s.project 1).taskType = .load) = true := by
    decide +kernel
  obtain ⟨s, hs, hload⟩ := exists_of_runFrom hrun
  obtain ⟨hloaded, htask⟩ := of_decide_eq_true hload
  exact ⟨s, hs, never_stuck hs, hloaded, htask⟩

end Server

end Lash
