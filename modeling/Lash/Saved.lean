import Lash.Owing
import Lash.Lib.Trace

/-!
# No early ProjectSaved

A save begins with a list of the clients that have something to save. This module asks whether all
of them have saved when the project says it is saved. The daemon only counts reports, so the count
must not be spent on anybody else: `View.CountsResumed` says which clients may be resumed in the
middle of a save, and `View.Savable` when a save can begin.
-/

namespace Lash

open Trace

/-! ## What a save has to show -/

/-- A client was given a save task, with the id of the `Save` signal; `rest` is what happened
since. -/
def Given (a x : Addr) (task : Nat) (mid rest : List Event) : Prop :=
  ∃ name pre, mid = pre ++ .taskGiven a x task :: rest ∧ .save a name task ∈ pre

/-- A client reported the end of the task it was given. -/
def Reported (a x : Addr) (mid : List Event) : Prop :=
  ∃ task rest type ok, Given a x task mid rest ∧ .taskCompleted a x task type ok ∈ rest

/-- The last save began with these clients; `mid` is what happened since. -/
def LastSave (a : Addr) (ids : List Addr) (mid log : List Event) : Prop :=
  ∃ pre, log = pre ++ .saveBegun a ids :: mid ∧ ∀ l, Event.saveBegun a l ∉ mid

/-- Every client that had something to save when the last save began, and was not lost since,
reported. -/
def AllReported (a : Addr) (log : List Event) : Prop :=
  ∃ ids mid, LastSave a ids mid log ∧ ∀ x ∈ ids, .lost a x ∉ mid → Reported a x mid

/-- A client was given its save task and still has it. -/
def StillSaving (a x : Addr) (v : View) (mid : List Event) : Prop :=
  ∃ rest, ∃ c ∈ v.live, c.addr = x ∧ c.owesSave = true ∧ Given a x c.pendingTask mid rest

/-- The same in the middle of a save, when some have not reported yet. -/
def Saving (a : Addr) (v : View) (log : List Event) : Prop :=
  ∃ ids mid, LastSave a ids mid log ∧
    ∀ x ∈ ids, .lost a x ∉ mid → Reported a x mid ∨ StillSaving a x v mid

section

variable {a x : Addr} {ids : List Addr} {task : Nat} {mid rest log evs : List Event}

theorem Given.append (h : Given a x task mid rest) (evs : List Event) :
    Given a x task (mid ++ evs) (rest ++ evs) := by
  obtain ⟨name, pre, rfl, hs⟩ := h
  exact ⟨name, pre, by simp, hs⟩

theorem Reported.append (h : Reported a x mid) (evs : List Event) : Reported a x (mid ++ evs) := by
  obtain ⟨task, rest, type, ok, hg, hc⟩ := h
  exact ⟨task, rest ++ evs, type, ok, hg.append evs, List.mem_append_left _ hc⟩

theorem Given.reported {type : EventType} {ok : Bool} (h : Given a x task mid rest)
    (hm : .taskCompleted a x task type ok ∈ evs) : Reported a x (mid ++ evs) :=
  ⟨task, rest ++ evs, type, ok, h.append evs, List.mem_append_right _ hm⟩

theorem LastSave.append (h : LastSave a ids mid log) (hno : ∀ l, Event.saveBegun a l ∉ evs) :
    LastSave a ids (mid ++ evs) (log ++ evs) := by
  obtain ⟨pre, rfl, hmid⟩ := h
  refine ⟨pre, by simp, ?_⟩
  intro l hm
  rcases List.mem_append.mp hm with hm | hm
  · exact hmid l hm
  · exact hno l hm

end

/-! ## The conditions -/

namespace View

/-- A save can begin: if anybody has something to save, nobody has a task left. -/
def Savable (v : View) : Prop :=
  v.task = .idle → (∃ c ∈ v.live, c.hasState = true) → ∀ c ∈ v.live, c.pendingTask = 0

/-- A lost client may be resumed in this way during a save: the count has room for it, or it is sent
nothing and has no task left, or no two clients can owe a save afterwards. -/
def CountsResumed (v : View) (c : Job) (answer : Answer) : Prop :=
  v.task = .save →
    v.owing < v.pending ∨ (answer = .silent ∧ c.owes = false) ∨ v.saves = 0 ∨
      (answer ≠ .silent ∧ v.saves ≤ 1)

instance (v : View) : Decidable v.Savable :=
  inferInstanceAs (Decidable (_ → (∃ c ∈ v.live, _) → ∀ c ∈ v.live, _))

instance (v : View) (c : Job) (answer : Answer) : Decidable (v.CountsResumed c answer) :=
  inferInstanceAs (Decidable (_ → _))

end View

/-- An act that leaves the count of a save right. -/
def Act.KeepsCount (v : View) : Act → Prop
  | .save asked _ => asked = true ∨ ∀ c ∈ v.live, c.hasState = false
  | .resume c answer => v.CountsResumed c answer
  | _ => True

/-! ## The invariant -/

/-- What holds of a project in every run that keeps the count right. -/
structure CountedSave (a : Addr) (v : View) (log : List Event) : Prop where
  idle : v.task = .idle → v.pending = 0
  /-- Whoever has a task while the project is loading was not asked to save. -/
  load : v.task = .load → ∀ c ∈ v.jobs, c.owesSave = false
  /-- While the project is being saved the count is not too low, unless that does no harm. -/
  counts : v.task = .save → v.owing ≤ v.pending ∨ v.saves ≤ 1
  saving : v.loaded = true → v.task = .save → Saving a v log
  saved : Before (fun pre e => ∀ name, e = .projectSaved a name → AllReported a pre) log

section step

variable {a : Addr} {v v' : View} {act : Act} {evs log : List Event}

/-- While a project is loading nobody owes a save. -/
theorem Move.load_owesSave (h : Move a v act evs v')
    (hI : v.task = .load → ∀ c ∈ v.jobs, c.owesSave = false) :
    v'.task = .load → ∀ c ∈ v'.jobs, c.owesSave = false := by
  intro ht d hd
  by_contra ho
  have ho : d.owesSave = true := by simpa using ho
  have hsave := (Job.owesSave_eq_true.mp ho).2
  rcases h.origin hd (Job.owes_of_owesSave ho) with ⟨c, hc, hs⟩ | ⟨c, _, hr⟩ | ⟨w, rfl, _⟩
  · rcases h.load_of_load ht with hload | ⟨cs, rfl⟩
    · rw [hs.owesSave, hI hload c hc] at ho
      exact absurd ho (by decide)
    · cases h with
      | restore _ hj => rw [hj] at hc; exact absurd hc (by simp)
  · cases hdt : d.taskType <;> rw [hdt] at hsave hr <;>
      first
      | exact absurd hsave (by decide)
      | exact absurd hr (by decide)
  · rcases h.load_of_load ht with hload | ⟨cs, hact⟩
    · cases h with
      | asked htask => rw [htask] at hload; exact absurd hload (by decide)
    · exact absurd hact (by simp)

/-- The count stays right. -/
theorem Move.counts (h : Move a v act evs v') (hd : v.Distinct) (hok : act.KeepsCount v)
    (hI : v.task = .save → v.owing ≤ v.pending ∨ v.saves ≤ 1) :
    v'.task = .save → v'.owing ≤ v'.pending ∨ v'.saves ≤ 1 := by
  -- a client that owes a report is counted down
  have hreport : ∀ {w : View} {c : Job} {f : Flags}, w.task = v.task → w.pending = v.pending →
      w.live = (v.put (c.done f)).live → c ∈ v.live → c.owes = true → w.count.task = .save →
      w.count.owing ≤ w.count.pending ∨ w.count.saves ≤ 1 := by
    intro w c f ht hp hw hc ho hs
    have howing := View.countP_put Job.owes hd hc (show (c.done f).addr = c.addr from rfl)
    have hsaves := View.countP_put Job.owesSave hd hc (show (c.done f).addr = c.addr from rfl)
    rw [← hw] at howing hsaves
    rw [ho, Job.owes_done] at howing
    rw [Job.owesSave_done] at hsaves
    have hI := hI (ht ▸ (View.count_task (by rw [hs]; decide)).1 ▸ hs)
    simp only [View.owing, View.saves, View.count_pending, View.live_count, hp,
      Bool.toNat_true, Bool.toNat_false] at hI howing hsaves ⊢
    omega
  -- a client that comes back
  have hback : ∀ {d : Job} (n m : Nat), d.owes.toNat = n → d.owesSave.toNat = m →
      (v.revive d).owing = v.owing + n ∧ (v.revive d).saves = v.saves + m := by
    intro d n m hn hm
    rw [← hn, ← hm]
    exact ⟨View.countP_revive _, View.countP_revive _⟩
  -- a client that keeps its task
  have hsame : ∀ {c e : Job}, c ∈ v.live → c.SameTask e → v.task = .save →
      (v.put e).owing ≤ v.pending ∨ (v.put e).saves ≤ 1 := by
    intro c e hc hs ht
    have howing := View.countP_put Job.owes hd hc hs.addr
    have hsaves := View.countP_put Job.owesSave hd hc hs.addr
    rw [hs.owes] at howing
    rw [hs.owesSave] at hsaves
    have hI := hI ht
    simp only [View.owing, View.saves] at hI ⊢
    omega
  cases h with
  | quiet | launch => exact hI
  | @join c name fresh idle =>
      intro ht
      have ho : c.owes = false := by simp [Job.owes, idle.pendingTask]
      have hs : c.owesSave = false := by simp [Job.owesSave, idle.pendingTask]
      have hI := hI ht
      simp only [View.owing, View.saves, List.countP_cons, ho, hs] at hI ⊢
      simpa using hI
  | @leave c hc =>
      intro ht
      have howing := View.countP_drop Job.owes hd hc
      have hsaves := View.countP_drop Job.owesSave hd hc
      have hI := hI ht
      simp only [View.owing, View.saves, View.drop_pending] at hI ⊢
      omega
  | @sent c name task type ev hc hpid hne hev =>
      intro ht
      have hs : ((c.reconnect name).give task type).owesSave = false := by
        cases hev <;> simp [Job.owesSave, Job.give, EventType.isSave]
      have ho : ((c.reconnect name).give task type).owes = true :=
        Job.owes_eq_true.mpr ⟨hne, by cases hev <;> simp [Job.give]⟩
      obtain ⟨howing, hsaves⟩ := hback 1 0 (by rw [ho]; rfl) (by rw [hs]; rfl)
      have hok := hok ht
      have hI := hI ht
      rw [howing, hsaves, View.revive_pending]
      grind
  | @silent c name hc =>
      intro ht
      have hs : c.SameTask (c.reconnect name) := ⟨rfl, rfl, rfl⟩
      obtain ⟨howing, hsaves⟩ := hback (d := c.reconnect name) c.owes.toNat c.owesSave.toNat
        (by rw [← hs.owes]) (by rw [← hs.owesSave])
      have hle : c.owesSave.toNat ≤ 1 := Bool.toNat_le _
      have hle' : c.owes.toNat ≤ 1 := Bool.toNat_le _
      have hno : c.owes = false → c.owes.toNat = 0 ∧ c.owesSave.toNat = 0 := by
        intro ho
        have hs : c.owesSave ≠ true := fun h => by
          rw [Job.owes_of_owesSave h] at ho
          exact absurd ho (by decide)
        rw [ho, Bool.eq_false_iff.mpr hs]
        exact ⟨rfl, rfl⟩
      have hok := hok ht
      have hI := hI ht
      rw [howing, hsaves, View.revive_pending]
      grind
  | @stateless c name pname written modified hc =>
      intro ht
      obtain ⟨htask, hne⟩ := View.count_task (by rw [ht]; decide)
      rw [htask] at ht
      obtain ⟨howing, hsaves⟩ := hback (d := { c.reconnect name with taskType := .unknown }) 0 0
        (by simp [Job.owes]) (by simp [Job.owesSave, EventType.isSave])
      have hok := hok ht
      have hI := hI ht
      simp only [View.owing, View.saves, View.count_pending, View.live_count, View.revive_pending]
        at howing hsaves hI hok ⊢
      rw [howing, hsaves]
      grind
  | @cleared c ok written hc hp htype =>
      intro ht
      have ho : c.owes = false := by simp [Job.owes, htype]
      have hs : c.owesSave = false := by simp [Job.owesSave, htype, EventType.isSave]
      have howing := View.countP_put Job.owes hd hc (show (c.done c.flags).addr = c.addr from rfl)
      have hsaves :=
        View.countP_put Job.owesSave hd hc (show (c.done c.flags).addr = c.addr from rfl)
      rw [ho, Job.owes_done] at howing
      rw [hs, Job.owesSave_done] at hsaves
      have hI := hI ht
      simp only [View.owing, View.saves, View.put_pending, Bool.toNat_false] at hI howing hsaves ⊢
      omega
  | failed hc hp htype =>
      exact hreport rfl rfl rfl hc (Job.owes_eq_true.mpr ⟨hp, htype⟩)
  | saved hc hp htype =>
      exact hreport rfl rfl rfl hc (Job.owes_of_owesSave (Job.owesSave_eq_true.mpr ⟨hp, htype⟩))
  | restored hc hp htype =>
      refine hreport rfl rfl rfl hc (Job.owes_eq_true.mpr ⟨hp, ?_⟩)
      intro he
      rw [he] at htype
      exact absurd htype (by decide)
  | skipped htask => intro ht; rw [htask] at ht; exact absurd ht (by decide)
  | @asked name task evs' written htask hp hne hevs =>
      intro _
      left
      rw [View.countP_ask hne hp]
      exact le_refl _
  | close => intro _; left; exact Nat.zero_le _
  | restore => intro ht; exact absurd ht (by simp)
  | @depend c id hc => exact hsame hc ⟨rfl, rfl, rfl⟩
  | @undepend c id hc => exact hsame hc ⟨rfl, rfl, rfl⟩

/-- In the middle of a save, every client that was asked reported, has its task, or was lost. -/
theorem Move.saving (h : Move a v act evs v') (hd : v.Distinct)
    (hI : v.loaded = true → v.task = .save → Saving a v log) :
    v'.loaded = true → v'.task = .save → Saving a v' (log ++ evs) := by
  intro hl ht
  rcases h.save_of_save ht with hs | ⟨hidle, w, rfl⟩
  · have hne : v.task ≠ .idle := by rw [hs]; decide
    have hload : v.loaded = true := by
      rcases h.loaded_of_loaded hl with hload | ⟨hidle, _⟩ | ⟨cs, rfl⟩
      · exact hload
      · rw [ht] at hidle
        exact absurd hidle (by decide)
      · cases h with
        | restore => exact absurd ht (by simp)
    obtain ⟨ids, mid, hlast, hids⟩ := hI hload hs
    refine ⟨ids, mid ++ evs, hlast.append (h.saveBegun_not_mem hne), ?_⟩
    intro x hx hlost
    have hlost' : Event.lost a x ∉ mid ∧ Event.lost a x ∉ evs := by simpa using hlost
    rcases hids x hx hlost'.1 with hr | ⟨rest, c, hc, rfl, ho, hg⟩
    · exact Or.inl (hr.append evs)
    · rcases h.stays hd hne hl hc with ⟨d, hd', hsame⟩ | hm | ⟨ok, hm⟩
      · refine Or.inr ⟨rest ++ evs, d, hd', hsame.addr, hsame.owesSave.trans ho, ?_⟩
        rw [hsame.pendingTask]
        exact hg.append evs
      · exact absurd hm hlost'.2
      · exact Or.inl (hg.reported hm)
  · cases h with
    | @asked name task evs' written htask hp hne hevs =>
        rcases hevs with ⟨_, rfl⟩ | ⟨hno, _⟩
        · refine ⟨(v.live.filter Job.hasState).map Job.addr, askEvents a name task v, ?_, ?_⟩
          · exact ⟨log, by simp [beginEvent], by simp [askEvents]⟩
          · intro x hx _
            obtain ⟨c, hc, rfl⟩ := List.mem_map.mp hx
            obtain ⟨hlive, hstate⟩ := List.mem_filter.mp hc
            obtain ⟨l₁, l₂, hsplit⟩ := List.append_of_mem hc
            refine Or.inr ⟨l₂.map (fun c => .taskGiven a c.addr task), c.ask task,
              List.mem_map_of_mem hlive, by simp [Job.ask, hstate, Job.give], ?_, ?_⟩
            · refine Job.owesSave_eq_true.mpr ?_
              simp only [Job.ask, hstate, if_true, Job.give]
              exact ⟨hne, by split <;> rfl⟩
            · refine ⟨name, .save a name task :: l₁.map (fun c => .taskGiven a c.addr task), ?_, ?_⟩
              · simp [askEvents, hsplit, Job.ask, hstate, Job.give]
              · simp [Job.ask, hstate, Job.give]
        · have : v.live.filter Job.hasState = [] := by
            rw [List.filter_eq_nil_iff]
            exact hno
          simp [View.ask, this] at ht

/-- **The last report of a save.** A client that owes a save and is the last to be counted is the
last of those that were asked. -/
theorem CountedSave.allReported (hI : CountedSave a v log) (hd : v.Distinct)
    (hu : v.loaded = false → v.jobs = []) {c : Job} (hc : c ∈ v.live) (ho : c.owesSave = true)
    (h1 : v.pending = 1) {ok : Bool} {rest : List Event} (hno : ∀ l, Event.saveBegun a l ∉ rest) :
    AllReported a
      (log ++ .taskCompleted a c.addr c.pendingTask c.taskType ok :: rest) := by
  have hjob : c ∈ v.jobs := List.mem_append_left _ hc
  have htask : v.task = .save := by
    cases ht : v.task with
    | idle =>
        have := hI.idle ht
        omega
    | load =>
        rw [hI.load ht c hjob] at ho
        exact absurd ho (by decide)
    | save => rfl
  have hload : v.loaded = true := by
    by_contra hl
    rw [hu (by simpa using hl)] at hjob
    exact absurd hjob (by simp)
  -- nobody else owes a save
  have honly : ∀ d ∈ v.live, d.owesSave = true → d = c := by
    have hle : v.live.countP Job.owesSave ≤ 1 := by
      have hso := v.saves_le_owing
      have := hI.counts htask
      simp only [View.saves] at this hso ⊢
      omega
    intro d hd' hod
    exact Keyed.eq_of_countP_le_one hd.live hle hd' hc hod ho
  obtain ⟨ids, mid, hlast, hids⟩ := hI.saving hload htask
  refine ⟨ids, mid ++ .taskCompleted a c.addr c.pendingTask c.taskType ok :: rest,
    hlast.append (by simpa using hno), ?_⟩
  intro x hx hlost
  have hlost : Event.lost a x ∉ mid := fun hm => hlost (List.mem_append_left _ hm)
  rcases hids x hx hlost with hr | ⟨rest', d, hd', rfl, hod, hg⟩
  · exact hr.append _
  · rw [honly d hd' hod] at hg ⊢
    exact hg.reported List.mem_cons_self

/-- What is announced when a project is counted down: it is saved if that was a save. -/
theorem projectSaved_mem_countEvents {pname name : CStr} {written modified : Bool}
    {type : EventType}
    (h : Event.projectSaved a name ∈ v.countEvents a pname written modified type) :
    v.pending = 1 ∧ type.isSave = true := by
  by_cases h1 : v.pending = 1
  · rw [View.countEvents_of_eq h1] at h
    refine ⟨h1, ?_⟩
    cases type <;> grind [finishEvents, EventType.isSave]
  · rw [View.countEvents_of_ne h1] at h
    exact absurd h (by simp)

/-- Nobody had anything to save. -/
theorem allReported_nil {mid : List Event} (hno : ∀ l, Event.saveBegun a l ∉ mid) :
    AllReported a (log ++ .saveBegun a [] :: mid) :=
  ⟨[], mid, ⟨log, rfl, hno⟩, by simp⟩

/-- **Whenever a move announces that the project is saved**, all clients reported. -/
theorem CountedSave.announces (hI : CountedSave a v log) (h : Move a v act evs v')
    (hd : v.Distinct) (hu : v.loaded = false → v.jobs = []) (hok : act.KeepsCount v)
    {pre post : List Event} {name : CStr} (hevs : evs = pre ++ .projectSaved a name :: post) :
    AllReported a (log ++ pre) := by
  have hmem : Event.projectSaved a name ∈ evs := by rw [hevs]; simp
  -- what was reported before is not the beginning of a save
  have hreport : ∀ {c : Job} {ok : Bool} {l : List Event}, c ∈ v.live → c.pendingTask ≠ 0 →
      v.pending = 1 → c.taskType.isSave = true → (∀ ids, Event.saveBegun a ids ∉ l) →
      .taskCompleted a c.addr c.pendingTask c.taskType ok :: l =
        pre ++ .projectSaved a name :: post →
      AllReported a (log ++ pre) := by
    intro c ok l hc hp h1 hsave hno heq
    obtain ⟨rest, rfl, rfl⟩ := split_cons heq (by simp)
    refine hI.allReported hd hu hc (Job.owesSave_eq_true.mpr ⟨hp, hsave⟩) h1 ?_
    exact fun ids hm => hno ids (List.mem_append_left _ hm)
  -- a save that is complete at once
  have hnobody : ∀ {l : List Event}, (∀ c ∈ v.live, c.hasState = false) →
      (∀ ids, Event.saveBegun a ids ∉ l) →
      beginEvent a v :: l = pre ++ .projectSaved a name :: post → AllReported a (log ++ pre) := by
    intro l hstate hno heq
    obtain ⟨mid, rfl, rfl⟩ := split_cons heq (by simp [beginEvent])
    have hnil : v.live.filter Job.hasState = [] := by
      rw [List.filter_eq_nil_iff]
      exact fun c hc => by simp [hstate c hc]
    rw [beginEvent, hnil]
    exact allReported_nil (fun ids hm => hno ids (List.mem_append_left _ hm))
  cases h with
  | sent hc hpid hne he => cases he <;> simp at hmem
  | stateless hc =>
      have hsave := (projectSaved_mem_countEvents (by simpa using hmem)).2
      exact absurd hsave (by decide)
  | failed hc hp htype =>
      have hsave := projectSaved_mem_countEvents (by simpa using hmem)
      exact hreport hc hp hsave.1 hsave.2 saveBegun_not_mem_countEvents hevs
  | saved hc hp htype =>
      have hsave := projectSaved_mem_countEvents (by simpa using hmem)
      exact hreport hc hp hsave.1 hsave.2 saveBegun_not_mem_countEvents hevs
  | restored hc hp htype =>
      have hsave := projectSaved_mem_countEvents (by simpa [launchEvents] using hmem)
      refine hreport hc hp hsave.1 hsave.2 ?_ hevs
      intro ids hm
      rcases List.mem_append.mp hm with hm | hm
      · simp [launchEvents] at hm
      · exact saveBegun_not_mem_countEvents ids hm
  | skipped htask hc hp hend =>
      refine hnobody (hok.resolve_left (by simp)) ?_ hevs
      intro ids hm
      rcases hend with rfl | ⟨n, modified, rfl⟩
      · exact absurd hm (by simp)
      · exact absurd (isFinish_of_mem_finishEvents hm) (by simp [Event.isFinish])
  | asked htask hp hne hend =>
      rcases hend with ⟨_, rfl⟩ | ⟨hstate, modified, rfl⟩
      · simp [beginEvent, askEvents] at hmem
      · refine hnobody (fun c hc => by simpa using hstate c hc) ?_ hevs
        intro ids hm
        rcases List.mem_append.mp hm with hm | hm
        · simp [askEvents] at hm
        · exact absurd (isFinish_of_mem_finishEvents hm) (by simp [Event.isFinish])
  | restore => simp [launchEvents] at hmem
  | _ => simp at hmem

/-- **One move** keeps the invariant, if it keeps the count. -/
theorem CountedSave.move (hI : CountedSave a v log) (h : Move a v act evs v') (hd : v.Distinct)
    (hu : v.loaded = false → v.jobs = []) (hok : act.KeepsCount v) :
    CountedSave a v' (log ++ evs) where
  idle := h.idle_pending hI.idle
  load := h.load_owesSave hI.load
  counts := h.counts hd hok hI.counts
  saving := h.saving hd hI.saving
  saved := by
    apply hI.saved.append
    rintro pre e post hevs name rfl
    exact hI.announces h hd hu hok hevs

end step

/-! ## Runs -/

namespace Server

/-- The input leaves the counts of saves right. -/
def KeepsCount (s : Server) (i : Input) : Prop :=
  (∀ a ∈ s.saving i, (s.view a).Savable) ∧
    ∀ r ∈ s.resuming i, ∀ answer ∈ s.answer i, (s.view r.1).CountsResumed r.2.job answer

instance (s : Server) (i : Input) : Decidable (s.KeepsCount i) :=
  inferInstanceAs (Decidable ((∀ a ∈ s.saving i, _) ∧ ∀ r ∈ s.resuming i, ∀ answer ∈ s.answer i, _))

theorem KeepsCount.act {s : Server} {i : Input} {a : Addr} {act : Act} {evs : List Event}
    {v' : View} (h : s.KeepsCount i) (hexp : s.Explains i a act)
    (hm : Move a (s.view a) act evs v') : act.KeepsCount (s.view a) := by
  cases act with
  | resume c answer =>
      obtain ⟨x, hx, rfl, hans⟩ := hexp
      exact h.2 (a, x) hx answer hans
  | save asked written =>
      obtain ⟨hs, _⟩ := hexp
      cases hm with
      | asked => exact Or.inl rfl
      | @skipped c _ _ htask hc hp =>
          right
          intro d hd
          by_contra hstate
          exact hp (h.1 a hs htask ⟨d, hd, by simpa using hstate⟩ c hc)
  | _ => trivial

/-- Whenever the log says that a project is saved, every client that had something to save when the
save began, and was not lost since, was given the task of that save and reported the end of it. -/
def SavedAfterReports (s : Server) : Prop :=
  ∀ a, Before (fun pre e => ∀ name, e = .projectSaved a name → AllReported a pre) (tasks a s.g.log)

/-- **No early ProjectSaved**, as long as the counts are right. -/
theorem saved_after_reports {fs : Fs} {dir : CStr} {s : Server}
    (h : Reachable KeepsCount fs dir s) : s.SavedAfterReports := by
  intro a
  have hI : CountedSave a (s.view a) (tasks a s.g.log) := by
    refine h.induction (I := CountedSave a) a ?_ ?_
    · constructor
      · exact fun _ => rfl
      · exact fun _ => by simp [View.jobs, Project.view, projectNew]
      · exact fun ht => absurd ht (by simp [Project.view, projectNew])
      · exact fun _ ht => absurd ht (by simp [Project.view, projectNew])
      · exact Before.nil
    · intro s i v' act evs hw hok hexp hmove hI
      exact hI.move hmove (hw.distinct a) (hw.unloaded a) (hok.act hexp hmove)
  exact hI.saved

/-- A save is announced right after it began, with clients that have something to save. -/
theorem not_allReported {a x : Addr} {ids : List Addr} {pre mid : List Event}
    (hbegun : ∀ l, Event.saveBegun a l ∉ mid) (hlost : Event.lost a x ∉ mid)
    (hdone : ∀ task type ok, Event.taskCompleted a x task type ok ∉ mid) :
    ¬ AllReported a (pre ++ .saveBegun a (x :: ids) :: mid) := by
  rintro ⟨ids', mid', ⟨pre', heq, hbegun'⟩, hids⟩
  have hlast : ids' = x :: ids ∧ mid' = mid := by
    rcases List.append_eq_append_iff.mp heq with ⟨l, _, hl⟩ | ⟨l, _, hl⟩
    · cases l with
      | nil => simpa using hl.symm
      | cons e l =>
          obtain ⟨_, rfl⟩ := List.cons_eq_cons.mp hl
          exact absurd (by simp) (hbegun ids')
    · cases l with
      | nil => simpa using hl
      | cons e l =>
          obtain ⟨_, rfl⟩ := List.cons_eq_cons.mp hl
          exact absurd (by simp) (hbegun' (x :: ids))
  obtain ⟨rfl, rfl⟩ := hlast
  obtain ⟨task, rest, type, ok, ⟨name, pre, rfl, _⟩, hm⟩ := hids x (by simp) hlost
  exact hdone task type ok (by simp [hm])

/-- A file client that was saved is lost and launched again. It is sent its file to load, and before
it reports, the project is saved: nobody is asked, and the save is announced. -/
theorem saved_without_report :
    ∃ s, Reachable FreshId emptyDisk (cstr "/p") s ∧ ¬ s.SavedAfterReports := by
  have hrun : (runFrom FreshId
      [.connect (cstr ":1") 5 (cstr "synth") flagConfigFile [] [cstr "synth"] 1,
        .projectSave (cstr "New Project"),
        .progress (cstr ":1") [.uint64 1, .byte 255],
        .nameLost (cstr ":1"),
        .outside emptyDisk [7],
        .lostClientLaunch (cstr "New Project") (uuidUnparse 1),
        .connect (cstr ":2") 7 (cstr "synth") flagConfigFile [] [cstr "synth"] 2,
        .projectSave (cstr "New Project")]).any
      (fun s => (tasks 1 s.g.log).drop 14 =
        [.saveBegun 1 [0], .infoWritten 1, .projectSaved 1 (cstr "New Project"),
          .projectModifiedStatusChanged 1 (cstr "New Project") false]) = true := by
    decide +kernel
  obtain ⟨s, hs, hlog⟩ := exists_of_runFrom hrun
  refine ⟨s, hs, ?_⟩
  intro hsaved
  have hlog := of_decide_eq_true hlog
  have hsplit : tasks 1 s.g.log = ((tasks 1 s.g.log).take 14 ++ [.saveBegun 1 [0], .infoWritten 1])
      ++ .projectSaved 1 (cstr "New Project")
        :: [.projectModifiedStatusChanged 1 (cstr "New Project") false] := by
    conv_lhs => rw [← List.take_append_drop 14 (tasks 1 s.g.log), hlog]
    simp
  have hall := hsaved 1 _ _ _ hsplit _ rfl
  exact not_allReported (by simp) (by simp) (by simp) hall

/-- Two clients save, one after the other. -/
theorem saved_after_reports_two :
    ∃ s, Reachable KeepsCount emptyDisk (cstr "/p") s ∧ s.SavedAfterReports ∧
      .projectSaved 1 (cstr "New Project") ∈ tasks 1 s.g.log := by
  have hrun : (runFrom KeepsCount
      [.connect (cstr ":1") 5 (cstr "synth") flagConfigFile [] [cstr "synth"] 1,
        .connect (cstr ":2") 6 (cstr "drums") flagConfigFile [] [cstr "drums"] 2,
        .projectSave (cstr "New Project"),
        .progress (cstr ":2") [.uint64 1, .byte 255],
        .progress (cstr ":1") [.uint64 1, .byte 255]]).any
      (fun s => .projectSaved 1 (cstr "New Project") ∈ tasks 1 s.g.log) = true := by
    decide +kernel
  obtain ⟨s, hs, hmem⟩ := exists_of_runFrom hrun
  exact ⟨s, hs, saved_after_reports hs, of_decide_eq_true hmem⟩

end Server

end Lash
