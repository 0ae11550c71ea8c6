import Lash.Owing
import Lash.Lib.Trace

/-!
# A task ends as what it was

When the last client reports, the daemon announces what *that client* was doing: a save if it was
saving, a load if it was loading. This module asks whether the announcement fits the task of the
project, and whether the info file is there when the project is announced as saved. It fits as long
as nobody starts to load during a save, and as long as the info file can be written.
-/

namespace Lash

open Trace

/-! ## What the end of a task has to look like -/

/-- After the last report of a task comes the announcement that belongs to it. -/
def EndsAsBegun (a : Addr) (e : Event) (post : List Event) : Prop :=
  (e = .taskFinished a .save → ∃ name rest, post = .infoWritten a :: .projectSaved a name :: rest) ∧
    (e = .taskFinished a .load → ∃ name rest, post = .projectLoaded a name :: rest)

/-- A project is announced as saved right after its info file was written, and is marked as
unmodified only after an announcement. -/
def AnnouncedRight (a : Addr) (pre : List Event) (e : Event) : Prop :=
  (∀ name, e = .projectSaved a name → ∃ l, pre = l ++ [.infoWritten a]) ∧
    ∀ name, e = .projectModifiedStatusChanged a name false → ∃ l n,
      pre = l ++ [.infoWritten a, .projectSaved a n] ∨ pre = l ++ [.projectLoaded a n]

section

variable {a : Addr} {log : List Event} {pname : CStr} {modified : Bool} {type : EventType}

theorem AnnouncedRight.of_not_isFinish {e : Event} (h : e.isFinish = false) (pre : List Event) :
    AnnouncedRight a pre e := by
  constructor
  · rintro name rfl
    exact absurd h (by simp [Event.isFinish])
  · rintro name rfl
    exact absurd h (by simp [Event.isFinish])

theorem EndsAsBegun.of_not_taskFinished {e : Event} (h : ∀ t, e ≠ .taskFinished a t)
    (post : List Event) : EndsAsBegun a e post :=
  ⟨fun he => absurd he (h _), fun he => absurd he (h _)⟩

/-- The signals at the end of a task, with the info file written. -/
theorem announced_finishEvents (h : Before (AnnouncedRight a) log) :
    Before (AnnouncedRight a) (log ++ finishEvents a pname true modified type) := by
  -- the signal that the project is not modified any more comes last, if it comes
  have hcleared : ∀ {l : List Event}, Before (AnnouncedRight a) l →
      (∃ m n, l = m ++ [.infoWritten a, .projectSaved a n] ∨ l = m ++ [.projectLoaded a n]) →
      Before (AnnouncedRight a)
        (l ++ if modified then [.projectModifiedStatusChanged a pname false] else []) := by
    intro l hl hlast
    cases modified with
    | false => simpa using hl
    | true =>
        apply hl.concat
        exact ⟨by simp, fun _ _ => hlast⟩
  have hsaved : Before (AnnouncedRight a) (log ++ [.infoWritten a] ++ [.projectSaved a pname]) := by
    apply (h.concat ⟨by simp, by simp⟩).concat
    exact ⟨fun _ _ => ⟨log, rfl⟩, by simp⟩
  have hloaded : Before (AnnouncedRight a) (log ++ [.projectLoaded a pname]) :=
    h.concat ⟨by simp, by simp⟩
  cases type with
  | unknown => simpa [finishEvents] using h
  | saveFile | saveDataSet =>
      have := hcleared hsaved ⟨log, pname, Or.inl (by simp)⟩
      simpa [finishEvents] using this
  | restoreFile | restoreDataSet =>
      have := hcleared hloaded ⟨log, pname, Or.inr rfl⟩
      simpa [finishEvents] using this

end

/-! ## The conditions -/

namespace View

/-- A lost client may be resumed in this way: during a save it is not sent anything to load, and
it is not the last one that the save waits for. -/
def KeepsKind (v : View) (answer : Answer) : Prop :=
  v.task = .save → answer ≠ .sent ∧ (answer = .stateless → v.pending ≠ 1)

instance (v : View) (answer : Answer) : Decidable (v.KeepsKind answer) :=
  inferInstanceAs (Decidable (_ → _))

end View

def Act.KeepsKind (v : View) : Act → Prop
  | .resume _ answer => v.KeepsKind answer
  | .complete _ _ written | .save _ written => written = true
  | _ => True

/-! ## The invariant -/

/-- Clients with a task do what their project does. -/
structure OneKind (v : View) : Prop where
  idle : v.task = .idle → v.pending = 0
  save : v.task = .save → ∀ c ∈ v.jobs, c.owes = true → c.taskType.isSave = true
  load : v.task = .load → ∀ c ∈ v.jobs, c.owes = true → c.taskType.isRestore = true

section step

variable {a : Addr} {v v' : View} {act : Act} {evs log : List Event}

theorem OneKind.move (hI : OneKind v) (h : Move a v act evs v') (hok : act.KeepsKind v) :
    OneKind v' where
  idle := h.idle_pending hI.idle
  save := by
    intro ht d hd ho
    rcases h.save_of_save ht with hs | ⟨_, w, rfl⟩
    · rcases h.origin hd ho with ⟨c, hc, hsame⟩ | ⟨c, rfl, _⟩ | ⟨w, rfl, hsave⟩
      · rw [hsame.taskType]
        exact hI.save hs c hc (hsame.owes ▸ ho)
      · exact absurd rfl (hok hs).1
      · exact hsave
    · exact h.asked_saves hd ho
  load := by
    intro ht d hd ho
    rcases h.origin hd ho with ⟨c, hc, hsame⟩ | ⟨c, rfl, hr⟩ | ⟨w, rfl, hsave⟩
    · rcases h.load_of_load ht with hload | ⟨cs, rfl⟩
      · rw [hsame.taskType]
        exact hI.load hload c hc (hsame.owes ▸ ho)
      · cases h with
        | restore _ hj => rw [hj] at hc; exact absurd hc (by simp)
    · exact hr
    · cases h with
      | asked => simp only [View.ask] at ht; split at ht <;> exact absurd ht (by decide)

/-- The report that ends a task is of the kind of the task. -/
theorem OneKind.last (hI : OneKind v) {c : Job} (hc : c ∈ v.live) (ho : c.owes = true)
    (h1 : v.pending = 1) :
    (v.task = .save ∧ c.taskType.isSave = true) ∨
    (v.task = .load ∧ c.taskType.isRestore = true) := by
  have hjob : c ∈ v.jobs := List.mem_append_left _ hc
  cases ht : v.task with
  | idle =>
      have := hI.idle ht
      omega
  | save => exact Or.inl ⟨rfl, hI.save ht c hjob ho⟩
  | load => exact Or.inr ⟨rfl, hI.load ht c hjob ho⟩

/-- The signals at the end of a task do not end another one. -/
theorem endsAsBegun_finishEvents {pname : CStr} {modified : Bool} {type : EventType} :
    After (EndsAsBegun a) (finishEvents a pname true modified type) := by
  apply After.of_forall
  intro e he post
  apply EndsAsBegun.of_not_taskFinished
  rintro t rfl
  cases type <;> grind [finishEvents]

/-- A task ends with the signals of its kind. -/
theorem endsAsBegun_countEvents {pname : CStr} {modified : Bool} {type : EventType}
    (hkind : v.pending = 1 →
      (v.task = .save ∧ type.isSave = true) ∨ (v.task = .load ∧ type.isRestore = true)) :
    After (EndsAsBegun a) (v.countEvents a pname true modified type) := by
  by_cases h1 : v.pending = 1
  · rw [View.countEvents_of_eq h1]
    apply endsAsBegun_finishEvents.cons
    rcases hkind h1 with ⟨ht, htype⟩ | ⟨ht, htype⟩ <;> rw [ht]
    · refine ⟨fun _ => ?_, by simp⟩
      cases type with
      | saveFile | saveDataSet => exact ⟨pname, _, rfl⟩
      | _ => exact absurd htype (by decide)
    · refine ⟨by simp, fun _ => ?_⟩
      cases type with
      | restoreFile | restoreDataSet => exact ⟨pname, _, rfl⟩
      | _ => exact absurd htype (by decide)
  · rw [View.countEvents_of_ne h1]
    exact After.nil

/-- How the events of a move can end: with nothing, with the signals of a save that nobody has to
report to, or with those of a task at its last report. -/
inductive Ending (a : Addr) (v : View) : List Event → Prop
  | none : Ending a v []
  | atOnce (pname : CStr) (modified : Bool) (type : EventType) :
      Ending a v (finishEvents a pname true modified type)
  | last (pname : CStr) (modified : Bool) (type : EventType)
      (hkind : v.pending = 1 →
        (v.task = .save ∧ type.isSave = true) ∨ (v.task = .load ∧ type.isRestore = true)) :
      Ending a v (v.countEvents a pname true modified type)

theorem Move.ending (h : Move a v act evs v') (hI : OneKind v) (hok : act.KeepsKind v) :
    ∃ head tail, evs = head ++ tail ∧ (∀ e ∈ head, e.isFinish = false) ∧ Ending a v tail := by
  have hnone : (∀ e ∈ evs, e.isFinish = false) →
      ∃ head tail, evs = head ++ tail ∧ (∀ e ∈ head, e.isFinish = false) ∧ Ending a v tail :=
    fun he => ⟨evs, [], by simp, he, .none⟩
  cases h with
  | sent hc hpid hne he => cases he <;> exact hnone (by simp [Event.isFinish])
  | @stateless c name pname written modified hc =>
      have hwritten : v.countEvents a pname written modified .restoreDataSet
          = v.countEvents a pname true modified .restoreDataSet :=
        View.countEvents_written written true a pname modified (fun _ h => absurd h (by decide))
      rw [hwritten]
      refine ⟨[.connected a c.addr name, .resumed a c.addr], _, rfl, by simp [Event.isFinish], ?_⟩
      refine .last pname modified .restoreDataSet ?_
      intro h1
      cases ht : v.task with
      | idle =>
          have := hI.idle ht
          omega
      | save => exact absurd h1 ((hok ht).2 rfl)
      | load => exact Or.inr ⟨rfl, rfl⟩
  | @failed c written modified pname hc hp htype =>
      cases show written = true from hok
      refine ⟨[.taskCompleted a c.addr c.pendingTask c.taskType false], _, rfl,
        by simp [Event.isFinish], .last pname modified c.taskType ?_⟩
      exact hI.last hc (Job.owes_eq_true.mpr ⟨hp, htype⟩)
  | @saved c flags written modified pname hc hp htype =>
      cases show written = true from hok
      refine ⟨[.taskCompleted a c.addr c.pendingTask c.taskType true], _, rfl,
        by simp [Event.isFinish], .last pname modified c.taskType ?_⟩
      exact hI.last hc (Job.owes_of_owesSave (Job.owesSave_eq_true.mpr ⟨hp, htype⟩))
  | @restored c lost written modified pname hc hp htype hlost =>
      cases show written = true from hok
      have ho : c.owes = true := by
        refine Job.owes_eq_true.mpr ⟨hp, ?_⟩
        intro he
        rw [he] at htype
        exact absurd htype (by decide)
      refine ⟨.taskCompleted a c.addr c.pendingTask c.taskType true
        :: launchEvents a (v.lost.filter (Job.Ready c.id)), _, rfl, ?_,
        .last pname modified c.taskType (hI.last hc ho)⟩
      intro e he
      rcases List.mem_cons.mp he with rfl | he
      · rfl
      · exact isFinish_of_mem_launchEvents he
  | @skipped c evs' written htask hc hp hevs =>
      cases show written = true from hok
      refine ⟨[beginEvent a v], evs', rfl, by simp [beginEvent, Event.isFinish], ?_⟩
      rcases hevs with rfl | ⟨n, modified, rfl⟩
      · exact .none
      · exact .atOnce n modified .saveFile
  | @asked name task evs' written htask hp hne hevs =>
      cases show written = true from hok
      refine ⟨beginEvent a v :: askEvents a name task v, evs', rfl, ?_, ?_⟩
      · intro e he
        rcases List.mem_cons.mp he with rfl | he
        · rfl
        · exact isFinish_of_mem_askEvents he
      · rcases hevs with ⟨_, rfl⟩ | ⟨_, modified, rfl⟩
        · exact .none
        · exact .atOnce name modified .saveFile
  | restore =>
      refine hnone ?_
      intro e he
      rcases List.mem_cons.mp he with rfl | he
      · rfl
      · exact isFinish_of_mem_launchEvents he
  | _ => exact hnone (by simp [Event.isFinish])

/-- Tasks ended as what they were, and projects were announced as they should be. -/
def EndedRight (a : Addr) (log : List Event) : Prop :=
  After (EndsAsBegun a) log ∧ Before (AnnouncedRight a) log

/-- **One move** ends a task as what it was. -/
theorem EndedRight.move (hE : EndedRight a log) (h : Move a v act evs v') (hI : OneKind v)
    (hok : act.KeepsKind v) : EndedRight a (log ++ evs) := by
  obtain ⟨head, tail, rfl, hhead, htail⟩ := h.ending hI hok
  have hmono : ∀ e post new, EndsAsBegun a e post → EndsAsBegun a e (post ++ new) := by
    rintro e post new ⟨hs, hl⟩
    constructor
    · intro he
      obtain ⟨name, rest, rfl⟩ := hs he
      exact ⟨name, rest ++ new, rfl⟩
    · intro he
      obtain ⟨name, rest, rfl⟩ := hl he
      exact ⟨name, rest ++ new, rfl⟩
  have hafter : After (EndsAsBegun a) (log ++ head) := by
    refine hE.1.append ?_ (fun e post => hmono e post head)
    apply After.of_forall
    intro e he post
    apply EndsAsBegun.of_not_taskFinished
    rintro t rfl
    exact absurd (hhead _ he) (by simp [Event.isFinish])
  have hbefore : Before (AnnouncedRight a) (log ++ head) :=
    hE.2.append_of_forall (fun e he => AnnouncedRight.of_not_isFinish (hhead e he))
  rw [← List.append_assoc]
  cases htail with
  | none =>
      rw [List.append_nil]
      exact ⟨hafter, hbefore⟩
  | atOnce pname modified type =>
      exact ⟨hafter.append endsAsBegun_finishEvents (fun e post => hmono e post _),
        announced_finishEvents hbefore⟩
  | last pname modified type hkind =>
      refine ⟨hafter.append (endsAsBegun_countEvents hkind) (fun e post => hmono e post _), ?_⟩
      by_cases h1 : v.pending = 1
      · rw [View.countEvents_of_eq h1, ← List.singleton_append, ← List.append_assoc]
        apply announced_finishEvents
        exact hbefore.concat ⟨by simp, by simp⟩
      · rw [View.countEvents_of_ne h1, List.append_nil]
        exact hbefore

end step

/-! ## Runs -/

namespace Server

/-- The input starts no load during a save, and the info file can be written if it is time. -/
def KeepsKind (s : Server) (i : Input) : Prop :=
  s.infoWritable i = true ∧
    ∀ r ∈ s.resuming i, ∀ answer ∈ s.answer i, (s.view r.1).KeepsKind answer

instance (s : Server) (i : Input) : Decidable (s.KeepsKind i) :=
  inferInstanceAs (Decidable (_ ∧ ∀ r ∈ s.resuming i, ∀ answer ∈ s.answer i, _))

theorem KeepsKind.act {s : Server} {i : Input} {a : Addr} {act : Act} (h : s.KeepsKind i)
    (hexp : s.Explains i a act) : act.KeepsKind (s.view a) := by
  cases act with
  | resume c answer =>
      obtain ⟨x, hx, rfl, hans⟩ := hexp
      exact h.2 (a, x) hx answer hans
  | complete c ok written =>
      obtain ⟨t, x, _, _, hw⟩ := hexp
      exact hw.trans h.1
  | save asked written => exact hexp.2.trans h.1
  | _ => trivial

/-- Every task of every project ended as what it was. -/
def TasksEndRight (s : Server) : Prop := ∀ a, EndedRight a (tasks a s.g.log)

/-- **A task is finished as the kind it was started**, as long as nobody loads during a save and the
info file can be written. -/
theorem tasks_end_as_begun {fs : Fs} {dir : CStr} {s : Server} (h : Reachable KeepsKind fs dir s) :
    s.TasksEndRight := by
  intro a
  have hI : OneKind (s.view a) ∧ EndedRight a (tasks a s.g.log) := by
    refine h.induction (I := fun v log => OneKind v ∧ EndedRight a log) a ?_ ?_
    · refine ⟨⟨fun _ => rfl, ?_, ?_⟩, After.nil, Before.nil⟩ <;> simp [Project.view, projectNew]
    · intro s i v' act evs hw hok hexp hmove hI
      have hact := hok.act hexp
      exact ⟨hI.1.move hmove hact, hI.2.move hmove hI.1 hact⟩
  exact hI.2

/-- A client that never finished a save is lost during its first one, launched by hand and back:
as a stateless client it ends the save, which is announced as a load. -/
theorem save_ends_as_load :
    ∃ s, Reachable FreshId emptyDisk (cstr "/p") s ∧ ¬ s.TasksEndRight := by
  have hrun : (runFrom FreshId
      [.connect (cstr ":1") 5 (cstr "synth") flagConfigFile [] [cstr "synth"] 1,
        .projectSave (cstr "New Project"),
        .nameLost (cstr ":1"),
        .outside emptyDisk [7],
        .lostClientLaunch (cstr "New Project") (uuidUnparse 1),
        .connect (cstr ":2") 7 (cstr "synth") flagConfigFile [] [cstr "synth"] 2]).any
      (fun s => (tasks 1 s.g.log).drop 8 =
        [.taskFinished 1 .save, .projectLoaded 1 (cstr "New Project"),
          .projectModifiedStatusChanged 1 (cstr "New Project") false]) = true := by
    decide +kernel
  obtain ⟨s, hs, hlog⟩ := exists_of_runFrom hrun
  refine ⟨s, hs, ?_⟩
  intro hright
  have hlog := of_decide_eq_true hlog
  have hsplit : tasks 1 s.g.log = (tasks 1 s.g.log).take 8 ++ .taskFinished 1 .save ::
      [.projectLoaded 1 (cstr "New Project"),
        .projectModifiedStatusChanged 1 (cstr "New Project") false] := by
    conv_lhs => rw [← List.take_append_drop 8 (tasks 1 s.g.log), hlog]
  obtain ⟨name, rest, hpost⟩ := ((hright 1).1 _ _ _ hsplit).1 rfl
  exact absurd (List.cons_eq_cons.mp hpost).1 (by simp)

/-- Two clients save, one after the other. -/
theorem tasks_end_as_begun_two :
    ∃ s, Reachable KeepsKind emptyDisk (cstr "/p") s ∧ s.TasksEndRight ∧
      .taskFinished 1 .save ∈ tasks 1 s.g.log := by
  have hrun : (runFrom KeepsKind
      [.connect (cstr ":1") 5 (cstr "synth") flagConfigFile [] [cstr "synth"] 1,
        .connect (cstr ":2") 6 (cstr "drums") flagConfigFile [] [cstr "drums"] 2,
        .projectSave (cstr "New Project"),
        .progress (cstr ":2") [.uint64 1, .byte 255],
        .progress (cstr ":1") [.uint64 1, .byte 255]]).any
      (fun s => .taskFinished 1 .save ∈ tasks 1 s.g.log) = true := by
    decide +kernel
  obtain ⟨s, hs, hmem⟩ := exists_of_runFrom hrun
  exact ⟨s, hs, tasks_end_as_begun hs, of_decide_eq_true hmem⟩

end Server

end Lash
