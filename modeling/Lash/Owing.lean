import Lash.Refine

/-!
# Who still has to report

A client *owes* a report if it has a task that will be counted when it is done. This module says
how one move changes who owes one, how many do, and whether the project has a task at all. The
invariants about saving and loading are put together from these lemmas.
-/

namespace Lash

theorem exists_of_forall₂ {α β : Type*} {R : α → β → Prop} {l : List α} {l' : List β}
    (h : List.Forall₂ R l l') {y : β} (hy : y ∈ l') : ∃ x ∈ l, R x y := by
  induction h with
  | nil => exact absurd hy (by simp)
  | @cons x z l l' hr _ ih =>
      rcases List.mem_cons.mp hy with rfl | hy
      · exact ⟨x, by simp, hr⟩
      · obtain ⟨w, hw, hr⟩ := ih hy
        exact ⟨w, List.mem_cons_of_mem _ hw, hr⟩

theorem isSave_ne_isRestore {type : EventType} (h : type.isSave = true) :
    type.isRestore = false := by
  cases type <;> first | rfl | exact absurd h (by decide)

/-! ## Counting -/

namespace Job

/-- The client has a task, and its report will be counted. -/
def owes (c : Job) : Bool := c.pendingTask ≠ 0 && c.taskType ≠ .unknown

/-- The client was asked to save. -/
def owesSave (c : Job) : Bool := c.pendingTask ≠ 0 && c.taskType.isSave

theorem owes_eq_true {c : Job} : c.owes = true ↔ c.pendingTask ≠ 0 ∧ c.taskType ≠ .unknown := by
  simp [owes]

theorem owesSave_eq_true {c : Job} :
    c.owesSave = true ↔ c.pendingTask ≠ 0 ∧ c.taskType.isSave = true := by
  simp [owesSave]

theorem owes_of_owesSave {c : Job} (h : c.owesSave = true) : c.owes = true := by
  obtain ⟨hp, ht⟩ := owesSave_eq_true.mp h
  refine owes_eq_true.mpr ⟨hp, ?_⟩
  intro he
  rw [he] at ht
  exact absurd ht (by decide)

@[simp] theorem owes_done (c : Job) (f : Flags) : (c.done f).owes = false := by
  simp [owes, done]

@[simp] theorem owesSave_done (c : Job) (f : Flags) : (c.done f).owesSave = false := by
  simp [owesSave, done]

/-- Two states of a client with the same task. -/
structure SameTask (c d : Job) : Prop where
  addr : d.addr = c.addr
  pendingTask : d.pendingTask = c.pendingTask
  taskType : d.taskType = c.taskType

namespace SameTask

variable {c d : Job}

theorem refl (c : Job) : c.SameTask c := ⟨rfl, rfl, rfl⟩

theorem owes (h : c.SameTask d) : d.owes = c.owes := by
  rw [Job.owes, Job.owes, h.pendingTask, h.taskType]

theorem owesSave (h : c.SameTask d) : d.owesSave = c.owesSave := by
  rw [Job.owesSave, Job.owesSave, h.pendingTask, h.taskType]

end SameTask

theorem Satisfied.sameTask {id : Uuid} {c d : Job} (h : Satisfied id c d) : c.SameTask d := by
  obtain ⟨pid, rfl⟩ := h
  exact ⟨rfl, rfl, rfl⟩

end Job

namespace View

/-- How many live clients owe a report. -/
def owing (v : View) : Nat := v.live.countP Job.owes

/-- How many live clients owe a save. -/
def saves (v : View) : Nat := v.live.countP Job.owesSave

theorem saves_le_owing (v : View) : v.saves ≤ v.owing :=
  List.countP_mono_left (fun _ _ h => Job.owes_of_owesSave h)

/-- `View.count` in two cases: the last client reported, or there are others. -/
theorem count_eq (v : View) :
    (v.pending = 1 ∧ v.count = { v with pending := 0, task := .idle }) ∨
      (v.pending ≠ 1 ∧ v.count = { v with pending := v.pending - 1 }) := by
  unfold count
  by_cases h0 : v.pending = 0
  · right
    refine ⟨by omega, ?_⟩
    rw [if_pos h0, show v.pending - 1 = v.pending by omega]
  · rw [if_neg h0]
    by_cases h1 : v.pending = 1
    · left
      exact ⟨h1, if_pos h1⟩
    · right
      exact ⟨h1, if_neg h1⟩

theorem count_pending (v : View) : v.count.pending = v.pending - 1 := by
  rcases v.count_eq with ⟨h, hc⟩ | ⟨_, hc⟩
  · rw [hc, h]
  · rw [hc]

/-- If a report leaves the project a task, then the one it had. -/
theorem count_task {v : View} (h : v.count.task ≠ .idle) :
    v.count.task = v.task ∧ v.pending ≠ 1 := by
  rcases v.count_eq with ⟨_, hc⟩ | ⟨h1, hc⟩
  · rw [hc] at h
    exact absurd rfl h
  · rw [hc]
    exact ⟨rfl, h1⟩

theorem countEvents_of_ne {v : View} (h : v.pending ≠ 1) (a : Addr) (name : CStr)
    (written modified : Bool) (type : EventType) :
    v.countEvents a name written modified type = [] := if_neg h

theorem countEvents_of_eq {v : View} (h : v.pending = 1) (a : Addr) (name : CStr)
    (written modified : Bool) (type : EventType) :
    v.countEvents a name written modified type
      = .taskFinished a v.task :: finishEvents a name written modified type := if_pos h

@[simp] theorem drop_pending (v : View) (c : Job) : (v.drop c).pending = v.pending := rfl
@[simp] theorem drop_task (v : View) (c : Job) : (v.drop c).task = v.task := rfl
@[simp] theorem revive_pending (v : View) (c : Job) : (v.revive c).pending = v.pending := rfl
@[simp] theorem revive_task (v : View) (c : Job) : (v.revive c).task = v.task := rfl

section counting

variable {v : View} (q : Job → Bool) {c d : Job}

/-- Overwriting a client moves a count by what the two contribute. -/
theorem countP_put (hd : v.Distinct) (hc : c ∈ v.live) (h : d.addr = c.addr) :
    (v.put d).live.countP q + (q c).toNat = v.live.countP q + (q d).toNat := by
  have hput := Keyed.countP_put (q := q) hd.live hc h
  cases hqc : q c <;> cases hqd : q d <;> rw [hqc, hqd] at hput <;> exact hput

theorem countP_drop (hd : v.Distinct) (hc : c ∈ v.live) :
    (v.drop c).live.countP q + (q c).toNat = v.live.countP q := by
  have hdel := Keyed.countP_del (q := q) hd.live hc
  cases hqc : q c <;> rw [hqc] at hdel <;> exact hdel

theorem countP_revive : (v.revive d).live.countP q = v.live.countP q + (q d).toNat := by
  show (d :: v.live).countP q = _
  rw [List.countP_cons]
  cases q d <;> rfl

/-- Everybody who has state owes a report after being asked, and nobody else. -/
theorem countP_ask {task : Nat} (ht : task ≠ 0) (h : ∀ c ∈ v.live, c.pendingTask = 0) :
    (v.ask task).owing = (v.live.filter Job.hasState).length := by
  show (v.live.map (Job.ask task)).countP Job.owes = _
  rw [List.countP_map, ← List.countP_eq_length_filter]
  apply List.countP_congr
  intro c hc
  have hp := h c hc
  simp only [Function.comp, Job.ask]
  split
  · next hs =>
      rw [hs]
      have : (c.give task (if configFile c.flags then .saveFile else .saveDataSet)).owes = true :=
        Job.owes_eq_true.mpr ⟨ht, by simp only [Job.give]; split <;> decide⟩
      rw [this]
  · next hs =>
      have : c.owes = false := by simp [Job.owes, hp]
      simp [this, hs]

end counting

end View

/-! ## The end of a task -/

/-- The events that can be the end of a task. -/
def Event.isFinish : Event → Bool
  | .taskFinished .. | .infoWritten .. | .projectSaved .. | .projectLoaded ..
  | .projectModifiedStatusChanged .. => true
  | _ => false

theorem isFinish_of_mem_finishEvents {a : Addr} {pname : CStr} {written modified : Bool}
    {type : EventType} {e : Event} (h : e ∈ finishEvents a pname written modified type) :
    e.isFinish = true := by
  cases type <;> grind [finishEvents, Event.isFinish]

theorem isFinish_of_mem_countEvents {v : View} {a : Addr} {pname : CStr} {written modified : Bool}
    {type : EventType} {e : Event} (h : e ∈ v.countEvents a pname written modified type) :
    e.isFinish = true := by
  unfold View.countEvents at h
  split at h
  · rcases List.mem_cons.mp h with rfl | h
    · rfl
    · exact isFinish_of_mem_finishEvents h
  · exact absurd h (by simp)

theorem isFinish_of_mem_launchEvents {a : Addr} {l : List Job} {e : Event}
    (h : e ∈ launchEvents a l) : e.isFinish = false := by
  obtain ⟨c, _, rfl⟩ := List.mem_map.mp h
  rfl

theorem isFinish_of_mem_askEvents {a : Addr} {name : CStr} {task : Nat} {v : View} {e : Event}
    (h : e ∈ askEvents a name task v) : e.isFinish = false := by
  rcases List.mem_cons.mp h with rfl | h
  · rfl
  · obtain ⟨c, _, rfl⟩ := List.mem_map.mp h
    rfl

theorem restored_not_mem_countEvents {v : View} {a : Addr} {pname : CStr} {written modified : Bool}
    {type : EventType} (l : List Addr) :
    Event.restored a l ∉ v.countEvents a pname written modified type :=
  fun hm => absurd (isFinish_of_mem_countEvents hm) (by simp [Event.isFinish])

theorem resumed_not_mem_countEvents {v : View} {a : Addr} {pname : CStr} {written modified : Bool}
    {type : EventType} (x : Addr) :
    Event.resumed a x ∉ v.countEvents a pname written modified type :=
  fun hm => absurd (isFinish_of_mem_countEvents hm) (by simp [Event.isFinish])

theorem saveBegun_not_mem_countEvents {v : View} {a : Addr} {pname : CStr} {written modified : Bool}
    {type : EventType} (l : List Addr) :
    Event.saveBegun a l ∉ v.countEvents a pname written modified type :=
  fun hm => absurd (isFinish_of_mem_countEvents hm) (by simp [Event.isFinish])

/-! ## The task of a project -/

section

variable {a : Addr} {v v' : View} {act : Act} {evs : List Event}

/-- A project that was not loaded before starts without a task, or is restored. -/
theorem Move.loaded_of_loaded (h : Move a v act evs v') (hl : v'.loaded = true) :
    v.loaded = true ∨ v'.task = .idle ∧ v'.pending = 0 ∨ ∃ cs, act = .restore cs := by
  cases h with
  | @join c name fresh idle hnew =>
      cases hv : v.loaded with
      | true => exact Or.inl rfl
      | false => exact Or.inr (Or.inl (hnew hv))
  | restore => exact Or.inr (Or.inr ⟨_, rfl⟩)
  | close => exact absurd hl (by simp)
  | stateless | failed | saved | restored =>
      rw [View.loaded_count] at hl
      exact Or.inl hl
  | _ => exact Or.inl hl

/-- A project is loading only if it was, or was just restored. -/
theorem Move.load_of_load (h : Move a v act evs v') (ht : v'.task = .load) :
    v.task = .load ∨ ∃ cs, act = .restore cs := by
  have hcount : ∀ w : View, w.count.task = .load → w.task = v.task → v.task = .load := by
    intro w hw ht
    exact ht.symm.trans ((View.count_task (by rw [hw]; decide)).1.symm.trans hw)
  cases h with
  | restore => exact Or.inr ⟨_, rfl⟩
  | asked => exact absurd ht (by simp only [View.ask]; split <;> simp)
  | stateless | failed | saved | restored => exact Or.inl (hcount _ ht rfl)
  | _ => exact Or.inl ht

/-- A project is saving only if it was, or was just asked to. -/
theorem Move.save_of_save (h : Move a v act evs v') (ht : v'.task = .save) :
    v.task = .save ∨ v.task = .idle ∧ ∃ w, act = .save true w := by
  have hcount : ∀ w : View, w.count.task = .save → w.task = v.task → v.task = .save := by
    intro w hw ht
    exact ht.symm.trans ((View.count_task (by rw [hw]; decide)).1.symm.trans hw)
  cases h with
  | restore => exact absurd ht (by simp)
  | asked htask => exact Or.inr ⟨htask, _, rfl⟩
  | stateless | failed | saved | restored => exact Or.inl (hcount _ ht rfl)
  | _ => exact Or.inl ht

/-- Without a task nobody is waited for. -/
theorem Move.idle_pending (h : Move a v act evs v') (hI : v.task = .idle → v.pending = 0) :
    v'.task = .idle → v'.pending = 0 := by
  have hcount : ∀ w : View, w.task = v.task → w.pending = v.pending →
      w.count.task = .idle → w.count.pending = 0 := by
    intro w ht hp hidle
    rcases w.count_eq with ⟨h1, hc⟩ | ⟨_, hc⟩
    · rw [hc]
    · rw [hc] at hidle ⊢
      have := hI (ht ▸ hidle)
      show w.pending - 1 = 0
      omega
  cases h with
  | restore => intro ht; exact absurd ht (by simp)
  | asked =>
      intro ht
      simp only [View.ask] at ht ⊢
      split at ht
      · assumption
      · exact absurd ht (by decide)
  | stateless | failed | saved | restored => exact hcount _ rfl rfl
  | _ => exact hI

/-! ## Tasks of the clients -/

/-- A client with a task had it before the move, unless it was sent something to load or was asked
to save. -/
theorem Move.origin (h : Move a v act evs v') {d : Job} (hd : d ∈ v'.jobs) (ho : d.owes = true) :
    (∃ c ∈ v.jobs, c.SameTask d) ∨ (∃ c, act = .resume c .sent ∧ d.taskType.isRestore = true) ∨
      (∃ w, act = .save true w ∧ d.taskType.isSave = true) := by
  obtain ⟨hp, htype⟩ := Job.owes_eq_true.mp ho
  have hold : d ∈ v.jobs → (∃ c ∈ v.jobs, c.SameTask d) := fun hd => ⟨d, hd, .refl d⟩
  have hlive : ∀ {c}, c ∈ v.live → c ∈ v.jobs := fun hc => List.mem_append_left _ hc
  have hlost : ∀ {c}, c ∈ v.lost → c ∈ v.jobs := fun hc => List.mem_append_right _ hc
  -- a client was written back
  have hput : ∀ {w : View} {c e : Job}, d ∈ w.jobs → w.live = Keyed.put Job.addr e v.live →
      c ∈ v.jobs → (e.owes = true → c.SameTask e) → (∀ x ∈ w.lost, ∃ y ∈ v.lost, y.SameTask x) →
      ∃ c ∈ v.jobs, c.SameTask d := by
    intro w c e hd hw hc he hl
    rcases List.mem_append.mp hd with hd | hd
    · rw [hw] at hd
      rcases Keyed.eq_or_mem_of_mem_put hd with rfl | hd
      · exact ⟨c, hc, he ho⟩
      · exact hold (hlive hd)
    · obtain ⟨y, hy, hs⟩ := hl d hd
      exact ⟨y, hlost hy, hs⟩
  have hsame : ∀ x ∈ v.lost, ∃ y ∈ v.lost, y.SameTask x := fun x hx => ⟨x, hx, .refl x⟩
  -- a client came back
  have hrevive : ∀ {e : Job}, d ∈ (v.revive e).jobs → d = e ∨ d ∈ v.jobs := by
    intro e hd
    rcases List.mem_append.mp hd with hd | hd
    · rcases List.mem_cons.mp hd with rfl | hd
      · exact Or.inl rfl
      · exact Or.inr (hlive hd)
    · exact Or.inr (hlost (Keyed.mem_of_mem_del hd))
  cases h with
  | quiet => exact Or.inl (hold hd)
  | @join c name fresh idle =>
      rcases List.mem_cons.mp hd with rfl | hd
      · exact absurd idle.pendingTask hp
      · exact Or.inl (hold hd)
  | @leave c hc =>
      rcases List.mem_append.mp hd with hd | hd
      · exact Or.inl (hold (hlive (Keyed.mem_of_mem_del hd)))
      · rcases List.mem_cons.mp hd with rfl | hd
        · exact Or.inl ⟨c, hlive hc, rfl, rfl, rfl⟩
        · exact Or.inl (hold (hlost hd))
  | @sent c name task type ev hc hpid ht hev =>
      rcases hrevive hd with rfl | hd
      · exact Or.inr (Or.inl ⟨_, rfl, by cases hev <;> rfl⟩)
      · exact Or.inl (hold hd)
  | @silent c name hc =>
      rcases hrevive hd with rfl | hd
      · exact Or.inl ⟨c, hlost hc, rfl, rfl, rfl⟩
      · exact Or.inl (hold hd)
  | stateless hc =>
      rw [View.jobs_count] at hd
      rcases hrevive hd with rfl | hd
      · exact absurd rfl htype
      · exact Or.inl (hold hd)
  | cleared hc =>
      exact Or.inl (hput hd rfl (hlive hc) (by simp) hsame)
  | failed hc | saved hc =>
      rw [View.jobs_count] at hd
      exact Or.inl (hput hd rfl (hlive hc) (by simp) hsame)
  | @restored c lost written modified pname hc hpend ht hforall =>
      rw [View.jobs_count] at hd
      refine Or.inl (hput hd rfl (hlive hc) (by simp) ?_)
      intro x hx
      obtain ⟨y, hy, hs⟩ := exists_of_forall₂ hforall hx
      exact ⟨y, hy, hs.sameTask⟩
  | skipped =>
      refine Or.inl (hold (hlive ?_))
      simpa [View.jobs] using hd
  | @asked name task evs' written htask hpend ht =>
      have hd : d ∈ v.live.map (Job.ask task) := by simpa [View.jobs, View.ask] using hd
      obtain ⟨c, hc, rfl⟩ := List.mem_map.mp hd
      rw [Job.ask] at htype hp ⊢
      split
      · exact Or.inr (Or.inr ⟨_, rfl, by simp only [Job.give]; split <;> rfl⟩)
      · exact Or.inl ⟨c, hlive hc, .refl c⟩
  | close => exact absurd hd (by simp [View.jobs])
  | @restore clients lost hl hj hidle hdist hforall =>
      have hd : d ∈ v.live ++ lost := hd
      rw [(List.append_eq_nil_iff.mp hj).1, List.nil_append] at hd
      obtain ⟨c, hc, hr⟩ := exists_of_forall₂ hforall hd
      obtain ⟨pid, rfl⟩ := hr
      exact absurd (hidle c hc).1.pendingTask hp
  | @launch c pid hc =>
      rcases List.mem_append.mp hd with hd | hd
      · exact Or.inl (hold (hlive hd))
      · rcases Keyed.eq_or_mem_of_mem_put hd with rfl | hd
        · exact Or.inl ⟨c, hlost hc, rfl, rfl, rfl⟩
        · exact Or.inl (hold (hlost hd))
  | @depend c id hc =>
      exact Or.inl (hput (c := c) hd rfl (hlive hc) (fun _ => ⟨rfl, rfl, rfl⟩) hsame)
  | @undepend c id hc =>
      exact Or.inl (hput (c := c) hd rfl (hlive hc) (fun _ => ⟨rfl, rfl, rfl⟩) hsame)

/-- After the clients were asked, a client with a task was asked. -/
theorem Move.asked_saves {w : Bool} (h : Move a v (.save true w) evs v') {d : Job}
    (hd : d ∈ v'.jobs) (ho : d.owes = true) : d.taskType.isSave = true := by
  cases h with
  | @asked name task evs' written htask hp =>
      have hd : d ∈ v.live.map (Job.ask task) := by simpa [View.jobs, View.ask] using hd
      obtain ⟨c, hc, rfl⟩ := List.mem_map.mp hd
      rw [Job.ask] at ho ⊢
      split
      · simp only [Job.give]
        split <;> rfl
      · next hs =>
          rw [if_neg hs] at ho
          exact absurd (hp c hc) (Job.owes_eq_true.mp ho).1

/-- While a project has a task, a live client with one keeps it, is lost, or reports. -/
theorem Move.stays (h : Move a v act evs v') (hd : v.Distinct) (htask : v.task ≠ .idle)
    (hl : v'.loaded = true) {c : Job} (hc : c ∈ v.live) :
    (∃ d ∈ v'.live, c.SameTask d) ∨ .lost a c.addr ∈ evs ∨
      ∃ ok, .taskCompleted a c.addr c.pendingTask c.taskType ok ∈ evs := by
  have hstay : ∀ {w : View}, c ∈ w.live → ∃ d ∈ w.live, c.SameTask d := fun hc => ⟨c, hc, .refl c⟩
  -- the client is the one that is written back, or another
  have hput : ∀ {x : Job} (e : Job), x ∈ v.live → e.addr = x.addr → c = x ∨ c ∈ (v.put e).live := by
    intro x e hx he
    by_cases hca : c.addr = x.addr
    · exact Or.inl (Keyed.eq_of_key_eq hd.live hc hx hca)
    · exact Or.inr (Keyed.mem_put.mpr (Or.inr ⟨hc, fun hce => hca (hce.trans he)⟩))
  cases h with
  | quiet | launch => exact Or.inl (hstay hc)
  | join | sent | silent => exact Or.inl (hstay (List.mem_cons_of_mem _ hc))
  | stateless => exact Or.inl (hstay (by rw [View.live_count]; exact List.mem_cons_of_mem _ hc))
  | @leave x hx =>
      by_cases hca : c.addr = x.addr
      · exact Or.inr (Or.inl (by simp [hca]))
      · exact Or.inl (hstay (Keyed.mem_del.mpr ⟨hc, hca⟩))
  | @cleared x ok written hx =>
      rcases hput (x.done x.flags) hx rfl with rfl | hc
      · exact Or.inr (Or.inr ⟨ok, by simp⟩)
      · exact Or.inl (hstay hc)
  | @failed x _ _ _ hx =>
      rcases hput (x.done x.flags) hx rfl with rfl | hc
      · exact Or.inr (Or.inr ⟨false, by simp⟩)
      · exact Or.inl (hstay (by rw [View.live_count]; exact hc))
  | @saved x flags _ _ _ hx =>
      rcases hput (x.done flags) hx rfl with rfl | hc
      · exact Or.inr (Or.inr ⟨true, by simp⟩)
      · exact Or.inl (hstay (by rw [View.live_count]; exact hc))
  | @restored x _ _ _ _ hx =>
      rcases hput (x.done x.flags) hx rfl with rfl | hc
      · exact Or.inr (Or.inr ⟨true, by simp⟩)
      · exact Or.inl (hstay (by rw [View.live_count]; exact hc))
  | skipped ht | asked ht => exact absurd ht htask
  | close => exact absurd hl (by simp)
  | restore _ hj =>
      rw [(List.append_eq_nil_iff.mp hj).1] at hc
      exact absurd hc (by simp)
  | @depend x id hx =>
      rcases hput { x with dependencies := id :: x.dependencies } hx rfl with rfl | hc
      · exact Or.inl ⟨_, Keyed.mem_put_self hx rfl, rfl, rfl, rfl⟩
      · exact Or.inl (hstay hc)
  | @undepend x id hx =>
      rcases hput { x with dependencies := x.dependencies.erase id } hx rfl with rfl | hc
      · exact Or.inl ⟨_, Keyed.mem_put_self hx rfl, rfl, rfl, rfl⟩
      · exact Or.inl (hstay hc)

/-- While a project has a task no save begins. -/
theorem Move.saveBegun_not_mem (h : Move a v act evs v') (htask : v.task ≠ .idle) (l : List Addr) :
    Event.saveBegun a l ∉ evs := by
  have hlaunch : ∀ cs : List Job, Event.saveBegun a l ∉ launchEvents a cs := by
    simp [launchEvents]
  cases h with
  | skipped ht | asked ht => exact absurd ht htask
  | sent _ _ _ he => cases he <;> simp
  | stateless | failed | saved => simp [saveBegun_not_mem_countEvents]
  | restored | restore => simp [saveBegun_not_mem_countEvents, hlaunch]
  | _ => simp

end

end Lash
