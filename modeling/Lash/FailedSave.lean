import Lash.Modified
import Lash.Births
import Lash.Saved

/-!
# Saves that fail on the disk

A save writes the notes file when it begins, the store of a client when the client reports, and
the info file when it is complete. What these writes return is logged and goes no further: the
project is announced as saved, and counts as unmodified, whenever the save is complete
(`failures_told_iff`).
-/

namespace Lash

/-! ## Writes -/

/-- The beginning of `project_save`, up to the notes. -/
def projectSaveAsk (s : Session) : Session :=
  let s := s.emit (.saveBegun s.p.addr (s.p.stateful.map Client.addr))
  let s := s.emit (.progress s.p.addr 0)
  let s := s.setFs (if s.g.fs.lashDirExists s.p.directory then s.g.fs
    else s.g.fs.lashCreateDir s.p.directory)
  projectSaveClients s

/-- One of the operations with which `project_save_notes` writes the notes file fails. -/
def notesFail (s : Session) : Bool :=
  let f := lashGetFqn s.p.directory projectNotesFile
  let (ok, fs) := s.g.fs.creat f
  if ¬ ok then true
  else
    match s.p.notes with
    | none => !(fs.close f).1
    | some notes =>
      let (ok, fs) := if notes = [] then (true, fs) else fs.write f notes
      !ok || !(fs.close f).1

/-- The client reports that it has saved a data set, and its store cannot be written. -/
def storeFails (s : Session) (c : Client) (wasSuccessful : Bool) : Bool :=
  wasSuccessful && c.taskType = .saveDataSet &&
    c.store.any (fun st => !(storeWrite st s.g.fs).1)

namespace Server

/-- A write of a save of project `a` fails when an input is handled. -/
def writeFails (s : Server) (a : Addr) (i : Input) : Bool :=
  match s.reporting i with
  | some (b, t, c, ok) => b = a && (storeFails t c ok || !reportWritable t c ok)
  | none =>
    s.BeginsSave a i && (notesFail (projectSaveAsk (s.session a)) || !saveWritable (s.session a))

/-- The input belongs to a save of project `a`. -/
def InSave (s : Server) (a : Addr) (i : Input) : Prop :=
  s.BeginsSave a i ∨ a ∈ s.loaded ∧ (s.project a).taskType = .save

instance (s : Server) (a : Addr) (i : Input) : Decidable (s.InSave a i) :=
  inferInstanceAs (Decidable (_ ∨ _ ∧ _))

/-- With this input, a write of the last save of project `a` has failed; the second component says
whether one had before. -/
def saveFailed (a : Addr) (p : Server × Bool) (i : Input) : Bool :=
  (if p.1.BeginsSave a i then false else p.2) || p.1.writeFails a i

/-- A step of the daemon that keeps in mind whether a write of the last save of project `a` has
failed. -/
def watchSave (a : Addr) (p : Server × Bool) (i : Input) : Option (Server × Bool) :=
  (p.1.step i).map (fun s => (s, saveFailed a p i))

/-- If a write of a save has failed, a step of this save does not announce that the project is
saved, and the project still counts as modified if it did. -/
def FailureTold (a : Addr) (p : Server × Bool) (i : Input) (p' : Server × Bool) : Prop :=
  p.1.InSave a i → p'.2 = true →
    (∀ name, .projectSaved a name ∉ p.1.news p'.1) ∧
      ((p.1.project a).modifiedStatus = true → (p'.1.project a).modifiedStatus = true)

/-- If a write of a save has failed, the step does not complete the save. It may complete it as a
load, if the project does not count as modified. -/
def LeavesOpen (a : Addr) (p : Server × Bool) (i : Input) (_ : Server × Bool) : Prop :=
  p.1.InSave a i → saveFailed a p i = true →
    ¬ p.1.Announces a i ∧ ¬ ((p.1.project a).modifiedStatus = true ∧ p.1.AnnouncesLoad a i)

end Server

/-! ## Announcements -/

section move

variable {a : Addr} {v v' : View} {act : Act} {evs : List Event}

/-- A move that announces a save is the last report of one, or its beginning. -/
theorem Move.of_projectSaved (h : Move a v act evs v') {name : CStr}
    (hm : .projectSaved a name ∈ evs) :
    (∃ c ok written, act = .complete c ok written ∧ v.pending = 1 ∧ c.taskType.isSave = true) ∨
      ∃ asked written, act = .save asked written ∧ v.task = .idle := by
  cases h with
  | sent hc hpid hne he => cases he <;> simp at hm
  | stateless hc =>
      have hcount := projectSaved_mem_countEvents (by simpa using hm)
      exact absurd hcount.2 (by decide)
  | failed hc hp htype =>
      have hcount := projectSaved_mem_countEvents (by simpa using hm)
      exact Or.inl ⟨_, _, _, rfl, hcount⟩
  | saved hc hp htype =>
      have hcount := projectSaved_mem_countEvents (by simpa using hm)
      exact Or.inl ⟨_, _, _, rfl, hcount⟩
  | restored hc hp htype =>
      have hcount := projectSaved_mem_countEvents (by simpa [launchEvents] using hm)
      exact Or.inl ⟨_, _, _, rfl, hcount⟩
  | skipped htask | asked htask => exact Or.inr ⟨_, _, rfl, htask⟩
  | restore => simp [launchEvents] at hm
  | _ => simp at hm

/-- The last report of a save announces it. -/
theorem Move.projectSaved_mem {c : Job} {ok written : Bool}
    (h : Move a v (.complete c ok written) evs v') (hpending : v.pending = 1)
    (htype : c.taskType.isSave = true) : ∃ name, .projectSaved a name ∈ evs := by
  have hfinish : ∀ pname w m,
      .projectSaved a pname ∈ v.countEvents a pname w m c.taskType := by
    intro pname w m
    rw [View.countEvents_of_eq hpending]
    cases hty : c.taskType with
    | saveDataSet | saveFile => simp [finishEvents]
    | _ =>
        rw [hty] at htype
        exact absurd htype (by decide)
  cases h with
  | cleared hc hp hunknown =>
      rw [hunknown] at htype
      exact absurd htype (by decide)
  | failed => exact ⟨_, List.mem_cons_of_mem _ (hfinish _ _ _)⟩
  | saved => exact ⟨_, List.mem_cons_of_mem _ (hfinish _ _ _)⟩
  | restored => exact ⟨_, List.mem_cons_of_mem _ (List.mem_append_right _ (hfinish _ _ _))⟩

end move

namespace Server

variable {s s' : Server} {a : Addr} {i : Input}

theorem Answers.news (h : s.Answers s' i) : ∃ es, s'.g.log = s.g.log ++ es := by
  rcases h with hun | ⟨b, act, hmove, -⟩
  · exact ⟨[], by rw [hun.log, List.append_nil]⟩
  · obtain ⟨evs, -, es, hlog, -⟩ := hmove.move
    exact ⟨es, hlog⟩

theorem mem_news_of_logged {evs : List Event} {e : Event} (h : Logged a s.g s'.g evs)
    (he : e.isTask = true) : e ∈ s.news s' ↔ e ∈ evs := by
  obtain ⟨es, hlog, -, rfl⟩ := h
  rw [news_of_log hlog, List.mem_filter]
  exact ⟨fun hm => ⟨hm, he⟩, fun hm => hm.1⟩

/-- The beginning of a save announces nothing. -/
theorem projectSaveStart_silent (t : Session) (name : CStr) :
    ∃ evs, t.Steps (projectSaveStart t) evs ∧ .projectSaved t.p.addr name ∉ evs := by
  by_cases hpend : ∃ c ∈ t.p.clients, c.pendingTask ≠ 0
  · exact ⟨_, (projectSaveStart_skipped true hpend).2.2.2, by simp [beginEvent]⟩
  · have hnone : ∀ c ∈ t.p.clients, c.pendingTask = 0 := by simpa using hpend
    obtain ⟨task, -, -, -, -, hsteps⟩ := projectSaveStart_asked true hnone
    exact ⟨_, hsteps, by simp [beginEvent, askEvents]⟩

/-- Saving a project announces it if there is nothing to wait for. -/
theorem projectSave_news (hw : s.Wf) (hbegins : s.BeginsSave a i) :
    (∃ name, .projectSaved a name ∈ s.news (s.projectSave a)) ↔ (s.session a).NothingToSave := by
  have haddr : (s.session a).p.addr = a := hw.addr a
  have hg : (s.projectSave a).g = (Lash.projectSave (s.session a)).g := by
    unfold projectSave
    dsimp only
    split <;> rfl
  have hsave : Lash.projectSave (s.session a) =
      if (projectSaveStart (s.session a)).p.clientTasksTotal = 0 then
        projectClientsSaveComplete (projectSaveStart (s.session a))
      else projectSaveStart (s.session a) := by
    unfold Lash.projectSave
    rw [if_neg (not_not.mpr (show (s.session a).p.taskType = .idle from hbegins.2))]
  rw [← projectSaveStart_total]
  constructor
  · rintro ⟨name, hmem⟩
    by_contra hne
    rw [if_neg hne] at hsave
    obtain ⟨evs, hsteps, hnot⟩ := projectSaveStart_silent (s.session a) name
    have hlog := hsteps.logged
    rw [← hsave, ← hg, haddr] at hlog
    rw [haddr] at hnot
    exact hnot ((mem_news_of_logged hlog rfl).mp hmem)
  · intro hzero
    rw [if_pos hzero] at hsave
    obtain ⟨evs, hsteps, -⟩ := projectSaveStart_silent (s.session a) []
    obtain ⟨m, hcomplete⟩ := projectClientsSaveComplete_steps (projectSaveStart (s.session a))
    have hlog := (hsteps.trans hcomplete).logged
    rw [← hsave, ← hg, hsteps.addr, haddr] at hlog
    refine ⟨(projectSaveStart (s.session a)).p.name, ?_⟩
    rw [mem_news_of_logged hlog rfl]
    simp [finishEvents]

/-- **A step announces that project `a` is saved** exactly if it completes a save. -/
theorem step_announces (hw : s.Wf) (h : s.step i = some s') :
    (∃ name, .projectSaved a name ∈ s.news s') ↔ s.Announces a i := by
  constructor
  · rintro ⟨name, hmem⟩
    rcases hw.step_answers h with hun | ⟨b, act, hmove, hexp⟩
    · have hnil : s.news s' = [] := news_of_log (by rw [hun.log, List.append_nil])
      rw [hnil] at hmem
      exact absurd hmem (by simp)
    · obtain ⟨evs, hm, hlog⟩ := hmove.move
      have hb : b = a := by
        obtain ⟨es, hes, hproject, -⟩ := hlog
        rw [news_of_log hes] at hmem
        exact (hproject _ hmem).symm
      subst hb
      rw [mem_news_of_logged hlog rfl] at hmem
      rcases hm.of_projectSaved hmem with ⟨c, ok, written, rfl, hpending, htype⟩ |
        ⟨asked, written, rfl, hidle⟩
      · obtain ⟨u, x, hrep, rfl, -⟩ := hexp
        exact Or.inr ⟨hpending, _, hrep, rfl, htype⟩
      · have hbegins : s.BeginsSave b i := ⟨hexp.1, hidle⟩
        rw [step_of_saving hexp.1] at h
        cases Option.some.inj h
        refine Or.inl ⟨hbegins, (projectSave_news hw hbegins).mp ⟨name, ?_⟩⟩
        rw [mem_news_of_logged hlog rfl]
        exact hmem
  · rintro (⟨hbegins, hnothing⟩ | ⟨hpending, ⟨b, u, c, ok⟩, hrep, rfl, htype⟩)
    · rw [step_of_saving hbegins.1] at h
      cases Option.some.inj h
      exact (projectSave_news hw hbegins).mpr hnothing
    · rw [step_of_reporting hw hrep] at h
      obtain ⟨v, hv, rfl⟩ := Option.map_eq_some_iff.mp h
      obtain ⟨hg, -, hp, haddr, hc, hpend⟩ := reporting_project hw hrep
      obtain ⟨evs, hm, hsteps⟩ := clientTaskCompleted_makes true hc hpend hv
      have hlog := hsteps.logged
      rw [hg] at hlog
      obtain ⟨name, hmem⟩ := hm.projectSaved_mem (hp.trans hpending) htype
      rw [haddr] at hlog hmem
      refine ⟨name, ?_⟩
      rw [@mem_news_of_logged s (s.setSession b v) b _ _ hlog rfl]
      exact hmem

/-! ## Runs -/

/-- One step tells of a failed write exactly if it does not complete the save. -/
theorem failureTold_iff (hw : s.Wf) {failed : Bool} {p' : Server × Bool}
    (h : watchSave a (s, failed) i = some p') :
    FailureTold a (s, failed) i p' ↔ LeavesOpen a (s, failed) i p' := by
  obtain ⟨s', hs, rfl⟩ := Option.map_eq_some_iff.mp h
  unfold FailureTold LeavesOpen
  refine forall_congr' fun hin => forall_congr' fun hfailed => ?_
  have hloaded : a ∈ s.loaded := by
    rcases hin with hbegins | hsave
    · exact saving_loaded hbegins.1
    · exact hsave.1
  have hann := step_announces (a := a) hw hs
  constructor
  · rintro ⟨hsilent, hkeeps⟩
    refine ⟨fun h => ?_, fun ⟨hm, h⟩ => ?_⟩
    · obtain ⟨name, hmem⟩ := hann.mpr h
      exact hsilent name hmem
    · have hcleared := step_announces_modified hw hs (Or.inr h)
      exact absurd (hkeeps hm) (by rw [hcleared]; decide)
  · rintro ⟨hsave, hload⟩
    exact ⟨fun name hmem => hsave (hann.mp ⟨name, hmem⟩),
      fun hm => step_clears hw hs hloaded hsave (fun h => hload ⟨hm, h⟩) hm⟩

/-- **A failed write is told of** throughout a run exactly if no step of it completes a save in
which a write has failed. -/
theorem failures_told_iff (fs : Fs) (dir : CStr) (a : Addr) (is : List Input) :
    Runs.Throughout (watchSave a) (FailureTold a) (start fs dir, false) is ↔
      Runs.Throughout (watchSave a) (LeavesOpen a) (start fs dir, false) is := by
  refine Runs.throughout_congr (I := fun p => p.1.Wf) ?_ ?_ (start_starting fs dir).wf is
  · rintro p i p' hw hp -
    obtain ⟨s', hs, rfl⟩ := Option.map_eq_some_iff.mp hp
    exact (hw.step_answers hs).wf hw
  · rintro ⟨s, failed⟩ i p' hw hp
    exact failureTold_iff hw hp

/-- The disk is full: a project with one stateless client is saved, the info file cannot be written,
and the save is announced. -/
theorem failure_not_told :
    ¬ Runs.Throughout (watchSave 1) (FailureTold 1) (start emptyDisk (cstr "/p"), false)
      ([.connect (cstr ":1") 5 (cstr "synth") 0 [] [cstr "synth"] 1,
        .outside { emptyDisk with faults := List.replicate 20 (some 0) } []] ++
          [.projectSave (cstr "New Project")]) := by
  intro htold
  have hrun : ([.connect (cstr ":1") 5 (cstr "synth") 0 [] [cstr "synth"] 1,
      .outside { emptyDisk with faults := List.replicate 20 (some 0) } []].foldlM (watchSave 1)
        (start emptyDisk (cstr "/p"), false)).any (fun p =>
      p.1.InSave 1 (.projectSave (cstr "New Project")) ∧
      (watchSave 1 p (.projectSave (cstr "New Project"))).any (fun p' => p'.2 = true ∧
        .projectSaved 1 (cstr "New Project") ∈ p.1.news p'.1)) = true := by
    decide +kernel
  obtain ⟨p, hp, hlast⟩ := (Option.any_eq_true _ _).mp hrun
  obtain ⟨hin, hstep⟩ := of_decide_eq_true hlast
  obtain ⟨p', hp', hbad⟩ := (Option.any_eq_true _ _).mp hstep
  obtain ⟨hfailed, hmem⟩ := of_decide_eq_true hbad
  exact (htold.last hp hp' hin hfailed).1 _ hmem

end Server

end Lash
