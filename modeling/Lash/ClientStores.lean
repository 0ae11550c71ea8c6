import Lash.DataPaths

/-!
# The stores of the data-set clients

A client with `LASH_Config_Data_Set` gets a store when it joins a project, and whoever handles a
`CommitDataSet` call or the end of a save counts on it. There are two ways to lose it: a client
that is back and has nothing to load keeps the store of before, which a client from a project file
does not have, and `project_move` closes all stores before a `rename` that may fail. As long as
neither happens the data-set clients have their stores where the project wants them
(`stores_stay_open_iff`).
-/

namespace Lash

/-! ## Stores -/

/-- The data-set clients among some clients have stores in the config directories of a project. -/
def Project.Stores (p : Project) (l : List Client) : Prop :=
  ∀ c ∈ l, configDataSet c.flags → c.store.map Store.dir = some (projectGetClientConfigDir p c)

namespace Project.Stores

variable {p p' : Project} {l l' : List Client} {c : Client}

theorem nil (p : Project) : p.Stores [] := fun _ hc => absurd hc List.not_mem_nil

theorem cons (h : p.Stores l)
    (hc : configDataSet c.flags → c.store.map Store.dir = some (projectGetClientConfigDir p c)) :
    p.Stores (c :: l) := by
  intro e he
  rcases List.mem_cons.mp he with rfl | he
  · exact hc
  · exact h e he

theorem configDir_congr {c' : Client} (hdir : p'.directory = p.directory)
    (hid : c'.idStr = c.idStr) :
    projectGetClientConfigDir p' c' = projectGetClientConfigDir p c := by
  unfold projectGetClientConfigDir
  rw [projectGetClientDir_congr hdir hid]

/-- Clients that stay in their places keep their stores. -/
theorem of_places (h : p.Stores l) (hdir : p'.directory = p.directory) (hl : PlacesFrom l l') :
    p'.Stores l' := by
  intro e he hset
  obtain ⟨c, hc, hsame⟩ := hl e he
  rw [hsame.store, configDir_congr hdir hsame.idStr]
  apply h c hc
  rw [← hsame.dataSet]
  exact hset

end Project.Stores

/-! ## Tasks -/

/-- A client that is at saving a data set is a data-set client. -/
def Job.TaskFits (c : Job) : Prop := c.taskType = .saveDataSet → configDataSet c.flags

/-- Only data-set clients save data sets. -/
structure View.TasksFit (v : View) : Prop where
  live : ∀ c ∈ v.live, c.TaskFits
  lost : ∀ c ∈ v.lost, c.TaskFits

theorem Job.TaskFits.of_ne {c : Job} (h : c.taskType ≠ .saveDataSet) : c.TaskFits :=
  fun he => absurd he h

theorem configDataSet_of_ask {f : Flags} (hstate : hasInternalState f = true)
    (hfile : configFile f = false) : configDataSet f = true := by
  unfold hasInternalState configFile configDataSet at *
  rw [bne_eq_false_iff_eq] at hfile
  rw [BitVec.and_or_distrib_left, hfile] at hstate
  simpa using hstate

theorem Job.TaskFits.ask {c : Job} (h : c.TaskFits) (task : Nat) : (c.ask task).TaskFits := by
  unfold Job.ask
  split
  · next hstate =>
      intro htype
      unfold Job.give at htype ⊢
      dsimp only at htype ⊢
      split at htype
      · exact absurd htype (by decide)
      · next hfile => exact configDataSet_of_ask hstate (Bool.eq_false_iff.mpr hfile)
  · exact h

namespace View.TasksFit

variable {v : View} {c : Job}

theorem put (h : v.TasksFit) (hc : c.TaskFits) : (v.put c).TasksFit := by
  refine ⟨?_, h.lost⟩
  intro d hd
  rcases Keyed.mem_put.mp hd with ⟨rfl, -⟩ | ⟨hd, -⟩
  · exact hc
  · exact h.live d hd

theorem revive (h : v.TasksFit) (hc : c.TaskFits) : (v.revive c).TasksFit := by
  refine ⟨?_, fun d hd => h.lost d (Keyed.mem_of_mem_del hd)⟩
  intro d hd
  rcases List.mem_cons.mp hd with rfl | hd
  · exact hc
  · exact h.live d hd

theorem count (h : v.TasksFit) : v.count.TasksFit := by
  refine ⟨?_, ?_⟩
  · rw [live_count]
    exact h.live
  · rw [lost_count]
    exact h.lost

end View.TasksFit

theorem Job.done_fits (c : Job) (flags : Flags) : (c.done flags).TaskFits :=
  .of_ne (by simp [Job.done])

theorem Job.TaskFits.reconnect {c : Job} (h : c.TaskFits) (name : CStr) :
    (c.reconnect name).TaskFits := by
  intro htype
  show configDataSet (c.flags ||| flagRestored) = true
  rw [(flags_restored c.flags).2.1]
  exact h htype

/-- No move gives a client a task that is not for it. -/
theorem Move.tasksFit {a : Addr} {v v' : View} {act : Act} {evs : List Event}
    (h : Move a v act evs v') (hfit : v.TasksFit) : v'.TasksFit := by
  have hidle : ∀ {c : Job}, c.Idle → c.TaskFits := by
    intro c hc
    apply Job.TaskFits.of_ne
    rw [hc.taskType]
    decide
  cases h with
  | quiet => exact hfit
  | join fresh idle =>
      refine ⟨?_, hfit.lost⟩
      intro c hc
      rcases List.mem_cons.mp hc with rfl | hc
      · exact hidle idle
      · exact hfit.live c hc
  | @leave c hc =>
      refine ⟨fun d hd => hfit.live d (Keyed.mem_of_mem_del hd), ?_⟩
      intro d hd
      rcases List.mem_cons.mp hd with rfl | hd
      · exact hfit.live c hc
      · exact hfit.lost d hd
  | sent hc hpid htask he =>
      apply hfit.revive
      cases he <;> exact .of_ne (by simp [Job.give])
  | silent hc => exact hfit.revive ((hfit.lost _ hc).reconnect _)
  | stateless hc => exact (hfit.revive (.of_ne (by simp))).count
  | cleared hc => exact hfit.put (Job.done_fits _ _)
  | failed hc => exact (hfit.put (Job.done_fits _ _)).count
  | saved hc => exact (hfit.put (Job.done_fits _ _)).count
  | @restored c lost written modified pname hc hp htype hlost =>
      apply View.TasksFit.count
      refine View.TasksFit.put ⟨hfit.live, ?_⟩ (Job.done_fits _ _)
      intro d hd
      obtain ⟨e, he, pid, rfl⟩ := exists_of_forall₂ hlost hd
      exact hfit.lost e he
  | skipped => exact ⟨hfit.live, fun d hd => absurd hd List.not_mem_nil⟩
  | asked =>
      refine ⟨?_, fun d hd => absurd hd List.not_mem_nil⟩
      intro d hd
      obtain ⟨c, hc, rfl⟩ := List.mem_map.mp hd
      exact (hfit.live c hc).ask _
  | close => exact ⟨fun d hd => absurd hd List.not_mem_nil, fun d hd => absurd hd List.not_mem_nil⟩
  | restore hloaded hjobs hids hdist hlost =>
      refine ⟨hfit.live, ?_⟩
      intro d hd
      obtain ⟨e, he, pid, rfl⟩ := exists_of_forall₂ hlost hd
      have hfits : e.TaskFits := hidle (hids e he).1
      exact hfits
  | @launch c pid hc =>
      refine ⟨hfit.live, ?_⟩
      intro d hd
      rcases Keyed.mem_put.mp hd with ⟨rfl, -⟩ | ⟨hd, -⟩
      · exact hfit.lost c hc
      · exact hfit.lost d hd
  | @depend c id hc | @undepend c id hc =>
      apply hfit.put
      have hfits := hfit.live c hc
      exact hfits

theorem lashDbusError_ne {name name' : ErrorName} {parts parts' : List CStr}
    (h : name ≠ name' ∨ parts.flatten.take 1023 ≠ parts'.flatten.take 1023) :
    lashDbusError name parts ≠ lashDbusError name' parts' := by
  intro he
  injection he with hname hparts
  rcases h with h | h
  · exact h hname
  · exact h hparts

/-- `check_tasks` says nothing about stores. -/
theorem checkTasks_ne {method : String} {c : Client} {args : List Arg} {r : Reply}
    (h : Server.checkTasks method c args = .error r) (message : List CStr) :
    r ≠ lashDbusError .generic message := by
  unfold Server.checkTasks at h
  split at h
  · split_ifs at h
    · cases h
      exact lashDbusError_ne (Or.inl (by decide))
    · cases h
      exact lashDbusError_ne (Or.inl (by decide))
  · cases h
    exact lashDbusError_ne (Or.inl (by decide))

namespace Server

/-- Every data-set client of a loaded project has its store. -/
def StoresOpen (s : Server) : Prop := ∀ a ∈ s.loaded, (s.project a).Stores (s.project a).clients

/-- An input does not miss a store: nothing is written to a store that is not there, and no data-set
client is told that it has none. -/
structure FindsStores (s : Server) (i : Input) : Prop where
  written : ∀ a u c, s.reporting i = some (a, u, c, true) → c.taskType = .saveDataSet →
    c.store.isSome
  committed : ∀ sender args a c, i = .commitDataSet sender args →
    s.findClientByDbusName sender = some (a, c) → configDataSet c.flags → ∀ t r,
      s.handle i = some (t, r) → r ≠ lashDbusError .generic [cstr "Client's store pointer is NULL"]

/-- After a step the data-set clients have their stores, whatever comes next. -/
structure KeepsStores (s' : Server) : Prop where
  stores : s'.StoresOpen
  finds : ∀ i, s'.FindsStores i

/-- A data-set client is back without a data set to load and without its store in place, or a
project with a data-set client cannot be moved. -/
def MissesStore (s : Server) (i : Input) : Prop :=
  (∃ a c, s.resuming i = some (a, c) ∧ configDataSet c.flags ∧ loadsDataSet c.flags = false ∧
    c.store.map Store.dir ≠ some (projectGetClientConfigDir (s.project a) c)) ∨
  ∃ name path a, i = .projectMove name path ∧ s.findProjectByName name = some a ∧
    (s.session a).TriesMove path ∧ (s.session a).moveWorks path = false ∧
    ∃ c ∈ (s.project a).clients, configDataSet c.flags

variable {s s' : Server} {a : Addr} {i : Input}

theorem Wf.stores (hw : s.Wf) (h : s.StoresOpen) (a : Addr) :
    (s.project a).Stores (s.project a).clients := by
  by_cases ha : a ∈ s.loaded
  · exact h a ha
  · rw [(hw.unplaced ha).live]
    exact .nil _

/-- The data-set clients of one project keep their stores through a step that does not miss one. -/
theorem Placed.stores {p' : Project} (h : s.Placed a i p')
    (hp : (s.project a).Stores (s.project a).clients) (hi : ¬ s.MissesStore i) :
    p'.Stores p'.clients := by
  cases h with
  | same h => exact hp.of_places h.directory h.live
  | @joined i p p' c hsrc hdir hc hfrom hlosts =>
      have hold : p.Stores p.clients := by
        rcases hsrc with rfl | ⟨hnil, -⟩
        · exact hp
        · rw [hnil]
          exact .nil p
      exact (hold.cons hc.store).of_places hdir hfrom
  | @back i p' c d hback hc hdir hd hmem hfrom hlosts =>
      refine (hp.cons ?_).of_places hdir hfrom
      intro hset
      rw [hd.dataSet] at hset
      rw [hd.store, Project.Stores.configDir_congr rfl hd.idStr]
      split
      · rfl
      · next hloads =>
          by_contra hno
          exact hi (Or.inl ⟨a, c, hback, hset, Bool.eq_false_iff.mpr hloads, hno⟩)
  | left hc hdir hfrom hlosts => exact hp.of_places hdir hfrom
  | unplaced h =>
      rw [h.live]
      exact .nil p'
  | @unstored name path p' hname ha htries hfails hp' =>
      subst hp'
      intro c hc hset
      obtain ⟨e, he, rfl⟩ := List.mem_map.mp hc
      exact absurd (Or.inr ⟨name, path, a, rfl, hname, htries, hfails, e, he, hset⟩) hi
  | @moved name path p' hname ha htries hworks hdir hlosts hfrom =>
      intro c hc _
      obtain ⟨e, he, st, hst, rfl⟩ := exists_of_forall₂ hfrom hc
      exact congrArg some hst

/-- A client that misses its store does so after the step. -/
theorem MissesStore.not_open (hm : s.MissesStore i) (hw : s.Wf) (h : s.step i = some s') :
    ¬ s'.StoresOpen := by
  intro hopen
  rcases hm with ⟨a, c, hres, hset, hloads, hno⟩ | ⟨name, path, a, rfl, hname, htries, hfails, c,
    hc, hset⟩
  · obtain ⟨ha, hc⟩ := resuming_mem hres
    cases i with
    | connect sender pid cls flags wd argv id =>
        rw [(step_of_resuming hres).2] at h
        obtain ⟨u, hu, rfl⟩ := Option.map_eq_some_iff.mp h
        obtain ⟨hdir, -, d, hd, ⟨e, he, hsame⟩, -⟩ := hw.resumed hc hu
        have hstore := hopen a ha
        rw [setSession_project_self] at hstore
        have hplace := hstore e he (by rw [hsame.dataSet, hd.dataSet]; exact hset)
        rw [hsame.store, hd.store, hloads, Project.Stores.configDir_congr hdir
          (hsame.idStr.trans hd.idStr)] at hplace
        exact hno hplace
    | _ => exact absurd hres (by simp [resuming])
  · have ha := findProjectByName_mem hname
    have hs : s.step (.projectMove name path) =
        some (s.setSession a (Lash.projectMove (s.session a) path)) := by
      simp only [step, handle, dbusProjectMove, hname, Option.map_some]
    rw [hs] at h
    rw [← Option.some.inj h] at hopen
    have hstore := hopen a ha
    rw [setSession_project_self] at hstore
    rcases projectMove_places (s.session a) path with ⟨hno, -⟩ | ⟨-, -, hp⟩ | ⟨-, hno, -⟩
    · exact hno htries
    · rw [hp] at hstore
      exact absurd (hstore _ (List.mem_map_of_mem hc) hset) (by simp)
    · rw [hfails] at hno
      exact absurd hno (by simp)

theorem StoresOpen.step_iff (hopen : s.StoresOpen) (hw : s.Wf) (h : s.step i = some s') :
    s'.StoresOpen ↔ ¬ s.MissesStore i := by
  constructor
  · intro hopen' hm
    exact hm.not_open hw h hopen'
  · intro hi a _
    exact (step_placed hw h a).stores (hw.stores hopen a) hi

/-- Where the data-set clients have their stores nobody misses one. -/
theorem StoresOpen.finds (hopen : s.StoresOpen) (hfit : ∀ a, (s.view a).TasksFit) (i : Input) :
    s.FindsStores i := by
  constructor
  · intro a u c hrep htype
    obtain ⟨ha, d, hd, -, hcase⟩ := reporting_cases hrep
    rcases hcase with ⟨rfl, rfl, -⟩ | ⟨-, -, elems, -, st, -, -, -, hst, -, rfl, rfl⟩
    · have hset := (hfit a).live c.job (List.mem_map_of_mem hd) htype
      have hstore := hopen a ha c hd hset
      cases hc : c.store with
      | none =>
          rw [hc] at hstore
          exact absurd hstore (by simp)
      | some st => rfl
    · rfl
  · intro sender args a c hi hfind hset t r hr
    subst hi
    obtain ⟨ha, hc, -⟩ := findClient_some hfind
    have hstore := hopen a ha c hc hset
    simp only [handle, dbusCommitDataSet, hfind] at hr
    split at hr
    · next r' hcheck =>
        obtain ⟨-, rfl⟩ := Prod.mk.inj (Option.some.inj hr)
        exact checkTasks_ne hcheck _
    · split at hr
      · next hnone =>
          rw [hnone] at hstore
          exact absurd hstore (by simp)
      · split at hr
        · obtain ⟨-, rfl⟩ := Prod.mk.inj (Option.some.inj hr)
          exact lashDbusError_ne (Or.inr (by decide))
        · obtain ⟨v, -, he⟩ := Option.map_eq_some_iff.mp hr
          obtain ⟨-, rfl⟩ := Prod.mk.inj he
          split
          · simp [lashDbusError]
          · exact lashDbusError_ne (Or.inr (by decide))
        · obtain ⟨-, rfl⟩ := Prod.mk.inj (Option.some.inj hr)
          exact lashDbusError_ne (Or.inl (by decide))

/-- **The data-set clients have their stores** throughout a run exactly if nobody misses a store in
it. -/
theorem stores_stay_open_iff (fs : Fs) (dir : CStr) (is : List Input) :
    Runs.Throughout step (fun _ _ s' => s'.KeepsStores) (start fs dir) is ↔
      Runs.Throughout step (fun s i _ => ¬ s.MissesStore i) (start fs dir) is := by
  have hstart := start_starting fs dir
  have hopen : (start fs dir).StoresOpen := by
    intro a ha
    rw [hstart.loaded] at ha
    exact absurd ha List.not_mem_nil
  have hfit : ∀ a, ((start fs dir).view a).TasksFit := by
    intro a
    rw [hstart.view]
    exact ⟨fun c hc => absurd hc List.not_mem_nil, fun c hc => absurd hc List.not_mem_nil⟩
  refine Runs.throughout_congr (I := fun s => s.Wf ∧ s.StoresOpen ∧ ∀ a, (s.view a).TasksFit) ?_ ?_
    ⟨hstart.wf, hopen, hfit⟩ is
  · rintro s i s' ⟨hw, -, hfit⟩ hs hkeeps
    have hans := hw.step_answers hs
    refine ⟨hans.wf hw, hkeeps.stores, ?_⟩
    intro a
    obtain ⟨act, evs, hmove, -⟩ := hans.move a
    exact hmove.tasksFit (hfit a)
  · rintro s i s' ⟨hw, hopen, hfit⟩ hs
    rw [← hopen.step_iff hw hs]
    constructor
    · exact KeepsStores.stores
    · intro hopen'
      refine ⟨hopen', hopen'.finds ?_⟩
      intro a
      obtain ⟨act, evs, hmove, -⟩ := (hw.step_answers hs).move a
      exact hmove.tasksFit (hfit a)

/-- A data-set client joins a project and the project cannot be moved: its store is gone. -/
theorem store_lost_by_move :
    ¬ Runs.Throughout step (fun _ _ s' => s'.KeepsStores) (start emptyDisk (cstr "/p"))
      ([.connect (cstr ":1") 5 (cstr "synth") flagConfigDataSet [] [cstr "synth"] 1] ++
        [.projectMove (cstr "New Project") (cstr "/nowhere/q")]) := by
  intro hkeeps
  have hrun :
      ([.connect (cstr ":1") 5 (cstr "synth") flagConfigDataSet [] [cstr "synth"] 1].foldlM step
      (start emptyDisk (cstr "/p"))).any (fun s =>
        (s.step (.projectMove (cstr "New Project") (cstr "/nowhere/q"))).any (fun s' =>
          1 ∈ s'.loaded ∧ (s'.project 1).clients.any (fun c =>
            configDataSet c.flags && c.store.isNone))) = true := by
    decide +kernel
  obtain ⟨s, hs, hlast⟩ := (Option.any_eq_true _ _).mp hrun
  obtain ⟨s', hs', hbad⟩ := (Option.any_eq_true _ _).mp hlast
  obtain ⟨ha, hany⟩ := of_decide_eq_true hbad
  obtain ⟨c, hc, hboth⟩ := List.any_eq_true.mp hany
  obtain ⟨hset, hnone⟩ := Bool.and_eq_true_iff.mp hboth
  have hstore := (hkeeps.last hs hs').stores 1 ha c hc hset
  rw [Option.isNone_iff_eq_none.mp hnone] at hstore
  exact absurd hstore (by simp)

end Server

end Lash
