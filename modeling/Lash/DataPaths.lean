import Lash.Places
import Lash.FailedSave

/-!
# The data paths of the clients

A client gets its data path when it joins a project and keeps it: `project_move` changes the
directory of the project and opens the stores in the new place, but leaves the data paths alone.
So the data paths are below the directory of their project exactly as long as no project with a
client that has one is moved (`data_paths_follow_iff`).
-/

namespace Lash

/-! ## Data paths -/

/-- The data paths of some clients are the ones that a project has for them. -/
def Project.Follows (p : Project) (l : List Client) : Prop :=
  ∀ c ∈ l, ∀ d, c.dataPath = some d → d = projectGetClientDir p c

/-- The data paths of a project's clients are below its directory. -/
def Project.PathsFollow (p : Project) : Prop := p.Follows (p.clients ++ p.lostClients)

/-- What `project_clear_lost_clients` deletes are the directories that the project has for its lost
clients. -/
def Project.ClearsInside (p : Project) : Prop :=
  ∀ s : Session, s.p.lostClients = p.lostClients → s.p.directory = p.directory →
    (projectClearLostClients s).g.fs =
      ((p.lostClients.filter (fun c => c.dataPath.isSome)).map (projectGetClientDir p)).foldl
        (fun fs d => if fs.lashDirExists d then fs.lashRemoveDir d else fs) s.g.fs

theorem Project.pathsFollow_iff {p : Project} :
    p.PathsFollow ↔ p.Follows p.clients ∧ p.Follows p.lostClients := by
  unfold PathsFollow Follows
  simp only [List.mem_append, or_imp, forall_and]

theorem Project.Follows.nil (p : Project) : p.Follows [] := fun _ hc => absurd hc List.not_mem_nil

theorem Project.PathsFollow.clearsInside {p : Project} (h : p.PathsFollow) : p.ClearsInside := by
  intro s hlost _
  have hfollow : p.Follows p.lostClients := (pathsFollow_iff.mp h).2
  unfold projectClearLostClients Session.setFs
  dsimp only
  rw [hlost]
  generalize s.g.fs = fs
  generalize p.lostClients = l at hfollow
  induction l generalizing fs with
  | nil => rfl
  | cons c l ih =>
      have hrest := fun fs => ih fs fun e he => hfollow e (List.mem_cons_of_mem _ he)
      rw [List.foldl_cons, hrest]
      cases hpath : c.dataPath with
      | none => rw [List.filter_cons_of_neg (by simp [hpath])]
      | some d =>
          rw [List.filter_cons_of_pos (by simp [hpath]), List.map_cons, List.foldl_cons,
            ← hfollow c List.mem_cons_self d hpath]

theorem projectGetClientDir_congr {p p' : Project} {c c' : Client}
    (hdir : p'.directory = p.directory)
    (hid : c'.idStr = c.idStr) : projectGetClientDir p' c' = projectGetClientDir p c := by
  unfold projectGetClientDir
  rw [hdir, hid]

/-- Another directory has other client directories. -/
theorem projectGetClientDir_inj {p p' : Project} {c c' : Client} (hid : c'.idStr = c.idStr)
    (h : projectGetClientDir p' c' = projectGetClientDir p c) : p'.directory = p.directory := by
  unfold projectGetClientDir lashGetFqn at h
  rw [hid] at h
  exact List.append_cancel_right (List.append_cancel_right h)

/-- Clients that stay in their places keep following. -/
theorem Project.Follows.of_places {p p' : Project} {l l' : List Client} (h : p.Follows l)
    (hdir : p'.directory = p.directory) (hl : PlacesFrom l l') : p'.Follows l' := by
  intro e he d hd
  obtain ⟨c, hc, hsame⟩ := hl e he
  rw [projectGetClientDir_congr hdir hsame.idStr]
  exact h c hc d (hsame.dataPath.symm.trans hd)

theorem Project.Follows.cons {p : Project} {c : Client} {l : List Client} (h : p.Follows l)
    (hc : ∀ d, c.dataPath = some d → d = projectGetClientDir p c) : p.Follows (c :: l) := by
  intro e he
  rcases List.mem_cons.mp he with rfl | he
  · exact hc
  · exact h e he

/-! ## Load calls -/

variable {s t : Session} {c d : Client}

theorem resumeLoad_path {stateless : Bool} (h : resumeLoad s c = some (t, d, stateless)) :
    ∃ es, t.g.log = s.g.log ++ es ∧ ∀ a x dest task path,
      .load a x dest task path ∈ es → x = c.addr ∧ path = c.dataPath.getD [] := by
  have hnothing : t.g.log = s.g.log → ∃ es, t.g.log = s.g.log ++ es ∧ ∀ a x dest task path,
      .load a x dest task path ∈ es → x = c.addr ∧ path = c.dataPath.getD [] := by
    intro hlog
    exact ⟨[], by rw [hlog, List.append_nil], by simp⟩
  unfold resumeLoad at h
  split_ifs at h
  · simp only [Option.some.injEq, Prod.mk.injEq, projectLoadFile] at h
    obtain ⟨rfl, -, -⟩ := h
    refine ⟨[_], rfl, ?_⟩
    intro a x dest task path hmem
    cases List.mem_singleton.mp hmem
    exact ⟨rfl, rfl⟩
  · obtain ⟨⟨u, e⟩, hload, he⟩ := Option.map_eq_some_iff.mp h
    simp only [Prod.mk.injEq] at he
    obtain ⟨rfl, -, -⟩ := he
    obtain ⟨-, hcase⟩ := projectLoadDataSet_spec hload
    rcases hcase with ⟨-, task, configs, -, -, hsteps⟩ | ⟨-, -, hsteps⟩
    · obtain ⟨es, hlog, -, htasks⟩ := hsteps.logged
      refine ⟨es, hlog, ?_⟩
      intro a x dest task path hmem
      have hload : Event.load a x dest task path ∈ es.filter Event.isTask :=
        List.mem_filter.mpr ⟨hmem, rfl⟩
      rw [htasks] at hload
      simp at hload
    · obtain ⟨es, hlog, -, htasks⟩ := hsteps.logged
      refine ⟨es, hlog, ?_⟩
      intro a x dest task path hmem
      have hload : Event.load a x dest task path ∈ es.filter Event.isTask :=
        List.mem_filter.mpr ⟨hmem, rfl⟩
      rw [htasks] at hload
      simp at hload
  · simp only [Option.some.injEq, Prod.mk.injEq] at h
    exact hnothing (by rw [h.1])
  · simp only [Option.some.injEq, Prod.mk.injEq] at h
    exact hnothing (by rw [h.1])

/-- A client that is back is asked to load from its data path. -/
theorem clientResumeProject_path (h : clientResumeProject s c = some t)
    (hsent : resumeAnswer s c = .sent) :
    ∃ es, t.g.log = s.g.log ++ es ∧ ∀ a x dest task path, .load a x dest task path ∈ es →
      x = c.addr ∧ path = if c.dataPath.getD [] = [] then projectGetClientDir s.p c
        else c.dataPath.getD [] := by
  have hlog : (resumePrepare s c).1.g.log = s.g.log ++ [.resumed s.p.addr c.addr] := rfl
  have hsame : (resumePrepare s c).2 = if c.dataPath.getD [] = [] then
      { c with dataPath := some (projectGetClientDir s.p c) } else c := rfl
  unfold resumeAnswer at hsent
  unfold clientResumeProject at h
  generalize resumePrepare s c = r at h hlog hsame hsent
  obtain ⟨u, e⟩ := r
  dsimp only at h hlog hsame hsent
  have he : e.addr = c.addr ∧ e.dataPath.getD [] = if c.dataPath.getD [] = [] then
      projectGetClientDir s.p c else c.dataPath.getD [] := by
    rw [hsame]
    split <;> exact ⟨rfl, rfl⟩
  split at h
  · exact absurd h (by simp)
  · next v x stateless hload =>
      obtain ⟨es, hes, hpaths⟩ := resumeLoad_path hload
      have hanswer := (resumeLoad_spec hload).2
      rw [hsent] at hanswer
      split at h
      · exact absurd h (by simp)
      · next y _ =>
          rw [hanswer.1] at h
          rw [← Option.some.inj h]
          refine ⟨.resumed s.p.addr c.addr ::
            (es ++ [.clientAppeared v.p.addr y.idStr v.p.name (y.name.getD [])]), ?_, ?_⟩
          · show v.g.log ++ [_] = _
            rw [hes, hlog, List.append_assoc, List.append_assoc]
            rfl
          · intro a z dest task path hmem
            have hmem : .load a z dest task path ∈ es := by simpa using hmem
            rw [← he.1, ← he.2]
            exact hpaths a z dest task path hmem

theorem load_not_mem_countEvents {v : View} {a b : Addr} {name dest path : CStr}
    {written modified : Bool} {type : EventType} {x : Addr} {task : Nat} :
    .load b x dest task path ∉ v.countEvents a name written modified type := by
  unfold View.countEvents finishEvents
  cases type <;> cases written <;> cases modified <;> simp

/-- A move that asks a client to load is the return of a client. -/
theorem Move.of_load {a : Addr} {v v' : View} {act : Act} {evs : List Event}
    (h : Move a v act evs v') {x : Addr} {dest path : CStr} {task : Nat}
    (hm : .load a x dest task path ∈ evs) : ∃ j, act = .resume j .sent := by
  cases h with
  | sent => exact ⟨_, rfl⟩
  | stateless | failed | saved =>
      exact absurd (by simpa using hm) load_not_mem_countEvents
  | restored =>
      exact absurd (by simpa [launchEvents] using hm) load_not_mem_countEvents
  | skipped _ _ _ hevs =>
      rcases hevs with rfl | ⟨name, modified, rfl⟩
      · simp [beginEvent] at hm
      · simp [beginEvent, finishEvents] at hm
  | asked _ _ _ hevs =>
      rcases hevs with ⟨-, rfl⟩ | ⟨-, modified, rfl⟩
      · simp [beginEvent, askEvents] at hm
      · simp [beginEvent, askEvents, finishEvents] at hm
  | restore => simp [launchEvents] at hm
  | _ => simp at hm

/-! ## Runs -/

namespace Server

/-- The data paths of all clients are below the directories of their projects. -/
def PathsFollow (s : Server) : Prop := ∀ a ∈ s.loaded, (s.project a).PathsFollow

/-- The clients that a step asks to load are sent to the directories their project has for them. -/
def LoadsInside (s s' : Server) : Prop :=
  ∀ a x dest task path, .load a x dest task path ∈ s.news s' →
    ∃ c ∈ (s'.project a).clients, c.addr = x ∧ path = projectGetClientDir (s'.project a) c

/-- The data paths follow the projects through a step, and so do the directories that are used. -/
structure FollowsProjects (s : Server) (i : Input) (s' : Server) : Prop where
  paths : s'.PathsFollow
  loads : s.LoadsInside s'
  clears : ∀ a, s.saving i = some a → (s.project a).ClearsInside

/-- A loaded project is moved, and a client of it has a data path. -/
def MovesPaths (s : Server) (i : Input) : Prop :=
  ∃ name path a, i = .projectMove name path ∧ s.findProjectByName name = some a ∧
    (s.session a).TriesMove path ∧ (s.session a).moveWorks path = true ∧
    ∃ c ∈ (s.project a).clients ++ (s.project a).lostClients, c.dataPath.isSome

variable {s s' : Server} {a : Addr} {i : Input}

theorem Wf.pathsFollow (hw : s.Wf) (h : s.PathsFollow) (a : Addr) : (s.project a).PathsFollow := by
  by_cases ha : a ∈ s.loaded
  · exact h a ha
  · have hp := hw.unplaced ha
    intro c hc d hd
    rw [hp.live, List.nil_append] at hc
    rw [(hp.lost c hc).1] at hd
    exact absurd hd (by simp)

/-- The data paths of one project follow it through a step, unless it is moved. -/
theorem Placed.pathsFollow {p' : Project} (h : s.Placed a i p') (hp : (s.project a).PathsFollow)
    (hi : ¬ s.MovesPaths i) : p'.PathsFollow := by
  obtain ⟨hlive, hlost⟩ := Project.pathsFollow_iff.mp hp
  rw [Project.pathsFollow_iff]
  cases h with
  | same h => exact ⟨hlive.of_places h.directory h.live, hlost.of_places h.directory h.lost⟩
  | @joined i p p' c hsrc hdir hc hfrom hlosts =>
      have hold : p.Follows p.clients ∧ p.Follows p.lostClients := by
        rcases hsrc with rfl | ⟨hnil, hnil'⟩
        · exact ⟨hlive, hlost⟩
        · rw [hnil, hnil']
          exact ⟨.nil p, .nil p⟩
      refine ⟨(hold.1.cons ?_).of_places hdir hfrom, ?_⟩
      · intro d hd
        rw [hc.dataPath] at hd
        exact (Option.some.inj hd).symm
      · rw [hlosts]
        exact hold.2.of_places hdir (.refl _)
  | @back i p' c x _ hc hdir hback hmem hfrom hlosts =>
      refine ⟨(hlive.cons ?_).of_places hdir hfrom, hlost.of_places hdir hlosts⟩
      intro d hd
      rw [projectGetClientDir_congr rfl hback.idStr]
      rw [hback.dataPath] at hd
      split at hd
      · exact (Option.some.inj hd).symm
      · exact hlost c hc d hd
  | left hc hdir hfrom hlosts =>
      exact ⟨hlive.of_places hdir hfrom, (hlost.cons (hlive _ hc)).of_places hdir hlosts⟩
  | unplaced h =>
      refine ⟨by rw [h.live]; exact .nil _, ?_⟩
      intro c hc d hd
      rw [(h.lost c hc).1] at hd
      exact absurd hd (by simp)
  | unstored _ _ _ _ hp' =>
      subst hp'
      refine ⟨?_, hlost⟩
      intro c hc d hd
      obtain ⟨e, he, rfl⟩ := List.mem_map.mp hc
      exact hlive e he d hd
  | @moved name path p' hname ha htries hworks hdir hlosts hfrom =>
      -- nobody has a data path, so there is nothing to follow
      have hnone : ∀ c ∈ (s.project a).clients ++ (s.project a).lostClients, c.dataPath = none := by
        intro c hc
        by_contra hsome
        exact hi ⟨name, path, a, rfl, hname, htries, hworks, c, hc,
          Option.isSome_iff_ne_none.mpr hsome⟩
      constructor
      · intro c hc d hd
        obtain ⟨e, he, st, -, rfl⟩ := exists_of_forall₂ hfrom hc
        rw [show e.dataPath = none from hnone e (List.mem_append_left _ he)] at hd
        exact absurd hd (by simp)
      · intro c hc d hd
        rw [hlosts] at hc
        rw [hnone c (List.mem_append_right _ hc)] at hd
        exact absurd hd (by simp)

/-- A client with a data path does not follow a project that is moved. -/
theorem MovesPaths.not_follows (hm : s.MovesPaths i) (hp : s.PathsFollow)
    (h : s.step i = some s') : ¬ s'.PathsFollow := by
  intro hp'
  obtain ⟨name, path, a, rfl, hname, htries, hworks, c, hc, hsome⟩ := hm
  have ha := findProjectByName_mem hname
  have hs : s' = s.setSession a (Lash.projectMove (s.session a) path) := by
    have hstep : s.step (.projectMove name path) =
        some (s.setSession a (Lash.projectMove (s.session a) path)) := by
      simp only [step, handle, dbusProjectMove, hname, Option.map_some]
    rw [hstep] at h
    exact (Option.some.inj h).symm
  have hq : (Lash.projectMove (s.session a) path).p.PathsFollow := by
    have hloaded := hp' a (by rw [hs]; exact ha)
    rwa [hs, setSession_project_self] at hloaded
  obtain ⟨d, hd⟩ := Option.isSome_iff_exists.mp hsome
  have hold := hp a ha c hc d hd
  rcases projectMove_places (s.session a) path with ⟨hno, -⟩ | ⟨-, hno, -⟩ |
    ⟨-, -, hdir, hlost, hlive⟩
  · exact hno htries
  · rw [hworks] at hno
    exact absurd hno (by simp)
  · generalize Lash.projectMove (s.session a) path = t at hq hdir hlost hlive
    -- the client is still there, with the data path it had
    have hnew : d = projectGetClientDir t.p c := by
      rcases List.mem_append.mp hc with hc | hc
      · obtain ⟨e, he, st, -, rfl⟩ := exists_of_forall₂ hlive.flip hc
        exact hq _ (List.mem_append_left _ he) d hd
      · exact hq c (List.mem_append_right _ (by rw [hlost]; exact hc)) d hd
    have hsame := projectGetClientDir_inj rfl (hold.symm.trans hnew)
    exact htries.2.1 (hdir.symm.trans hsame.symm)

theorem PathsFollow.step_iff (hp : s.PathsFollow) (hw : s.Wf) (h : s.step i = some s') :
    s'.PathsFollow ↔ ¬ s.MovesPaths i := by
  constructor
  · intro hp' hm
    exact hm.not_follows hp h hp'
  · intro hi a _
    exact (step_placed hw h a).pathsFollow (hw.pathsFollow hp a) hi

theorem resuming_mem {c : Client} (h : s.resuming i = some (a, c)) :
    a ∈ s.loaded ∧ c ∈ (s.project a).lostClients := by
  cases i with
  | connect sender pid cls flags wd argv id =>
      simp only [resuming] at h
      split at h
      · exact absurd h (by simp)
      · obtain ⟨ha, hc, -⟩ := findClient_some h
        exact ⟨ha, hc⟩
  | _ => exact absurd h (by simp [resuming])

/-- Clients are asked to load from where their project has its data. -/
theorem PathsFollow.loadsInside (hp : s.PathsFollow) (hw : s.Wf) (h : s.step i = some s') :
    s.LoadsInside s' := by
  intro a x dest task path hmem
  rcases hw.step_answers h with hun | ⟨b, act, hmove, hexp⟩
  · have hnil : s.news s' = [] := news_of_log (by rw [hun.log, List.append_nil])
    rw [hnil] at hmem
    exact absurd hmem (by simp)
  · obtain ⟨evs, hm, hlog⟩ := hmove.move
    have hb : b = a := by
      obtain ⟨es, hes, hproject, -⟩ := hlog
      rw [news_of_log hes] at hmem
      exact (hproject _ hmem).symm
    subst hb
    obtain ⟨j, rfl⟩ := hm.of_load ((mem_news_of_logged hlog rfl).mp hmem)
    obtain ⟨c, hres, -, hans⟩ := hexp
    cases i with
    | connect sender pid cls flags wd argv id =>
        obtain ⟨hanswer, hstep⟩ := step_of_resuming hres
        rw [hanswer, Option.some.injEq] at hans
        rw [hstep] at h
        obtain ⟨u, hu, rfl⟩ := Option.map_eq_some_iff.mp h
        obtain ⟨es, hes, hpaths⟩ := clientResumeProject_path hu hans
        have hnews : s.news (s.setSession b u) = .connected b c.addr sender :: es := by
          apply news_of_log
          show u.g.log = _
          rw [hes]
          show (s.g.log ++ [_]) ++ es = _
          rw [List.append_assoc]
          rfl
        have hes' : .load b x dest task path ∈ es := by
          rw [hnews] at hmem
          simpa using hmem
        obtain ⟨hx, hpath⟩ := hpaths b x dest task path hes'
        obtain ⟨hb, hc⟩ := resuming_mem hres
        obtain ⟨hdir, -, d, hback, ⟨e, he, hsame⟩, -⟩ := hw.resumed hc hu
        rw [setSession_project_self]
        refine ⟨e, he, ?_, ?_⟩
        · rw [hsame.addr, hback.addr, hx]
          rfl
        · rw [projectGetClientDir_congr hdir (hsame.idStr.trans hback.idStr), hpath]
          show (if c.dataPath.getD [] = [] then projectGetClientDir (s.project b) c
            else c.dataPath.getD []) = _
          split
          · rfl
          · next hne =>
              cases hd : c.dataPath with
              | none => exact absurd (by rw [hd]; rfl) hne
              | some d => exact hp b hb c (List.mem_append_right _ hc) d hd
    | _ => exact absurd hres (by simp [resuming])

/-- **The data paths follow the projects** through a run exactly if no project with a client that
has one is moved in it. -/
theorem data_paths_follow_iff (fs : Fs) (dir : CStr) (is : List Input) :
    Runs.Throughout step FollowsProjects (start fs dir) is ↔
      Runs.Throughout step (fun s i _ => ¬ s.MovesPaths i) (start fs dir) is := by
  have hstart : (start fs dir).PathsFollow := by
    intro a ha
    rw [(start_starting fs dir).loaded] at ha
    exact absurd ha List.not_mem_nil
  refine Runs.throughout_congr (I := fun s => s.Wf ∧ s.PathsFollow) ?_ ?_
    ⟨(start_starting fs dir).wf, hstart⟩ is
  · rintro s i s' ⟨hw, -⟩ hs hfollows
    exact ⟨(hw.step_answers hs).wf hw, hfollows.paths⟩
  · rintro s i s' ⟨hw, hp⟩ hs
    rw [← hp.step_iff hw hs]
    constructor
    · exact FollowsProjects.paths
    · intro hp'
      exact ⟨hp', hp.loadsInside hw hs, fun a _ => (hw.pathsFollow hp a).clearsInside⟩

/-- A client joins a project and the project is moved: the data path of the client stays behind. -/
theorem data_path_stays_behind :
    ¬ Runs.Throughout step FollowsProjects (start emptyDisk (cstr "/p"))
      ([.connect (cstr ":1") 5 (cstr "synth") flagConfigFile [] [cstr "synth"] 1] ++
        [.projectMove (cstr "New Project") (cstr "/q")]) := by
  intro hfollows
  have hrun :
      ([.connect (cstr ":1") 5 (cstr "synth") flagConfigFile [] [cstr "synth"] 1].foldlM step
      (start emptyDisk (cstr "/p"))).any (fun s =>
        (s.step (.projectMove (cstr "New Project") (cstr "/q"))).any (fun s' =>
          1 ∈ s'.loaded ∧ (s'.project 1).clients.any (fun c => c.dataPath.any (fun d =>
            d ≠ projectGetClientDir (s'.project 1) c)))) = true := by
    decide +kernel
  obtain ⟨s, hs, hlast⟩ := (Option.any_eq_true _ _).mp hrun
  obtain ⟨s', hs', hbad⟩ := (Option.any_eq_true _ _).mp hlast
  obtain ⟨ha, hany⟩ := of_decide_eq_true hbad
  obtain ⟨c, hc, hd⟩ := List.any_eq_true.mp hany
  obtain ⟨d, hpath, hne⟩ := (Option.any_eq_true _ _).mp hd
  have hfollow := (hfollows.last hs hs').paths 1 ha c (List.mem_append_left _ hc) d hpath
  exact of_decide_eq_true hne hfollow

end Server

end Lash
