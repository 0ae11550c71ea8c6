import Lash.Offers

/-!
# Names of loaded projects

Everything that reaches the daemon for a project comes under the name of the project. A new
project and one that is loaded get a name that no loaded project has; a project that is renamed
gets the name it is given. So names tell projects apart as long as nobody asks for a name that is
taken (`Server.names_identify`).
-/

namespace Lash

namespace Server

variable {s s' t : Server} {a b : Addr} {i : Input}

/-! ## Names that are made -/

theorem findProjectByName_none {name : CStr} (h : s.findProjectByName name = none)
    (hb : b ∈ s.loaded) :
    (s.project b).name ≠ name := by
  have hnone := List.find?_eq_none.mp h b hb
  simpa using hnone

theorem newNameLoop_free {suggestion name r : CStr} {n k : Nat}
    (h : s.newNameLoop suggestion n k name = some r) : s.nameIsFree r = true := by
  induction n generalizing k name with
  | zero => exact absurd h (by simp [newNameLoop])
  | succ n ih =>
      rw [newNameLoop] at h
      split at h
      · next hfree =>
          rw [← Option.some.inj h]
          exact hfree
      · exact ih h

theorem createNewProjectName_nameIsFree {suggestion r : CStr}
    (h : s.createNewProjectName suggestion = some r) : s.nameIsFree r = true := by
  unfold createNewProjectName at h
  dsimp only at h
  generalize (if suggestion = [] then cstr "New Project" else suggestion) = name at h
  split at h
  · exact absurd h (by simp)
  · exact newNameLoop_free h

/-- A name that the daemon makes is no loaded project's. -/
theorem createNewProjectName_free {suggestion r : CStr}
    (h : s.createNewProjectName suggestion = some r) (hb : b ∈ s.loaded) : (s.project b).name ≠
    r := by
  have hfree := createNewProjectName_nameIsFree h
  rw [nameIsFree, Bool.and_eq_true, Option.isNone_iff_eq_none] at hfree
  exact findProjectByName_none hfree.1 hb

/-! ## What a step does to names -/

/-- What becomes of the names of the loaded projects: they stay, one project is renamed, or one
more is loaded under a name of its own. -/
inductive NameStep (s : Server) : Input → Server → Prop
  | same {j : Input} {u : Server} (hsub : ∀ b ∈ u.loaded, b ∈ s.loaded)
      (hname : ∀ b ∈ u.loaded, (u.project b).name = (s.project b).name) : NameStep s j u
  | rename {old new : CStr} {c : Addr} {u : Server} (hfind : s.findProjectByName old = some c)
      (hloaded : u.loaded = s.loaded) (hself : (u.project c).name = new)
      (hname : ∀ b ≠ c, (u.project b).name = (s.project b).name) :
      NameStep s (.projectRename old new) u
  | more {j : Input} {c : Addr} {u : Server} (hloaded : u.loaded = s.loaded ++ [c])
      (hname : ∀ b ∈ s.loaded, (u.project b).name = (s.project b).name)
      (hnew : ∀ b ∈ s.loaded, (s.project b).name ≠ (u.project c).name) : NameStep s j u

/-- A session that keeps the name of its project. -/
theorem NameStep.of_session {u : Session} (hloaded : t.loaded = s.loaded)
    (hproject : t.project = s.project) (hu : u.p.name = (s.project a).name) :
    s.NameStep i (t.setSession a u) := by
  refine .same ?_ ?_
  · intro b hb
    rw [setSession_loaded, hloaded] at hb
    exact hb
  · intro b _
    by_cases hab : b = a
    · subst hab
      rw [setSession_project_self, hu]
    · rw [setSession_project_ne t u hab, hproject]

theorem projectRename_name (u : Session) (new : CStr) : (projectRename u new).p.name = new := by
  unfold projectRename
  rw [projectSetModifiedStatus_p]
  rfl

/-- A project that is restored is loaded under a name of its own. -/
theorem projectRestore_nameStep (hnot : a ∉ s.loaded) {ok : Bool}
    (h : s.projectRestore a = some (ok, t)) : s.NameStep i t := by
  -- what is loaded after the name is settled
  have hstart : ∀ {v w : Server}, v.startRestore a = some w → v.loaded = s.loaded →
      (∀ b ≠ a, v.project b = s.project b) →
      (∀ b ∈ s.loaded, (s.project b).name ≠ (v.project a).name) → s.NameStep i w := by
    intro v w hv hloaded hproject hfree
    obtain ⟨g, lost, -, rfl⟩ := startRestore_some hv
    refine @NameStep.more s i a _ ?_ ?_ ?_
    · rw [setSession_loaded, hloaded]
    · intro b hb
      have hne : b ≠ a := by
        rintro rfl
        exact hnot hb
      rw [setSession_project_ne _ _ hne]
      exact congrArg Project.name (hproject b hne)
    · intro b hb
      rw [setSession_project_self]
      exact hfree b hb
  unfold projectRestore at h
  rw [if_neg hnot] at h
  split at h
  · exact absurd h (by simp)
  · next u hload =>
      obtain ⟨-, rfl⟩ := Prod.mk.inj (Option.some.inj h)
      rw [projectLoad_false hload]
      exact .of_session rfl rfl rfl
  · next u hload =>
      have hothers : ∀ b ≠ a, (s.setSession a u).project b = s.project b :=
        fun b hb => setSession_project_ne s u hb
      have hne : ∀ b ∈ s.loaded, b ≠ a := by
        rintro b hb rfl
        exact hnot hb
      dsimp only at h
      split at h
      · next hfind =>
          obtain ⟨v, hv, he⟩ := Option.map_eq_some_iff.mp h
          obtain ⟨-, rfl⟩ := Prod.mk.inj he
          refine hstart hv rfl hothers ?_
          intro b hb
          have hb' := findProjectByName_none hfind hb
          rw [hothers b (hne b hb)] at hb'
          rw [setSession_project_self]
          exact hb'
      · split at h
        · exact absurd h (by simp)
        · next name hname =>
            obtain ⟨v, hv, he⟩ := Option.map_eq_some_iff.mp h
            obtain ⟨-, rfl⟩ := Prod.mk.inj he
            refine hstart hv rfl ?_ ?_
            · intro b hb
              rw [setSession_project_ne _ _ hb, hothers b hb]
            · intro b hb
              have hb' := createNewProjectName_free hname (b := b) hb
              rw [hothers b (hne b hb)] at hb'
              rw [setSession_project_self, projectRename_name]
              exact hb'

/-- So is a new project. -/
theorem createNewProject_nameStep {u : Session} (hfresh : s.g.nextAddr ∉ s.loaded)
    (h : s.createNewProject = some (t, a)) (hu : u.p.name = (t.project a).name) :
    s.NameStep i (t.setSession a u) := by
  have hc := createNewProject_some h
  have hne : ∀ b ∈ s.loaded, b ≠ a := by
    rintro b hb rfl
    rw [hc.fresh] at hb
    exact hfresh hb
  have hfree : ∀ b ∈ s.loaded, (s.project b).name ≠ (t.project a).name := by
    intro b hb
    unfold createNewProject at h
    split at h
    · exact absurd h (by simp)
    · next name hname =>
        obtain ⟨rfl, rfl⟩ := Prod.mk.inj (Option.some.inj h)
        have hb' := createNewProjectName_free hname hb
        show (s.project b).name ≠ ((s.setSession s.g.nextAddr _).project s.g.nextAddr).name
        rw [setSession_project_self]
        exact hb'
  refine @NameStep.more s i a _ ?_ ?_ ?_
  · rw [setSession_loaded, hc.loaded]
  · intro b hb
    rw [setSession_project_ne _ _ (hne b hb), hc.others b (hne b hb)]
  · intro b hb
    rw [setSession_project_self, hu]
    exact hfree b hb

/-- **A step changes a name only on request**, and nothing is loaded under a name that is taken. -/
theorem step_names (hw : s.Wf) (hs : s.step i = some s') : s.NameStep i s' := by
  cases step_deed hs with
  | nothing => exact .same (fun b hb => hb) (fun _ _ => rfl)
  | children childs => exact .same (fun b hb => hb) (fun _ _ => rfl)
  | outside fs forks => exact .same (fun b hb => hb) (fun _ _ => rfl)
  | @join sender pid cls flags wd argv id t a u hi hborn hu =>
      have hname : u.p.name = (t.project a).name := (projectNewClient_head hu).name
      rcases getNewbornProject_some hborn with ⟨rfl, -⟩ | hnew
      · exact .of_session rfl rfl hname
      · have hfresh : s.g.nextAddr + 1 ∉ s.loaded := by
          intro hmem
          exact absurd (hw.known _ (Or.inl hmem)) (Nat.not_succ_lt_self)
        have hstep := createNewProject_nameStep
          (i := .connect sender pid cls flags wd argv id) hfresh hnew hname
        cases hstep with
        | same hsub hn => exact .same hsub hn
        | more hloaded hn hnew => exact .more hloaded hn hnew
  | resume hi ha hc hu =>
      exact .of_session rfl rfl (clientResumeProject_head hu).name
  | leave childs hi ha hc =>
      exact @NameStep.of_session s { s with g := { s.g with childs := childs } } _ _ _ rfl rfl
        (clientDisconnected_head _ _).name
  | complete hi ha hv =>
      refine .of_session rfl rfl ((clientTaskCompleted_head hv).name.trans ?_)
      obtain ⟨-, d, -, -, hcase⟩ := reporting_cases hi
      rcases hcase with ⟨rfl, -⟩ | ⟨_, _, _, _, _, -, -, -, -, -, -, rfl⟩
      · rfl
      · rfl
  | progress n ha hc => exact .of_session rfl rfl (projectClientProgress_head _ _ n).name
  | @save i a hi ha =>
      have hname := (projectSave_head (s.session a)).name
      have hset := NameStep.of_session (i := i) (t := s) rfl rfl hname
      unfold projectSave
      dsimp only
      split
      · exact hset
      · refine .same (fun b hb => hb) ?_
        intro b hb
        cases hset with
        | same hsub hn => exact hn b hb
        | more hloaded => exact absurd (congrArg List.length hloaded) (by simp)
        | rename => cases hi
  | @close i a hi ha =>
      refine .same (fun b hb => List.mem_of_mem_erase hb) ?_
      intro b hb
      have hne : b ≠ a := by
        rintro rfl
        exact (List.Nodup.not_mem_erase hw.loaded) hb
      exact congrArg Project.name (setSession_project_ne _ _ hne)
  | restore ha hnot hi ht => exact projectRestore_nameStep hnot ht
  | depend hi ha hc hd => exact .of_session rfl rfl rfl
  | undepend id hi ha hc => exact .of_session rfl rfl rfl
  | launch ha hc hd => exact .of_session rfl rfl rfl
  | @rename a old new ha =>
      have hs' : (s.onProject old (fun c =>
          s.setSession c (Lash.projectRename (s.session c) new))).1
          = s.setSession a (Lash.projectRename (s.session a) new) := Option.some.inj hs
      rw [← hs', onProject]
      split
      · exact .same (fun b hb => hb) (fun _ _ => rfl)
      · next c hfind =>
          refine .rename hfind rfl ?_ (fun b hb => ?_)
          · rw [setSession_project_self, projectRename_name]
          · exact congrArg Project.name (setSession_project_ne _ _ hb)
  | describe ha =>
      refine .of_session rfl rfl ?_
      unfold projectSetDescription
      rw [projectSetModifiedStatus_p]
      rfl
  | note ha =>
      refine .of_session rfl rfl ?_
      unfold projectSetNotes
      rw [projectSetModifiedStatus_p]
      rfl
  | move hi ha => exact .of_session rfl rfl (projectMove_head _ _).1

/-! ## Names identify -/

/-- No two loaded projects have one name, and each is found under its name. -/
structure NamesIdentify (s : Server) : Prop where
  unique : ∀ a ∈ s.loaded, ∀ b ∈ s.loaded, (s.project a).name = (s.project b).name → a = b
  found : ∀ a ∈ s.loaded, ∀ name, (s.project a).name = name ↔ s.findProjectByName name = some a

/-- A project is not given the name of another loaded project. -/
def RenamesApart (s : Server) (i : Input) : Prop :=
  ∀ old new a, i = .projectRename old new → s.findProjectByName old = some a →
    ∀ b ∈ s.loaded, b ≠ a → (s.project b).name ≠ new

theorem NamesIdentify.of_unique
    (h : ∀ a ∈ s.loaded, ∀ b ∈ s.loaded, (s.project a).name = (s.project b).name → a = b) :
    s.NamesIdentify := by
  refine ⟨h, ?_⟩
  intro a ha name
  constructor
  · rintro rfl
    cases hfind : s.findProjectByName (s.project a).name with
    | none => exact absurd rfl (findProjectByName_none hfind ha)
    | some b =>
        have hname := List.find?_some hfind
        rw [decide_eq_true_eq] at hname
        rw [h b (List.mem_of_find?_eq_some hfind) a ha hname]
  · intro hfind
    simpa using List.find?_some hfind

theorem NamesIdentify.step (h : s.NamesIdentify) (hw : s.Wf) (hi : s.RenamesApart i)
    (hs : s.step i = some s') : s'.NamesIdentify := by
  apply NamesIdentify.of_unique
  intro a ha b hb hab
  cases step_names hw hs with
  | same hsub hname =>
      rw [hname a ha, hname b hb] at hab
      exact h.unique a (hsub a ha) b (hsub b hb) hab
  | @rename old new c _ hfind hloaded hself hname =>
      rw [hloaded] at ha hb
      have hapart := hi old new c rfl hfind
      -- the renamed project on either side, or on neither
      by_cases hac : a = c
      · by_cases hbc : b = c
        · rw [hac, hbc]
        · rw [hac, hself, hname b hbc] at hab
          exact absurd hab.symm (hapart b hb hbc)
      · by_cases hbc : b = c
        · rw [hbc, hself, hname a hac] at hab
          exact absurd hab (hapart a ha hac)
        · rw [hname a hac, hname b hbc] at hab
          exact h.unique a ha b hb hab
  | @more _ c _ hloaded hname hnew =>
      rw [hloaded, List.mem_append, List.mem_singleton] at ha hb
      rcases ha with ha | rfl
      · rcases hb with hb | rfl
        · rw [hname a ha, hname b hb] at hab
          exact h.unique a ha b hb hab
        · rw [hname a ha] at hab
          exact absurd hab (hnew a ha)
      · rcases hb with hb | rfl
        · rw [hname b hb] at hab
          exact absurd hab.symm (hnew b hb)
        · rfl

/-- **Names identify loaded projects** in every state that the daemon gets to without a request
for a name that is taken. -/
theorem names_identify {fs : Fs} {dir : CStr} (h : Reachable RenamesApart fs dir s) :
    s.NamesIdentify := by
  have hs := start_starting fs dir
  have hbegin : (start fs dir).NamesIdentify := by
    apply NamesIdentify.of_unique
    intro a ha
    rw [hs.loaded] at ha
    exact absurd ha List.not_mem_nil
  refine (h.invariant (I := fun t => t.Wf ∧ t.NamesIdentify) ⟨hs.wf, hbegin⟩ ?_).2
  rintro t i u _ ⟨hw, hn⟩ hi htu
  exact ⟨(hw.step_answers htu).wf hw, hn.step hw hi htu⟩

/-! ## Two projects -/

instance (s : Server) (i : Input) : Decidable (s.RenamesApart i) :=
  match i with
  | .projectRename old new =>
      decidable_of_iff (∀ a ∈ s.findProjectByName old, ∀ b ∈ s.loaded, b ≠ a →
        (s.project b).name ≠ new) (by
          constructor
          · rintro h old' new' a heq hfind
            obtain ⟨rfl, rfl⟩ := Input.projectRename.inj heq
            exact h a hfind
          · intro h a hfind
            exact h old new a rfl hfind)
  | .connect .. | .nameLost _ | .progress .. | .commitDataSet .. | .projectOpen _
  | .loadProjectPath _ | .projectSave _ | .saveRound _ | .projectClose _ | .closeRound _
  | .addDependency .. | .removeDependency .. | .lostClientLaunch .. | .projectSetDescription ..
  | .projectSetNotes .. | .projectMove .. | .sigchld _ | .bury | .outside .. =>
      isTrue (fun _ _ _ h => nomatch h)

/-- A saved project is closed, and opened again after a client has made a new one. -/
def twoProjects : List Input :=
  [.connect (cstr ":1") 5 (cstr "synth") 0 [] [cstr "synth"] 1,
    .projectSave (cstr "New Project"),
    .projectClose (cstr "New Project"),
    .connect (cstr ":2") 6 (cstr "drums") 0 [] [cstr "drums"] 2,
    .projectOpen (cstr "New Project")]

/-- Two projects with names of their own. -/
theorem names_identify_two :
    ∃ s, Reachable RenamesApart emptyDisk (cstr "/p") s ∧ s.NamesIdentify ∧ s.loaded.length = 2 ∧
      (s.findProjectByName (cstr "live")).isSome := by
  have hrun : (runFrom RenamesApart
      (twoProjects ++ [.projectRename (cstr "New Project") (cstr "live")])).any
      (fun s => s.loaded.length = 2 ∧ (s.findProjectByName (cstr "live")).isSome) = true := by
    decide +kernel
  obtain ⟨s, hs, hgood⟩ := exists_of_runFrom hrun
  obtain ⟨hlen, hfind⟩ := of_decide_eq_true hgood
  exact ⟨s, hs, names_identify hs, hlen, hfind⟩

/-- A project is renamed to the name of another one, and is not found any more. -/
theorem names_clash :
    ∃ s, Reachable FreshId emptyDisk (cstr "/p") s ∧ ¬ s.NamesIdentify := by
  have hrun : (runFrom FreshId
      (twoProjects ++ [.projectRename (cstr "New Project 2") (cstr "New Project")])).any
      (fun s => s.loaded.any (fun a => s.loaded.any (fun b =>
        (s.project a).name = (s.project b).name ∧ a ≠ b))) = true := by
    decide +kernel
  obtain ⟨s, hs, hbad⟩ := exists_of_runFrom hrun
  obtain ⟨a, ha, hb⟩ := List.any_eq_true.mp hbad
  obtain ⟨b, hb, hab⟩ := List.any_eq_true.mp hb
  obtain ⟨hname, hne⟩ := of_decide_eq_true hab
  exact ⟨s, hs, fun h => hne (h.unique a ha b hb hname)⟩

end Server

end Lash
