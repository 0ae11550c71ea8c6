import Lash.Deeds

/-!
# What a step does to one project

A step is one deed of the daemon, and a deed concerns one project. `Server.Change` is what is left
of the deeds from the point of view of a single project: the function that was called for it and
the project that came out. Invariants of one project are shown change by change (`step_changes`).
-/

namespace Lash

namespace Server

/-- A project that was just made. -/
def brandNew (s : Server) (a : Addr) (name : CStr) : Project :=
  { projectNew a with name := name, directory := lashGetFqn s.g.projectsDir name }

/-- What `server_project_restore` makes of a project that was read from its file. -/
def restored (p : Project) (lost : List Client) : Project :=
  { p with
    taskType := .load
    clientTasksProgress := 0
    clientTasksTotal := p.lostClients.length
    clientTasksPending := p.lostClients.length
    lostClients := lost }

/-- What an input does to project `a`, apart from leaving it alone. -/
inductive Change (s : Server) (a : Addr) : Input → Project → Prop
  | join {sender pid cls flags wd argv id t u}
      (hi : s.resuming (.connect sender pid cls flags wd argv id) = none)
      (ht : a ∈ s.loaded ∧ t.p = s.project a ∨ a = s.g.nextAddr + 1 ∧ ∃ name,
      t.p = s.brandNew a name)
      (hu : projectNewClient t (newClient s.g.nextAddr sender pid cls flags wd argv) id = some u) :
      Change s a (.connect sender pid cls flags wd argv id) u.p
  | resume {sender pid cls flags wd argv id c u}
      (hi : s.resuming (.connect sender pid cls flags wd argv id) = some (a, c))
      (ha : a ∈ s.loaded) (hc : c ∈ (s.project a).lostClients)
      (hu : clientResumeProject ((s.session a).emit (.connected a c.addr sender))
        (c.reconnect sender) = some u) :
      Change s a (.connect sender pid cls flags wd argv id) u.p
  | leave {i c} (g : Globals) (hi : s.leaving i = some (a, c)) (ha : a ∈ s.loaded)
      (hc : c ∈ (s.project a).clients) :
      Change s a i (clientDisconnected { g := g, p := s.project a } c).p
  | complete {i u c ok v} (hi : s.reporting i = some (a, u, c, ok)) (ha : a ∈ s.loaded)
      (hv : clientTaskCompleted u c ok = some v) : Change s a i v.p
  | progress {i c} (n : Nat) (ha : a ∈ s.loaded) (hc : c ∈ (s.project a).clients)
      (hi : s.progressing i = some (a, c, n)) :
      Change s a i (projectClientProgress (s.session a) c n).1.p
  | save {i} (hi : s.saving i = some a) (ha : a ∈ s.loaded) :
      Change s a i (Lash.projectSave (s.session a)).p
  | close {i} (hi : s.closing i = some a) (ha : a ∈ s.loaded) :
      Change s a i (projectUnload (s.session a)).p
  | restore {i u v g g' lost} (ha : a ∈ s.all) (hnot : a ∉ s.loaded) (hi : s.restoring i = some a)
      (hload : projectLoad (s.session a) = some (true, u))
      (hv : v = u ∨ ∃ name, v = Lash.projectRename u name)
      (hlost : restoreClients v.p g v.p.lostClients = some (g', lost)) :
      Change s a i (restored v.p lost)
  | depend {i c id d} (hi : s.adding i = some (a, c, id)) (ha : a ∈ s.loaded)
      (hc : c ∈ (s.project a).clients)
      (hd : clientDependencyAdd (s.project a).clients c id = some d) :
      Change s a i ((s.project a).put d)
  | undepend {i c} (id : Uuid) (ha : a ∈ s.loaded) (hc : c ∈ (s.project a).clients) :
      Change s a i ((s.project a).put
        { c with dependencies := clientDependencyRemove c.dependencies id })
  | launch {i c g d} (ha : a ∈ s.loaded) (hc : c ∈ (s.project a).lostClients)
      (hd : projectLaunchClient s.g (s.project a) c = some (g, d)) :
      Change s a i { s.project a with lostClients := putClient d (s.project a).lostClients }
  | rename {old new} (ha : a ∈ s.loaded) :
      Change s a (.projectRename old new) (Lash.projectRename (s.session a) new).p
  | describe {name description} (ha : a ∈ s.loaded) :
      Change s a (.projectSetDescription name description)
        (Lash.projectSetDescription (s.session a) description).p
  | note {name notes} (ha : a ∈ s.loaded) :
      Change s a (.projectSetNotes name notes) (Lash.projectSetNotes (s.session a) notes).p
  | move {name path} (hi : s.findProjectByName name = some a) (ha : a ∈ s.loaded) :
      Change s a (.projectMove name path) (Lash.projectMove (s.session a) path).p

/-- A project is left alone or changed. -/
def Changes (s : Server) (a : Addr) (i : Input) (s' : Server) : Prop :=
  s'.project a = s.project a ∨ s.Change a i (s'.project a)

variable {s s' t : Server} {a b : Addr} {i : Input}

/-- A deed on project `b` changes `b` and nothing else. -/
theorem Changes.setSession {u : Session} (ht : t.project = s.project)
    (hu : s.Change b i u.p) (a : Addr) : s.Changes a i (t.setSession b u) := by
  by_cases hab : a = b
  · subst hab
    exact Or.inr (by rwa [setSession_project_self])
  · exact Or.inl (by rw [setSession_project_ne t u hab, ht])

/-- What `server_project_restore` does. -/
theorem projectRestore_cases {ok : Bool} (hnot : a ∉ s.loaded)
    (h : s.projectRestore a = some (ok, t)) :
    t = s ∨ ∃ u v, projectLoad (s.session a) = some (true, u) ∧
      (v = u ∨ ∃ name, v = Lash.projectRename u name) ∧
      (s.setSession a v).startRestore a = some t := by
  unfold projectRestore at h
  rw [if_neg hnot] at h
  split at h
  · exact absurd h (by simp)
  · next u hload =>
      obtain ⟨-, rfl⟩ := Prod.mk.inj (Option.some.inj h)
      rw [projectLoad_false hload, setSession_session]
      exact Or.inl rfl
  · next u hload =>
      dsimp only at h
      split at h
      · obtain ⟨v, hv, he⟩ := Option.map_eq_some_iff.mp h
        obtain ⟨-, rfl⟩ := Prod.mk.inj he
        exact Or.inr ⟨u, u, hload, Or.inl rfl, hv⟩
      · split at h
        · exact absurd h (by simp)
        · next name _ =>
            obtain ⟨v, hv, he⟩ := Option.map_eq_some_iff.mp h
            obtain ⟨-, rfl⟩ := Prod.mk.inj he
            rw [setSession_setSession] at hv
            exact Or.inr ⟨u, _, hload, Or.inr ⟨name, rfl⟩, hv⟩

/-- `server_create_new_project` makes a project with a free address. -/
theorem createNewProject_brandNew (h : s.createNewProject = some (t, b)) :
    b = s.g.nextAddr ∧ (∃ name, t.project b = s.brandNew b name) ∧
      ∀ a ≠ b, t.project a = s.project a := by
  unfold createNewProject at h
  split at h
  · exact absurd h (by simp)
  · next name hname =>
      obtain ⟨rfl, rfl⟩ := Prod.mk.inj (Option.some.inj h)
      refine ⟨rfl, ⟨name, setSession_project_self _ _ _⟩, ?_⟩
      intro a hab
      exact setSession_project_ne _ _ hab

/-- **Every step leaves a project alone or changes it.** -/
theorem step_changes (h : s.step i = some s') (a : Addr) : s.Changes a i s' := by
  cases step_deed h with
  | nothing | children | outside => exact Or.inl rfl
  | @join sender pid cls flags wd argv id t b u hi hborn hu =>
      have hnew : (b ∈ s.loaded ∧ t.project b = s.project b ∨
          b = s.g.nextAddr + 1 ∧ ∃ name, t.project b = s.brandNew b name) ∧
          ∀ x ≠ b, t.project x = s.project x := by
        rcases getNewbornProject_some hborn with ⟨rfl, hb⟩ | hcreate
        · exact ⟨Or.inl ⟨hb, rfl⟩, fun _ _ => rfl⟩
        · obtain ⟨rfl, hname, hothers⟩ := createNewProject_brandNew hcreate
          exact ⟨Or.inr ⟨rfl, hname⟩, hothers⟩
      by_cases hab : a = b
      · subst hab
        refine Or.inr ?_
        rw [setSession_project_self]
        exact .join hi hnew.1 hu
      · exact Or.inl (by rw [setSession_project_ne _ _ hab, hnew.2 a hab])
  | resume hi ha hc hu => exact .setSession rfl (.resume hi ha hc hu) a
  | leave childs hi ha hc => exact .setSession rfl (.leave _ hi ha hc) a
  | complete hi ha hv => exact .setSession rfl (.complete hi ha hv) a
  | progress n ha hc hi => exact .setSession rfl (.progress n ha hc hi) a
  | @save i b hi ha =>
      have hproject : (s.projectSave b).project =
          (s.setSession b (Lash.projectSave (s.session b))).project := by
        unfold projectSave
        dsimp only
        split <;> rfl
      have hset := @Changes.setSession s s b i _ rfl (.save hi ha) a
      unfold Changes at hset ⊢
      rw [hproject]
      exact hset
  | @close i b hi ha =>
      exact @Changes.setSession s { s with loaded := s.loaded.erase b } b i
        (projectUnload (s.session b)) rfl (.close hi ha) a
  | @restore i b ok t hb hnot hi ht =>
      rcases projectRestore_cases hnot ht with rfl | ⟨u, v, hload, hv, hstart⟩
      · exact Or.inl rfl
      · obtain ⟨g, lost, hrest, rfl⟩ := startRestore_some hstart
        rw [setSession_project_self] at hrest
        by_cases hab : a = b
        · subst hab
          refine Or.inr ?_
          rw [setSession_project_self, setSession_project_self]
          exact .restore hb hnot hi hload hv hrest
        · refine Or.inl ?_
          rw [setSession_project_ne _ _ hab]
          exact setSession_project_ne _ _ hab
  | depend hi ha hc hd => exact .setSession rfl (.depend hi ha hc hd) a
  | undepend id hi ha hc => exact .setSession rfl (.undepend id ha hc) a
  | launch ha hc hd => exact .setSession rfl (.launch ha hc hd) a
  | rename ha => exact .setSession rfl (.rename ha) a
  | describe ha => exact .setSession rfl (.describe ha) a
  | note ha => exact .setSession rfl (.note ha) a
  | move hi ha => exact .setSession rfl (.move hi ha) a

end Server

end Lash
