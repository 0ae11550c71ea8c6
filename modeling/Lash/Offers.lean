import Lash.Commit
import Lash.Frames

/-!
# The projects that are offered for loading

A project enters `all_projects` when its first save begins, gets its document when that save ends,
and may be closed at any moment in between. Closing a project is the only way to one that is
offered but not loaded (`step_offered`), so whether every such project can be loaded depends on
what is closed, and on what becomes of the directories of the others meanwhile.
-/

namespace Lash

/-! ## Stores -/

namespace Server

variable {s s' t : Server} {a b : Addr} {i : Input}

/-- The stores of all clients are well formed. -/
def StoresOk (s : Server) : Prop := s.Has (fun _ => True) (fun _ _ st => st.Ok)

/-- What is reported leaves the store of the client well formed. -/
theorem StoresOk.reporting (h : s.StoresOk) {u : Session} {c : Client} {ok : Bool}
    (hi : s.reporting i = some (a, u, c, ok)) : c.StoreIs (fun _ st => st.Ok) := by
  obtain ⟨-, d, hd, -, hcase⟩ := reporting_cases hi
  have hok := h.live a d hd
  rcases hcase with ⟨-, rfl, -⟩ | ⟨_, _, elems, _, st, -, -, -, hst, -, rfl, -⟩
  · exact hok
  · intro st' hst'
    rw [← Option.some.inj hst', (commitConfigs_eq st elems).1]
    exact (hok st hst).setAll _

theorem StoresOk.step (h : s.StoresOk) (hw : s.Wf) (hs : s.step i = some s') : s'.StoresOk := by
  refine step_has ⟨fun _ _ => trivial, id, fun _ hst => ⟨trivial, hst.write _⟩, fun _ _ =>
    (storeOpen_spec _ _).1⟩ hw h (fun a u c ok hi => h.reporting hi) (fun _ _ _ => trivial) hs

theorem Starting.has (h : s.Starting) {D : Fs → Prop} (hdisk : D s.g.fs)
    (Q : Addr → Addr → Store → Prop) : s.Has D Q := by
  have hnone : ∀ a, (s.project a).clients = [] ∧ (s.project a).lostClients = [] := by
    intro a
    have hjobs : (s.view a).jobs = [] := by rw [h.view]; rfl
    rw [View.jobs, List.append_eq_nil_iff] at hjobs
    simpa [Server.view, Project.view] using hjobs
  refine ⟨hdisk, ?_, ?_⟩
  · intro a c hc
    rw [(hnone a).1] at hc
    exact absurd hc List.not_mem_nil
  · intro a c hc
    rw [(hnone a).2] at hc
    exact absurd hc List.not_mem_nil

/-- Reading the projects changes nothing on the disk. -/
theorem start_fs (fs : Fs) (dir : CStr) : (start fs dir).g.fs = fs := by
  have hfill : ∀ (ds : List CStr) (s : Server), (s.fillProjects ds).g.fs = s.g.fs := by
    intro ds
    induction ds with
    | nil => exact fun s => rfl
    | cons d ds ih =>
        intro s
        rw [fillProjects]
        split
        · exact ih s
        · exact ih _
  exact hfill _ _

/-! ## What a step does to the lists -/

/-- **A project is offered and not loaded** because it was so before and nothing happened to it, or
because it has just been closed. -/
theorem step_offered (hw : s.Wf) (hs : s.step i = some s') (hb : b ∈ s'.all) (hn : b ∉ s'.loaded) :
    b ∈ s.all ∧ (b ∉ s.loaded ∧ s'.project b = s.project b ∨
      s.closing i = some b ∧ b ∈ s.loaded ∧ s' = s.closeProject b) := by
  -- a step that is about a loaded project leaves the others alone
  have hset : ∀ {t : Server} {a : Addr} {u : Session}, s' = t.setSession a u → t.all = s.all →
      t.loaded = s.loaded → t.project = s.project → a ∈ s.loaded →
      b ∈ s.all ∧ (b ∉ s.loaded ∧ s'.project b = s.project b ∨
        s.closing i = some b ∧ b ∈ s.loaded ∧ s' = s.closeProject b) := by
    rintro t a u rfl hall hloaded hproject ha
    rw [setSession_loaded, hloaded] at hn
    rw [setSession_all, hall] at hb
    have hne : b ≠ a := by
      rintro rfl
      exact hn ha
    exact ⟨hb, Or.inl ⟨hn, by rw [setSession_project_ne t u hne, hproject]⟩⟩
  cases step_deed hs with
  | nothing => exact ⟨hb, Or.inl ⟨hn, rfl⟩⟩
  | children childs => exact ⟨hb, Or.inl ⟨hn, rfl⟩⟩
  | outside fs forks => exact ⟨hb, Or.inl ⟨hn, rfl⟩⟩
  | @join sender pid cls flags wd argv id t a u hi hborn hu =>
      have hnew := hw.newborn hborn
      rw [setSession_loaded] at hn
      rw [setSession_all, hnew.all] at hb
      have hne : b ≠ a := by
        rintro rfl
        exact hn hnew.mem
      obtain ⟨hproject, hloaded⟩ := hnew.others b hne
      rw [hloaded] at hn
      exact ⟨hb, Or.inl ⟨hn, by rw [setSession_project_ne _ _ hne, hproject]⟩⟩
  | resume hi ha hc hu => exact hset rfl rfl rfl rfl ha
  | leave childs hi ha hc => exact hset rfl rfl rfl rfl ha
  | complete hi ha hv => exact hset rfl rfl rfl rfl ha
  | progress n ha hc => exact hset rfl rfl rfl rfl ha
  | @save i a hi ha =>
      have hlists : (s.projectSave a).loaded = s.loaded ∧
          (s.projectSave a).project = Function.update s.project a
            (Lash.projectSave (s.session a)).p ∧
          ∀ x ∈ (s.projectSave a).all, x ∈ s.all ∨ x = a := by
        unfold projectSave
        dsimp only
        split
        · exact ⟨rfl, rfl, fun x hx => Or.inl hx⟩
        · refine ⟨rfl, rfl, ?_⟩
          intro x hx
          rcases List.mem_append.mp hx with hx | hx
          · exact Or.inl hx
          · exact Or.inr (List.mem_singleton.mp hx)
      obtain ⟨hloaded, hproject, hall⟩ := hlists
      rw [hloaded] at hn
      have hne : b ≠ a := by
        rintro rfl
        exact hn ha
      exact ⟨(hall b hb).resolve_right hne,
        Or.inl ⟨hn, by rw [hproject, Function.update_of_ne hne]⟩⟩
  | @close i a hi ha =>
      by_cases hab : b = a
      · subst hab
        exact ⟨hb, Or.inr ⟨hi, ha, rfl⟩⟩
      · have hn' : b ∉ s.loaded := fun hm => hn ((List.mem_erase_of_ne hab).mpr hm)
        refine ⟨hb, Or.inl ⟨hn', ?_⟩⟩
        exact setSession_project_ne _ _ hab
  | @restore i a ok t ha hnot hi ht =>
      unfold projectRestore at ht
      split at ht
      · obtain ⟨-, rfl⟩ := Prod.mk.inj (Option.some.inj ht)
        exact ⟨hb, Or.inl ⟨hn, rfl⟩⟩
      · split at ht
        · exact absurd ht (by simp)
        · next u hload =>
            obtain ⟨-, rfl⟩ := Prod.mk.inj (Option.some.inj ht)
            rw [projectLoad_false hload, setSession_session] at hb hn ⊢
            exact ⟨hb, Or.inl ⟨hn, rfl⟩⟩
        · next u hload =>
            -- a project that is loaded now is not the one we look at
            have hstart : ∀ {v w : Server}, v.startRestore a = some w → v.all = s.all →
                v.loaded = s.loaded → (∀ x ≠ a, v.project x = s.project x) → b ∈ w.all →
                b ∉ w.loaded → b ∈ s.all ∧ b ∉ s.loaded ∧ w.project b = s.project b := by
              intro v w hv hall hloaded hproject hbw hnw
              obtain ⟨g, lost, -, rfl⟩ := startRestore_some hv
              rw [setSession_all] at hbw
              rw [setSession_loaded] at hnw
              have hnw' : b ∉ v.loaded ∧ b ≠ a := by simpa using hnw
              refine ⟨hall ▸ hbw, hloaded ▸ hnw'.1, ?_⟩
              rw [setSession_project_ne _ _ hnw'.2]
              exact hproject b hnw'.2
            dsimp only at ht
            split at ht
            · obtain ⟨v, hv, he⟩ := Option.map_eq_some_iff.mp ht
              obtain ⟨-, rfl⟩ := Prod.mk.inj he
              obtain ⟨hb, hn, hp⟩ :=
                hstart hv rfl rfl (fun x hx => setSession_project_ne _ _ hx) hb hn
              exact ⟨hb, Or.inl ⟨hn, hp⟩⟩
            · split at ht
              · exact absurd ht (by simp)
              · obtain ⟨v, hv, he⟩ := Option.map_eq_some_iff.mp ht
                obtain ⟨-, rfl⟩ := Prod.mk.inj he
                rw [setSession_setSession] at hv
                obtain ⟨hb, hn, hp⟩ :=
                  hstart hv rfl rfl (fun x hx => setSession_project_ne _ _ hx) hb hn
                exact ⟨hb, Or.inl ⟨hn, hp⟩⟩
  | depend hi ha hc hd => exact hset rfl rfl rfl rfl ha
  | undepend id hi ha hc => exact hset rfl rfl rfl rfl ha
  | launch ha hc hd => exact hset rfl rfl rfl rfl ha
  | rename ha => exact hset rfl rfl rfl rfl ha
  | describe ha => exact hset rfl rfl rfl rfl ha
  | note ha => exact hset rfl rfl rfl rfl ha
  | move hi ha => exact hset rfl rfl rfl rfl ha

/-! ## Documents -/

/-- Every document of a project has a root. -/
def DocsRooted (s : Server) : Prop := ∀ a doc, (s.project a).doc = some doc → (rootNode doc).isSome

theorem rootNode_projectCreateXml (p : Project) : (rootNode (projectCreateXml p)).isSome := rfl

/-- Reading a project leaves its document and its directory alone. -/
theorem projectLoad_head {u v : Session} {ok : Bool} (h : projectLoad u = some (ok, v)) :
    v.p.doc = u.p.doc ∧ v.p.directory = u.p.directory := by
  unfold projectLoad at h
  split at h
  · exact absurd h (by simp)
  · split at h
    · obtain ⟨-, rfl⟩ := Prod.mk.inj (Option.some.inj h)
      exact ⟨rfl, rfl⟩
    · split at h
      · exact absurd h (by simp)
      · next w hfold =>
          obtain ⟨-, rfl⟩ := Prod.mk.inj (Option.some.inj h)
          have hw : w.p.doc = u.p.doc ∧ w.p.directory = u.p.directory := by
            refine Runs.foldlM_invariant (I := fun w : Session =>
              w.p.doc = u.p.doc ∧ w.p.directory = u.p.directory) ⟨rfl, rfl⟩ ?_ hfold
            intro x n y _ hx hy
            unfold loadNode at hy
            split_ifs at hy
            · obtain rfl := Option.some.inj hy
              exact hx
            · split at hy
              · exact absurd hy (by simp)
              · obtain rfl := Option.some.inj hy
                exact hx
            · obtain rfl := Option.some.inj hy
              exact hx
          unfold projectLoadNotes
          split
          · exact hw
          · exact hw

/-- The document of a project stays, or is made of the project. -/
def KeepsDoc (s s' : Server) (b : Addr) : Prop :=
  (s'.project b).doc = (s.project b).doc ∨ (s'.project b).doc = none ∨
    ∃ p, (s'.project b).doc = some (projectCreateXml p)

section doc

variable {u : Session} {ok : Bool}

/-- A session that leaves the document of its project. -/
theorem KeepsDoc.of_doc (ht : t.project = s.project) (hu : u.p.doc = (s.project a).doc) :
    s.KeepsDoc (t.setSession a u) b := by
  left
  by_cases hab : b = a
  · subst hab
    rw [setSession_project_self, hu]
  · rw [setSession_project_ne t u hab, ht]

/-- A session that keeps the head of the project it is about. -/
theorem KeepsDoc.of_head (ht : t.project = s.project) (hu : (s.session a).SameHead u) :
    s.KeepsDoc (t.setSession a u) b := by
  by_cases hab : b = a
  · subst hab
    unfold KeepsDoc
    rw [setSession_project_self]
    rcases hu.doc with hdoc | hdoc
    · exact Or.inl hdoc
    · exact Or.inr (Or.inr hdoc)
  · left
    rw [setSession_project_ne t u hab, ht]

/-- A client joins a project that was loaded, or a new one, which has no document. -/
theorem keepsDoc_join (hw : s.Wf)
    (hborn : getNewbornProject { s with g := { s.g with nextAddr := s.g.nextAddr + 1 } }
      = some (t, a)) (hu : (t.session a).SameHead u) : s.KeepsDoc (t.setSession a u) b := by
  rcases getNewbornProject_some hborn with ⟨rfl, -⟩ | hnew
  · exact .of_head rfl (hu.congr rfl)
  · by_cases hab : b = a
    · subst hab
      right
      rw [setSession_project_self]
      have hnone : (t.project b).doc = none := by
        unfold createNewProject at hnew
        split at hnew
        · exact absurd hnew (by simp)
        · obtain ⟨rfl, rfl⟩ := Prod.mk.inj (Option.some.inj hnew)
          exact congrArg Project.doc (setSession_project_self _ _ _)
      rcases hu.doc with hdoc | hdoc
      · exact Or.inl (hdoc.trans hnone)
      · exact Or.inr hdoc
    · left
      rw [setSession_project_ne t u hab, ((hw.newborn hborn).others b hab).1]

theorem projectUnload_doc (v : Session) : (projectUnload v).p.doc = v.p.doc := by
  have hmoved : ∀ w : Session, (unloadMove w).p.doc = w.p.doc := by
    intro w
    unfold unloadMove
    split
    · exact (projectMove_head w _).2.1
    · rfl
  unfold projectUnload unloadRemove
  dsimp only
  split
  · exact hmoved _
  · exact hmoved _

/-- Starting a restore changes no document. -/
theorem startRestore_doc (h : s.startRestore a = some t) :
    (t.project b).doc = (s.project b).doc := by
  obtain ⟨g, lost, -, rfl⟩ := startRestore_some h
  by_cases hab : b = a
  · subst hab
    rw [setSession_project_self]
  · rw [setSession_project_ne _ _ hab]

theorem keepsDoc_restore (ht : s.projectRestore a = some (ok, t)) : s.KeepsDoc t b := by
  unfold projectRestore at ht
  split at ht
  · obtain ⟨-, rfl⟩ := Prod.mk.inj (Option.some.inj ht)
    exact Or.inl rfl
  · split at ht
    · exact absurd ht (by simp)
    · next u hload =>
        obtain ⟨-, rfl⟩ := Prod.mk.inj (Option.some.inj ht)
        exact .of_doc rfl (projectLoad_head hload).1
    · next u hload =>
        have hu := (projectLoad_head hload).1
        dsimp only at ht
        split at ht
        · obtain ⟨v, hv, he⟩ := Option.map_eq_some_iff.mp ht
          obtain ⟨-, rfl⟩ := Prod.mk.inj he
          unfold KeepsDoc
          rw [startRestore_doc hv]
          exact KeepsDoc.of_doc rfl hu
        · split at ht
          · exact absurd ht (by simp)
          · obtain ⟨v, hv, he⟩ := Option.map_eq_some_iff.mp ht
            obtain ⟨-, rfl⟩ := Prod.mk.inj he
            unfold KeepsDoc
            rw [startRestore_doc hv, setSession_setSession]
            refine KeepsDoc.of_doc rfl ?_
            unfold projectRename
            rw [projectSetModifiedStatus_p]
            exact hu

end doc

theorem step_doc (hw : s.Wf) (hs : s.step i = some s') (b : Addr) : s.KeepsDoc s' b := by
  cases step_deed hs with
  | nothing => exact Or.inl rfl
  | children childs => exact Or.inl rfl
  | outside fs forks => exact Or.inl rfl
  | join hi hborn hu => exact keepsDoc_join hw hborn ((projectNewClient_head hu).congr rfl)
  | resume hi ha hc hu => exact .of_head rfl ((clientResumeProject_head hu).congr rfl)
  | leave childs hi ha hc => exact .of_head rfl ((clientDisconnected_head _ _).congr rfl)
  | @complete i a u c ok v hi ha hv =>
      obtain ⟨-, d, -, -, hcase⟩ := reporting_cases hi
      have hu : (s.session a).SameHead u := by
        rcases hcase with ⟨rfl, -⟩ | ⟨_, _, _, _, _, -, -, -, -, -, -, rfl⟩
        · exact .refl _
        · exact Session.put_head _ _
      exact .of_head rfl (hu.trans (clientTaskCompleted_head hv))
  | progress n ha hc => exact .of_head rfl (projectClientProgress_head _ _ _)
  | @save i a hi ha =>
      have hproject : (s.projectSave a).project
          = (s.setSession a (Lash.projectSave (s.session a))).project := by
        unfold projectSave
        dsimp only
        split <;> rfl
      unfold KeepsDoc
      rw [hproject]
      exact KeepsDoc.of_head rfl (projectSave_head _)
  | @close i a hi ha =>
      have hclose : (s.closeProject a).project =
          (Server.setSession { s with loaded := s.loaded.erase a } a
            (projectUnload (s.session a))).project := rfl
      unfold KeepsDoc
      rw [hclose]
      exact KeepsDoc.of_doc rfl (projectUnload_doc _)
  | restore ha hnot hi ht => exact keepsDoc_restore ht
  | depend hi ha hc hd => exact .of_head rfl (Session.put_head _ _)
  | undepend id hi ha hc => exact .of_head rfl (Session.put_head _ _)
  | launch ha hc hd => exact .of_doc rfl rfl
  | rename ha =>
      refine .of_doc rfl ?_
      unfold Lash.projectRename
      rw [projectSetModifiedStatus_p]
      rfl
  | describe ha =>
      refine .of_doc rfl ?_
      unfold Lash.projectSetDescription
      rw [projectSetModifiedStatus_p]
      rfl
  | note ha =>
      refine .of_doc rfl ?_
      unfold Lash.projectSetNotes
      rw [projectSetModifiedStatus_p]
      rfl
  | move hi ha => exact .of_doc rfl (projectMove_head _ _).2.1

theorem DocsRooted.step (h : s.DocsRooted) (hw : s.Wf) (hs : s.step i = some s') :
    s'.DocsRooted := by
  intro b doc hdoc
  rcases step_doc hw hs b with hb | hb | ⟨p, hb⟩
  · exact h b doc (hb ▸ hdoc)
  · rw [hb] at hdoc
    exact absurd hdoc (by simp)
  · rw [hb] at hdoc
    rw [← Option.some.inj hdoc]
    exact rootNode_projectCreateXml p

end Server

/-! ## Closing -/

/-- The target of the move on closing is an entry of the directory of the projects. -/
theorem wayAbove_target {dir name : CStr} {q : Path}
    (h : q ∈ Fs.wayAbove (moveOnCloseTarget dir name)) :
    q ∈ Fs.way dir := by
  obtain ⟨n, hn⟩ := Fs.stem_append (moveOnCloseTarget dir name)
  have hslash : slash ∉ name.map (fun b => if b = slash then 32 else b) := by
    intro hm
    obtain ⟨b, -, hb⟩ := List.mem_map.mp hm
    by_cases hs : b = slash
    · rw [if_pos hs] at hb
      exact absurd hb (by decide)
    · rw [if_neg hs] at hb
      exact hs hb
  rw [moveOnCloseTarget, splitSlash_fqn, splitSlash_of_not_mem hslash] at hn
  rw [← moveOnCloseTarget] at hn
  -- without its last component the target is some part of the directory
  obtain ⟨l, hl⟩ : ∃ l, splitSlash dir = (stem (moveOnCloseTarget dir name)).dropLast ++ l := by
    rcases List.eq_nil_or_concat (stem (moveOnCloseTarget dir name)) with hnil | ⟨cs, c, hcs⟩
    · exact ⟨splitSlash dir, by rw [hnil]; rfl⟩
    · rw [List.concat_eq_append] at hcs
      rw [hcs, List.dropLast_concat]
      rw [hcs, List.append_assoc] at hn
      have hlast : ∀ (xs ys : List CStr) (x y : CStr) (zs : List CStr),
          xs ++ [x] = ys ++ ([y] ++ zs) → ∃ l, xs = ys ++ l := by
        intro xs ys x y zs he
        refine ⟨([y] ++ zs).dropLast, ?_⟩
        have := congrArg List.dropLast he
        rwa [List.dropLast_concat, List.dropLast_append_of_ne_nil (by simp)] at this
      exact hlast _ _ _ _ _ hn
  rw [Fs.way, hl]
  have hmono : ∀ (cs : List CStr) (p : Path), q ∈ cs.scanl walk p → q ∈ (cs ++ l).scanl walk p := by
    intro cs
    induction cs with
    | nil =>
        intro p hq
        rw [List.scanl_nil, List.mem_singleton] at hq
        rw [hq]
        exact Fs.mem_scanl_self p _
    | cons c cs ih =>
        intro p hq
        rw [List.scanl_cons] at hq
        rw [List.cons_append, List.scanl_cons]
        rcases List.mem_cons.mp hq with rfl | hq
        · exact List.mem_cons_self
        · exact List.mem_cons_of_mem _ (ih _ hq)
  exact hmono _ _ h

/-- **A saved project that is closed has its directory**, where it was or where it was moved to. -/
theorem projectUnload_directory {s : Session} (hdoc : s.p.doc.isSome)
    (hdir : s.g.fs.lashDirExists s.p.directory = true)
    (hmove : ∀ old new, DiskOp.rename old new ∈ closeOps s.g.fs s.g.projectsDir s.p →
      ∀ q ∈ Fs.way s.g.projectsDir, ¬ resolve old <+: q) :
    (projectUnload s).g.fs.lashDirExists (projectUnload s).p.directory = true := by
  unfold projectUnload
  dsimp only
  generalize hu : Session.mk _ _ = u
  have hup : u.p = { s.p with clients := [], lostClients := [] } := by rw [← hu]; rfl
  have hug : u.g.fs = s.g.fs ∧ u.g.projectsDir = s.g.projectsDir := by rw [← hu]; exact ⟨rfl, rfl⟩
  have hthere : u.g.fs.lashDirExists u.p.directory = true := by
    rw [hug.1, hup]
    exact hdir
  have hmoved : (unloadMove u).g.fs.lashDirExists (unloadMove u).p.directory = true ∧
      (unloadMove u).p.doc.isSome := by
    unfold unloadMove
    split
    · next hclose =>
        rw [hup] at hclose
        generalize htarget : moveOnCloseTarget u.g.projectsDir u.p.name = target
        have hdocm : (projectMove u target).p.doc.isSome := by
          rw [(projectMove_head u target).2.1, hup]
          exact hdoc
        refine ⟨?_, hdocm⟩
        have hnil : u.p.clients = [] := by rw [hup]
        rcases projectMove_of_no_clients hnil target with ⟨hfs, hd⟩ | ⟨htries, hok, hfs, hd⟩
        · rw [hd, Fs.lashDirExists_of_entries hfs]
          exact hthere
        · have hop : DiskOp.rename u.p.directory target ∈
              closeOps s.g.fs s.g.projectsDir s.p := by
            have hfree := htries.2.2.1
            rw [hug.1, ← htarget, hug.2, hup] at hfree
            rw [← htarget, hug.2, hup]
            unfold closeOps
            rw [if_pos ⟨hclose, hfree⟩]
            exact List.mem_append_left _ (List.mem_singleton.mpr rfl)
          rw [hfs, hd]
          rw [← Fs.lashDirExists_of_entries (Fs.next_entries u.g.fs)] at hthere
          apply Fs.lashDirExists_rename hok hthere
          intro q hq
          rw [← htarget, hug.2] at hq
          exact hmove _ _ hop q (wayAbove_target hq)
    · refine ⟨hthere, ?_⟩
      rw [hup]
      exact hdoc
  obtain ⟨hthere', hdoc'⟩ := hmoved
  unfold unloadRemove
  rw [if_neg]
  · exact hthere'
  · rintro ⟨hnone, -⟩
    rw [Option.isNone_iff_eq_none] at hnone
    rw [hnone] at hdoc'
    simp at hdoc'

/-! ## What can be loaded -/

/-- What loading a project takes for granted: a document with a root, and the directory. -/
structure Project.Complete (p : Project) (fs : Fs) : Prop where
  doc : ∃ doc, p.doc = some doc ∧ (rootNode doc).isSome
  directory : fs.lashDirExists p.directory = true

namespace Server

variable {s s' t : Server} {a b : Addr} {i : Input}

/-- Every project that is offered for loading can be loaded. -/
def Loadable (s : Server) : Prop := ∀ a ∈ s.all, a ∉ s.loaded → (s.project a).Complete s.g.fs

/-- An input that leaves what is offered complete. -/
structure Spares (s : Server) (i : Input) : Prop where
  /-- No project is closed between the begin and the end of its first save, or when its directory is
  not there. -/
  closing : ∀ a, s.closing i = some a → a ∈ s.all →
    (s.project a).doc.isSome ∧ s.g.fs.lashDirExists (s.project a).directory = true
  /-- A project that is moved on closing does not hold the directory of the projects. -/
  moving : ∀ a, s.closing i = some a → a ∈ s.all → ∀ old new,
    DiskOp.rename old new ∈ closeOps s.g.fs s.g.projectsDir (s.project a) →
      ∀ q ∈ Fs.way s.g.projectsDir, ¬ resolve old <+: q
  /-- What is removed or moved does not hold the directory of a project that is offered. -/
  others : ∀ b ∈ s.all, b ∉ s.loaded → ∀ q ∈ Fs.way (s.project b).directory,
    ∀ o, s.MayDo i o → ¬ o.Clears q
  outside : ∀ fs forks, i = .outside fs forks → ∀ b ∈ s.all, b ∉ s.loaded →
    fs.lashDirExists (s.project b).directory = true

/-- The step that keeps it. -/
theorem Loadable.step (h : s.Loadable) (hdocs : s.DocsRooted) (hstores : s.StoresOk) (hw : s.Wf)
    (hi : s.Spares i) (hs : s.step i = some s') : s'.Loadable := by
  intro b hb hn
  obtain ⟨hall, ⟨hnot, hproject⟩ | ⟨hclosing, hloaded, rfl⟩⟩ := step_offered hw hs hb hn
  · obtain ⟨hdoc, hdir⟩ := h b hall hnot
    refine ⟨by rw [hproject]; exact hdoc, ?_⟩
    rw [hproject, Fs.lashDirExists_iff]
    -- what is on the way to the directory stays
    have hkept : Kept (s.MayDo i)
        (fun fs => ∀ q ∈ Fs.way (s.project b).directory, fs.isDir q = true)
        (fun _ _ st => st.Ok) := by
      refine ⟨?_, id, ?_, fun _ _ => (storeOpen_spec _ _).1⟩
      · intro fs o ho hfs q hq
        exact DiskOp.isDir_run (hi.others b hall hnot q hq o ho) (hfs q hq)
      · exact fun hfs hst => ⟨fun q hq => hst.isDir_write (hfs q hq), hst.write _⟩
    refine (step_has hkept hw ⟨Fs.lashDirExists_iff.mp hdir, hstores.live, hstores.lost⟩
      (fun a u c ok hr => hstores.reporting hr) ?_ hs).disk
    exact fun fs forks he => Fs.lashDirExists_iff.mp (hi.outside fs forks he b hall hnot)
  · obtain ⟨hdoc, hdir⟩ := hi.closing b hclosing hall
    have hafter := projectUnload_directory (s := s.session b) hdoc hdir (hi.moving b hclosing hall)
    have hdocs' := hdocs.step hw hs
    have hp : (s.closeProject b).project b = (projectUnload (s.session b)).p :=
      setSession_project_self _ _ _
    have hsome : ((s.closeProject b).project b).doc.isSome := by
      rw [hp]
      unfold projectUnload unloadRemove
      dsimp only
      have hmoved : ∀ v : Session, (unloadMove v).p.doc = v.p.doc := by
        intro v
        unfold unloadMove
        split
        · exact (projectMove_head v _).2.1
        · rfl
      split
      · rw [show ∀ (v : Session) fs, (v.setFs fs).p = v.p from fun _ _ => rfl, hmoved]
        exact hdoc
      · rw [hmoved]
        exact hdoc
    obtain ⟨doc, hd⟩ := Option.isSome_iff_exists.mp hsome
    refine ⟨⟨doc, hd, hdocs' b doc hd⟩, ?_⟩
    rw [hp]
    exact hafter

/-- A project that is found on the disk can be loaded. -/
theorem projectNewFromDisk_complete {fs : Fs} {addr : Addr} {parent dir : CStr} {p : Project}
    (h : projectNewFromDisk fs addr parent dir = some p) : p.Complete fs := by
  have hheader : ∀ (ns : List XmlNode) (q : Project),
      (ns.foldl headerNode q).doc = q.doc ∧ (ns.foldl headerNode q).directory = q.directory := by
    intro ns
    induction ns with
    | nil => exact fun q => ⟨rfl, rfl⟩
    | cons n ns ih =>
        intro q
        rw [List.foldl_cons]
        obtain ⟨hd, hdir⟩ := ih (headerNode q n)
        rw [hd, hdir]
        unfold headerNode
        split
        · exact ⟨rfl, rfl⟩
        · split <;> exact ⟨rfl, rfl⟩
  unfold projectNewFromDisk at h
  dsimp only at h
  split at h
  · exact absurd h (by simp)
  · split at h
    · exact absurd h (by simp)
    · next hinfo =>
        split at h
        · exact absurd h (by simp)
        · next doc _ =>
            split at h
            · exact absurd h (by simp)
            · next root hroot =>
                obtain rfl := Option.some.inj h
                obtain ⟨hd, hdir⟩ := hheader root.children { projectNew addr with
                  name := dir, directory := lashGetFqn parent dir, doc := some doc }
                refine ⟨⟨doc, hd, by rw [hroot]; rfl⟩, ?_⟩
                rw [hdir]
                show fs.lashDirExists (lashGetFqn parent dir) = true
                rw [not_not, Fs.lashFileExists, Fs.lookup] at hinfo
                rw [← Fs.reaches_fqn fs (f := projectInfoFile) _ (by decide)]
                by_contra hreach
                rw [if_neg hreach] at hinfo
                simp at hinfo

/-- What the daemon offers when it starts can be loaded. -/
theorem start_loadable (fs : Fs)
    (dir : CStr) : (start fs dir).Loadable ∧ (start fs dir).DocsRooted := by
  have hfill : ∀ (ds : List CStr) (s : Server), s.loaded = [] → (∀ a ∈ s.all, a < s.g.nextAddr) →
      s.Loadable ∧ s.DocsRooted → (s.fillProjects ds).Loadable ∧
        (s.fillProjects ds).DocsRooted := by
    intro ds
    induction ds with
    | nil => exact fun s _ _ h => h
    | cons d ds ih =>
        intro s hloaded hall h
        rw [fillProjects]
        split
        · exact ih s hloaded hall h
        · next p hp =>
            have hc := projectNewFromDisk_complete hp
            refine ih _ hloaded ?_ ⟨?_, ?_⟩
            · intro a ha
              rcases List.mem_append.mp ha with ha | ha
              · exact Nat.lt_succ_of_lt (hall a ha)
              · rw [List.mem_singleton.mp ha]
                exact Nat.lt_succ_self _
            · intro a ha hn
              by_cases hne : a = s.g.nextAddr
              · subst hne
                dsimp only
                rw [Function.update_self]
                exact hc
              · dsimp only
                rw [Function.update_of_ne hne]
                rcases List.mem_append.mp ha with ha | ha
                · exact h.1 a ha (by rw [hloaded]; exact List.not_mem_nil)
                · exact absurd (List.mem_singleton.mp ha) hne
            · intro a doc hdoc
              by_cases hne : a = s.g.nextAddr
              · subst hne
                dsimp only at hdoc
                rw [Function.update_self] at hdoc
                obtain ⟨⟨doc', hd, hroot⟩, -⟩ := hc
                rw [hdoc] at hd
                rw [Option.some.inj hd]
                exact hroot
              · dsimp only at hdoc
                rw [Function.update_of_ne hne] at hdoc
                exact h.2 a doc hdoc
  refine hfill _ _ rfl (by simp) ⟨?_, ?_⟩
  · intro a ha
    exact absurd ha List.not_mem_nil
  · intro a doc hdoc
    exact absurd hdoc (by simp [projectNew])

/-- **Every project that is offered can be loaded** in every run that closes no project in the
middle of its first save and spares the directories of the projects that are offered. -/
theorem offered_can_be_loaded {fs : Fs} {dir : CStr}
    (h : Reachable Spares fs dir t) : t.Loadable := by
  have hs := start_starting fs dir
  have hstart := start_loadable fs dir
  refine (h.invariant (I := fun t => (t.Wf ∧ t.StoresOk) ∧ t.DocsRooted ∧ t.Loadable)
    ⟨⟨hs.wf, hs.has trivial _⟩, hstart.2, hstart.1⟩ ?_).2.2
  rintro t i u _ ⟨⟨hw, hst⟩, hdocs, hl⟩ hi htu
  exact ⟨⟨(hw.step_answers htu).wf hw, hst.step hw htu⟩, hdocs.step hw htu,
    hl.step hdocs hst hw hi htu⟩

/-- The plain case: nothing is offered that is not loaded, and what is closed has been saved, stands
on the disk, and keeps its name. -/
def SavedFirst (s : Server) (i : Input) : Prop :=
  (∀ b ∈ s.all, b ∈ s.loaded) ∧ (s.closing i).all (fun a => (s.project a).doc.isSome &&
    !(s.project a).moveOnClose && s.g.fs.lashDirExists (s.project a).directory) = true

instance (s : Server) (i : Input) : Decidable (s.SavedFirst i) :=
  inferInstanceAs (Decidable (_ ∧ _))

theorem SavedFirst.spares (h : s.SavedFirst i) : s.Spares i := by
  obtain ⟨hall, hclose⟩ := h
  have hthere : ∀ a, s.closing i = some a → ((s.project a).doc.isSome = true ∧
      (s.project a).moveOnClose = false) ∧
      s.g.fs.lashDirExists (s.project a).directory = true := by
    intro a ha
    rw [ha, Option.all_some, Bool.and_eq_true, Bool.and_eq_true, Bool.not_eq_true'] at hclose
    exact hclose
  refine ⟨fun a ha _ => ⟨(hthere a ha).1.1, (hthere a ha).2⟩, ?_,
    fun b hb hn => absurd (hall b hb) hn, fun _ _ _ b hb hn => absurd (hall b hb) hn⟩
  intro a ha _ old new hop
  obtain ⟨⟨hdoc, hmove⟩, -⟩ := hthere a ha
  simp [closeOps, hmove, Option.isSome_iff_ne_none.mp hdoc] at hop

/-- A project is closed while its first save goes on. It stays on the list without a document, and
loading it is the end of the daemon. -/
theorem offered_without_document :
    ∃ s, Reachable FreshId emptyDisk (cstr "/p") s ∧ ¬ s.Loadable ∧
      s.step (.projectOpen (cstr "New Project")) = none := by
  have hrun : (runFrom FreshId
      [.connect (cstr ":1") 5 (cstr "synth") flagConfigFile [] [cstr "synth"] 1,
        .projectSave (cstr "New Project"),
        .projectClose (cstr "New Project")]).any
      (fun s => 1 ∈ s.all && 1 ∉ s.loaded && (s.project 1).doc.isNone &&
        (s.step (.projectOpen (cstr "New Project"))).isNone) = true := by
    decide +kernel
  obtain ⟨s, hs, hbad⟩ := exists_of_runFrom hrun
  simp only [Bool.and_eq_true, decide_eq_true_eq, Option.isNone_iff_eq_none] at hbad
  obtain ⟨⟨⟨hall, hnot⟩, hnone⟩, hcrash⟩ := hbad
  refine ⟨s, hs, ?_, hcrash⟩
  intro hl
  obtain ⟨doc, hdoc, -⟩ := (hl 1 hall hnot).doc
  rw [hnone] at hdoc
  simp at hdoc

/-- A project is saved to the end, then closed, and is offered. -/
theorem offered_after_save :
    ∃ s, Reachable Spares emptyDisk (cstr "/p") s ∧ s.Loadable ∧ 1 ∈ s.all ∧ 1 ∉ s.loaded := by
  have hrun : (runFrom SavedFirst
      [.connect (cstr ":1") 5 (cstr "synth") flagConfigFile [] [cstr "synth"] 1,
        .projectSave (cstr "New Project"),
        .progress (cstr ":1") [.uint64 1, .byte 255],
        .projectClose (cstr "New Project")]).any
      (fun s => 1 ∈ s.all && 1 ∉ s.loaded) = true := by
    decide +kernel
  obtain ⟨s, hs, hoffered⟩ := exists_of_runFrom hrun
  rw [Bool.and_eq_true, decide_eq_true_eq, decide_eq_true_eq] at hoffered
  have hs' : Reachable Spares emptyDisk (cstr "/p") s := hs.mono (fun _ _ h => h.spares)
  exact ⟨s, hs', offered_can_be_loaded hs', hoffered⟩

end Server

end Lash
