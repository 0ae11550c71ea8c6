import Lash.DiskOps

/-!
# What a project says about itself

The name, the directory, the description and the notes of a project change only where a function is
there to change them. Everything else a project does leaves them alone (`Session.SameHead`), and
leaves its document alone or makes a new one of the project.
-/

namespace Lash

/-- `t` differs from `s` neither in what the project is called nor in where it is and what it says
about itself, and has its document or one that `project_create_xml` made. -/
structure Session.SameHead (s t : Session) : Prop where
  name : t.p.name = s.p.name
  moveOnClose : t.p.moveOnClose = s.p.moveOnClose
  directory : t.p.directory = s.p.directory
  description : t.p.description = s.p.description
  notes : t.p.notes = s.p.notes
  doc : t.p.doc = s.p.doc ∨ ∃ p, t.p.doc = some (projectCreateXml p)

namespace Session.SameHead

variable {s t u : Session}

theorem refl (s : Session) : s.SameHead s := ⟨rfl, rfl, rfl, rfl, rfl, Or.inl rfl⟩

theorem trans (h : s.SameHead t) (h' : t.SameHead u) : s.SameHead u where
  name := h'.name.trans h.name
  moveOnClose := h'.moveOnClose.trans h.moveOnClose
  directory := h'.directory.trans h.directory
  description := h'.description.trans h.description
  notes := h'.notes.trans h.notes
  doc := by
    rcases h'.doc with hdoc | hdoc
    · rw [hdoc]
      exact h.doc
    · exact Or.inr hdoc

theorem emit (h : s.SameHead t) (e : Event) : s.SameHead (t.emit e) :=
  ⟨h.name, h.moveOnClose, h.directory, h.description, h.notes, h.doc⟩

/-- What matters of a session is its project. -/
theorem congr (h : s.SameHead t) (hp : u.p = s.p) : u.SameHead t := by
  refine ⟨?_, ?_, ?_, ?_, ?_, ?_⟩ <;> rw [hp]
  · exact h.name
  · exact h.moveOnClose
  · exact h.directory
  · exact h.description
  · exact h.notes
  · exact h.doc

end Session.SameHead

/-- What setting the flag leaves of a project. -/
theorem projectSetModifiedStatus_p (s : Session) (b : Bool) :
    (projectSetModifiedStatus s b).p = { s.p with modifiedStatus := b } := by
  unfold projectSetModifiedStatus
  split
  · next h => rw [← h]
  · rfl

variable {s t : Session} {c d : Client}

theorem Session.sameHead_of_eq (h : t.p = s.p) : s.SameHead t := by
  refine ⟨?_, ?_, ?_, ?_, ?_, Or.inl ?_⟩ <;> rw [h]

theorem Session.put_head (s : Session) (c : Client) : s.SameHead (s.put c) :=
  ⟨rfl, rfl, rfl, rfl, rfl, Or.inl rfl⟩

theorem projectSetModifiedStatus_head (s : Session) (b : Bool) :
    s.SameHead (projectSetModifiedStatus s b) := by
  unfold projectSetModifiedStatus
  split
  · exact .refl s
  · exact ⟨rfl, rfl, rfl, rfl, rfl, Or.inl rfl⟩

theorem projectClientProgress_head (s : Session) (c : Client) (n : Nat) :
    s.SameHead (projectClientProgress s c n).1 := by
  unfold projectClientProgress
  dsimp only
  split <;> exact ⟨rfl, rfl, rfl, rfl, rfl, Or.inl rfl⟩

theorem projectWriteInfo_head (s : Session) : s.SameHead (projectWriteInfo s).2 := by
  unfold projectWriteInfo
  dsimp only
  split <;> exact ⟨rfl, rfl, rfl, rfl, rfl, Or.inr ⟨s.p, rfl⟩⟩

theorem projectClientsSaveComplete_head (s : Session) :
    s.SameHead (projectClientsSaveComplete s) := by
  unfold projectClientsSaveComplete
  refine (projectWriteInfo_head s).trans ?_
  exact Session.SameHead.trans (t := (Session.emit _ _).emit _) (Session.sameHead_of_eq rfl)
    (projectSetModifiedStatus_head _ false)

theorem projectLoaded_head (s : Session) : s.SameHead (projectLoaded s) := by
  unfold projectLoaded
  exact Session.SameHead.trans (t := (Session.emit _ _).emit _) (Session.sameHead_of_eq rfl)
    (projectSetModifiedStatus_head _ false)

theorem projectTaskFinished_head (s : Session) (c : Client) :
    s.SameHead (projectTaskFinished s c) := by
  unfold projectTaskFinished
  dsimp only
  generalize hu : Session.mk _ _ = u
  have hsu : s.SameHead u := by
    rw [← hu]
    exact ⟨rfl, rfl, rfl, rfl, rfl, Or.inl rfl⟩
  cases c.taskType with
  | saveDataSet => exact hsu.trans (projectClientsSaveComplete_head u)
  | saveFile => exact hsu.trans (projectClientsSaveComplete_head u)
  | restoreFile => exact hsu.trans (projectLoaded_head u)
  | restoreDataSet => exact hsu.trans (projectLoaded_head u)
  | unknown => exact hsu

theorem projectCountDown_head (s : Session) (c : Client) : s.SameHead (projectCountDown s c) := by
  unfold projectCountDown
  split
  · exact .refl s
  · dsimp only
    split
    · refine Session.SameHead.trans ?_ (projectTaskFinished_head _ c)
      exact ⟨rfl, rfl, rfl, rfl, rfl, Or.inl rfl⟩
    · exact ⟨rfl, rfl, rfl, rfl, rfl, Or.inl rfl⟩

theorem projectClientTaskCompleted_head (s : Session) (c : Client) :
    s.SameHead (projectClientTaskCompleted s c).1 :=
  (projectClientProgress_head s c 100).trans (projectCountDown_head _ _)

theorem clientFinishTask_head {ok : Bool} (h : clientFinishTask s c ok = some (t, d)) :
    s.SameHead t := by
  have hsame : some (s, c) = some (t, d) → s.SameHead t := by
    intro he
    obtain ⟨rfl, -⟩ := Prod.mk.inj (Option.some.inj he)
    exact .refl s
  have hsatisfy : (projectSatisfyClientDependency s c).map (fun s => (s, c)) = some (t, d) →
      s.SameHead t := by
    intro hf
    obtain ⟨u, hu, he⟩ := Option.map_eq_some_iff.mp hf
    obtain ⟨rfl, -⟩ := Prod.mk.inj he
    obtain ⟨r, -, rfl⟩ := Option.map_eq_some_iff.mp hu
    exact ⟨rfl, rfl, rfl, rfl, rfl, Or.inl rfl⟩
  unfold clientFinishTask at h
  split at h
  · split at h
    · split at h
      · exact absurd h (by simp)
      · obtain ⟨rfl, -⟩ := Prod.mk.inj (Option.some.inj h)
        exact Session.sameHead_of_eq rfl
    · obtain ⟨rfl, -⟩ := Prod.mk.inj (Option.some.inj h)
      exact .refl s
    · exact hsatisfy h
    · exact hsatisfy h
    · exact hsame h
  · exact hsame h

theorem clientTaskCompleted_head {ok : Bool} (h : clientTaskCompleted s c ok = some t) :
    s.SameHead t := by
  unfold clientTaskCompleted at h
  dsimp only at h
  split at h
  · rw [← Option.some.inj h]
    exact ⟨rfl, rfl, rfl, rfl, rfl, Or.inl rfl⟩
  · obtain ⟨⟨u, d⟩, hf, rfl⟩ := Option.map_eq_some_iff.mp h
    have hemit : ∀ e, s.SameHead (s.emit e) := fun e => Session.sameHead_of_eq rfl
    exact (((hemit _).trans (clientFinishTask_head hf)).trans
      (projectClientTaskCompleted_head u d)).trans (Session.put_head _ _)

/-! ## Clients that join, leave and return -/

theorem projectNewClient_head {id : Uuid} (h : projectNewClient s c id = some t) :
    s.SameHead t := by
  unfold projectNewClient at h
  rcases newClientPrepare s.p s.g.fs c id with ⟨d, fs⟩
  dsimp only at h
  split at h
  · exact absurd h (by simp)
  · next e _ =>
      rw [← Option.some.inj h]
      apply Session.SameHead.emit
      refine Session.SameHead.trans ?_ (projectSetModifiedStatus_head _ true)
      exact ⟨rfl, rfl, rfl, rfl, rfl, Or.inl rfl⟩

theorem clientDisconnected_head (s : Session)
    (c : Client) : s.SameHead (clientDisconnected s c) := by
  unfold clientDisconnected projectLoseClient
  dsimp only
  apply Session.SameHead.emit
  refine Session.SameHead.trans ?_ (projectSetModifiedStatus_head _ true)
  exact ⟨rfl, rfl, rfl, rfl, rfl, Or.inl rfl⟩

theorem resumeLoad_head {b : Bool} (h : resumeLoad s c = some (t, d, b)) : t.p = s.p := by
  unfold resumeLoad at h
  split at h
  · split at h
    · simp only [Option.some.injEq, Prod.mk.injEq] at h
      rw [← h.1]
      rfl
    · split at h
      · obtain ⟨⟨u, e⟩, hu, he⟩ := Option.map_eq_some_iff.mp h
        simp only [Prod.mk.injEq] at he
        rw [← he.1]
        unfold projectLoadDataSet at hu
        generalize clientStoreOpen s.g.fs c (projectGetClientConfigDir s.p c) = r at hu
        obtain ⟨ok, f, fs⟩ := r
        dsimp only at hu
        split at hu
        · exact absurd hu (by simp)
        · split at hu
          · rw [← (Prod.mk.inj (Option.some.inj hu)).1]
            rfl
          · split at hu
            · rw [← (Prod.mk.inj (Option.some.inj hu)).1]
              rfl
            · split at hu
              · exact absurd hu (by simp)
              · rw [← (Prod.mk.inj (Option.some.inj hu)).1]
                rfl
              · rw [← (Prod.mk.inj (Option.some.inj hu)).1]
                rfl
      · simp only [Option.some.injEq, Prod.mk.injEq] at h
        rw [h.1]
  · simp only [Option.some.injEq, Prod.mk.injEq] at h
    rw [h.1]

theorem clientResumeProject_head (h : clientResumeProject s c = some t) : s.SameHead t := by
  have hprep : s.SameHead (resumePrepare s c).1 := ⟨rfl, rfl, rfl, rfl, rfl, Or.inl rfl⟩
  unfold clientResumeProject at h
  rcases hp : resumePrepare s c with ⟨u, d⟩
  rw [hp] at hprep h
  dsimp only at hprep h
  split at h
  · exact absurd h (by simp)
  · next v e stateless hload =>
      have hv := hprep.trans (Session.sameHead_of_eq (resumeLoad_head hload))
      split at h
      · exact absurd h (by simp)
      · next f _ =>
          have hjoined : v.SameHead ((Session.put { v with
              p := { v.p with clients := e :: v.p.clients } } f).emit
                (.clientAppeared v.p.addr f.idStr v.p.name (f.name.getD []))) :=
            ⟨rfl, rfl, rfl, rfl, rfl, Or.inl rfl⟩
          split at h
          · rw [← Option.some.inj h]
            unfold resumeStateless
            exact (((hv.trans hjoined).trans (Session.put_head _ _)).trans
              (projectClientTaskCompleted_head _ _)).trans (Session.put_head _ _)
          · rw [← Option.some.inj h]
            exact hv.trans hjoined

/-! ## Saving and closing -/

theorem projectSaveClients_head (s : Session) : s.SameHead (projectSaveClients s) := by
  unfold projectSaveClients
  split
  · exact .refl s
  · exact ⟨rfl, rfl, rfl, rfl, rfl, Or.inl rfl⟩

theorem projectSaveStart_head (s : Session) : s.SameHead (projectSaveStart s) := by
  unfold projectSaveStart
  dsimp only
  generalize hu : Session.setFs ((s.emit _).emit _) _ = u
  have hsu : s.SameHead u := by
    rw [← hu]
    exact Session.sameHead_of_eq rfl
  have hnotes : ∀ v : Session, v.SameHead (projectSaveNotes v).2 := by
    intro v
    rw [projectSaveNotes_eq]
    exact Session.sameHead_of_eq rfl
  exact ((hsu.trans (projectSaveClients_head u)).trans (hnotes _)).trans
    ⟨rfl, rfl, rfl, rfl, rfl, Or.inl rfl⟩

theorem projectSave_head (s : Session) : s.SameHead (projectSave s) := by
  unfold projectSave
  split
  · exact .refl s
  · dsimp only
    split
    · exact (projectSaveStart_head s).trans (projectClientsSaveComplete_head _)
    · exact projectSaveStart_head s

/-- A project without clients is moved by renaming its directory. -/
theorem moveProject_of_no_clients {s : Session} (hc : s.p.clients = []) (dir : CStr) :
    (moveProject s dir).g.fs = (s.g.fs.rename s.p.directory dir).2 ∧
      (moveProject s dir).p.directory =
        if (s.g.fs.rename s.p.directory dir).1 then dir else s.p.directory := by
  rw [moveProject, hc, closeStores]
  dsimp only
  rcases s.g.fs.rename s.p.directory dir with ⟨_ | _, fs⟩
  · exact ⟨rfl, rfl⟩
  · exact ⟨rfl, rfl⟩

theorem projectMove_of_no_clients {s : Session} (hc : s.p.clients = []) (dir : CStr) :
    (projectMove s dir).g.fs.entries = s.g.fs.entries ∧
        (projectMove s dir).p.directory = s.p.directory ∨
      s.TriesMove dir ∧ (s.g.fs.next.rename s.p.directory dir).1 = true ∧
        (projectMove s dir).g.fs = (s.g.fs.next.rename s.p.directory dir).2 ∧
        (projectMove s dir).p.directory = dir := by
  rcases projectMove_cases s dir with ⟨-, h | h⟩ | ⟨htries, h⟩
  · rw [h]
    exact Or.inl ⟨rfl, rfl⟩
  · rw [h]
    exact Or.inl ⟨rfl, rfl⟩
  · obtain ⟨hfs, hdir⟩ := @moveProject_of_no_clients (s.setFs s.g.fs.next) hc dir
    change _ = (s.g.fs.next.rename s.p.directory dir).2 at hfs
    change _ = if (s.g.fs.next.rename s.p.directory dir).1 then dir else s.p.directory at hdir
    rw [h, hfs, hdir]
    by_cases hok : (s.g.fs.next.rename s.p.directory dir).1 = true
    · exact Or.inr ⟨htries, hok, rfl, if_pos hok⟩
    · left
      rw [if_neg hok, Fs.rename_false (Bool.eq_false_iff.mpr hok)]
      exact ⟨rfl, rfl⟩

end Lash
