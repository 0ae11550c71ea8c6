import Lash.Changes
import Lash.SaveProtocol
import Lash.Delivered

/-!
# What clears the modified status

A project that counts as modified does so until a task of it is complete, or until it is loaded
again: nothing else the daemon does clears the status (`Server.step_clears`). `Server.Announces`
says, of the state before a step, when the step completes a save, and `Server.AnnouncesLoad` when
it completes a load.
-/

namespace Lash

variable {s t : Session} {c d : Client}

/-! ## Functions that clear nothing -/

@[simp] theorem projectSetModifiedStatus_modified (s : Session) (b : Bool) :
    (projectSetModifiedStatus s b).p.modifiedStatus = b := by
  rw [projectSetModifiedStatus_p]

@[simp] theorem Session.emit_p (s : Session) (e : Event) : (s.emit e).p = s.p := rfl

@[simp] theorem projectClientProgress_modified (s : Session) (c : Client) (n : Nat) :
    (projectClientProgress s c n).1.p.modifiedStatus = s.p.modifiedStatus := by
  unfold projectClientProgress
  dsimp only
  split <;> rfl

theorem projectNewClient_modified {id : Uuid} (h : projectNewClient s c id = some t) :
    t.p.modifiedStatus = true := by
  unfold projectNewClient at h
  dsimp only at h
  split at h
  · exact absurd h (by simp)
  · rw [← Option.some.inj h]
    simp

theorem clientDisconnected_modified (s : Session) (c : Client) :
    (clientDisconnected s c).p.modifiedStatus = true := by
  unfold clientDisconnected projectLoseClient
  simp

theorem projectMove_modified (s : Session) (dir : CStr) :
    (projectMove s dir).p.modifiedStatus = s.p.modifiedStatus := by
  obtain ⟨d, l, -, hp⟩ := projectMove_fields s dir
  rw [hp]

theorem projectUnload_modified (s : Session) :
    (projectUnload s).p.modifiedStatus = s.p.modifiedStatus := by
  have hmove : ∀ u : Session, (unloadMove u).p.modifiedStatus = u.p.modifiedStatus := by
    intro u
    unfold unloadMove
    split
    · exact projectMove_modified u _
    · rfl
  have hremove : ∀ u : Session, (unloadRemove u).p.modifiedStatus = u.p.modifiedStatus := by
    intro u
    unfold unloadRemove
    split <;> rfl
  unfold projectUnload
  dsimp only
  rw [hremove, hmove]
  rfl

@[simp] theorem projectSaveClients_modified (s : Session) :
    (projectSaveClients s).p.modifiedStatus = s.p.modifiedStatus := by
  unfold projectSaveClients
  dsimp only
  split <;> rfl

theorem projectSaveStart_modified (s : Session) :
    (projectSaveStart s).p.modifiedStatus = s.p.modifiedStatus := by
  unfold projectSaveStart projectClearLostClients
  dsimp only [Session.setFs]
  rw [projectSaveNotes_p]
  simp

/-! ## The end of a task -/

theorem projectClientsSaveComplete_modified (s : Session) :
    (projectClientsSaveComplete s).p.modifiedStatus = false := by
  unfold projectClientsSaveComplete
  simp

theorem projectTaskFinished_modified (s : Session) (c : Client) :
    (projectTaskFinished s c).p.modifiedStatus =
      if c.taskType = .unknown then s.p.modifiedStatus else false := by
  unfold projectTaskFinished
  cases c.taskType with
  | saveDataSet | saveFile => exact projectClientsSaveComplete_modified _
  | restoreFile | restoreDataSet => exact projectSetModifiedStatus_modified _ false
  | unknown => rfl

/-- The last client of a task clears the status, if it has a task itself. -/
theorem projectClientTaskCompleted_modified (s : Session) (c : Client) :
    (projectClientTaskCompleted s c).1.p.modifiedStatus =
      if s.p.clientTasksPending = 1 ∧ c.taskType ≠ .unknown then false else s.p.modifiedStatus := by
  have hpending : (projectClientProgress s c 100).1.p.clientTasksPending =
      s.p.clientTasksPending := by
    unfold projectClientProgress
    dsimp only
    split <;> rfl
  have htype : (projectClientProgress s c 100).2.taskType = c.taskType := by
    unfold projectClientProgress
    dsimp only
    split <;> rfl
  have hmodified := projectClientProgress_modified s c 100
  unfold projectClientTaskCompleted
  generalize projectClientProgress s c 100 = r at hpending htype hmodified ⊢
  obtain ⟨u, d⟩ := r
  dsimp only at hpending htype hmodified ⊢
  unfold projectCountDown
  dsimp only
  rw [hpending]
  by_cases h0 : s.p.clientTasksPending = 0
  · rw [if_pos h0, if_neg (by omega)]
    exact hmodified
  · rw [if_neg h0]
    by_cases h1 : s.p.clientTasksPending = 1
    · rw [if_pos (by omega), projectTaskFinished_modified, htype]
      by_cases hty : c.taskType = .unknown
      · rw [if_pos hty, if_neg (fun h => h.2 hty)]
        exact hmodified
      · rw [if_neg hty, if_pos ⟨h1, hty⟩]
    · rw [if_neg (by omega), if_neg (fun h => h1 h.1)]
      exact hmodified

/-- What a client does for its own task clears nothing, and does not count. -/
theorem clientFinishTask_modified {ok : Bool} (h : clientFinishTask s c ok = some (t, d)) :
    t.p.modifiedStatus = s.p.modifiedStatus ∧ t.p.clientTasksPending = s.p.clientTasksPending ∧
      d.taskType = c.taskType := by
  have hsatisfy : (projectSatisfyClientDependency s c).map (fun s => (s, c)) = some (t, d) →
      t.p.modifiedStatus = s.p.modifiedStatus ∧ t.p.clientTasksPending = s.p.clientTasksPending ∧
        d.taskType = c.taskType := by
    intro hf
    obtain ⟨u, hu, he⟩ := Option.map_eq_some_iff.mp hf
    obtain ⟨rfl, rfl⟩ := Prod.mk.inj he
    obtain ⟨r, -, rfl⟩ := Option.map_eq_some_iff.mp hu
    exact ⟨rfl, rfl, rfl⟩
  unfold clientFinishTask at h
  split at h
  · split at h
    · split at h
      · exact absurd h (by simp)
      · obtain ⟨rfl, rfl⟩ := Prod.mk.inj (Option.some.inj h)
        exact ⟨rfl, rfl, rfl⟩
    · obtain ⟨rfl, rfl⟩ := Prod.mk.inj (Option.some.inj h)
      exact ⟨rfl, rfl, rfl⟩
    · exact hsatisfy h
    · exact hsatisfy h
    · obtain ⟨rfl, rfl⟩ := Prod.mk.inj (Option.some.inj h)
      exact ⟨rfl, rfl, rfl⟩
  · obtain ⟨rfl, rfl⟩ := Prod.mk.inj (Option.some.inj h)
    exact ⟨rfl, rfl, rfl⟩

theorem clientTaskCompleted_modified {ok : Bool} (h : clientTaskCompleted s c ok = some t) :
    t.p.modifiedStatus =
      if s.p.clientTasksPending = 1 ∧ c.taskType ≠ .unknown then false else s.p.modifiedStatus := by
  unfold clientTaskCompleted at h
  dsimp only at h
  split at h
  · next hty =>
      rw [← Option.some.inj h, if_neg (fun h => h.2 hty)]
      rfl
  · next hty =>
      obtain ⟨⟨u, d⟩, hf, rfl⟩ := Option.map_eq_some_iff.mp h
      obtain ⟨hm, hp, ht⟩ := clientFinishTask_modified hf
      have hcount := projectClientTaskCompleted_modified u d
      rw [hp, ht, hm] at hcount
      exact hcount

/-! ## Clients that are back -/

/-- A client that is back clears the status if it is taken for a stateless one, and is the last of a
task. -/
theorem clientResumeProject_modified (h : clientResumeProject s c = some t) :
    t.p.modifiedStatus =
      if s.p.clientTasksPending = 1 ∧ resumeAnswer s c = .stateless then false
      else s.p.modifiedStatus := by
  unfold clientResumeProject at h
  unfold resumeAnswer
  have hprep : (resumePrepare s c).1.p.modifiedStatus = s.p.modifiedStatus ∧
      (resumePrepare s c).1.p.clientTasksPending = s.p.clientTasksPending := ⟨rfl, rfl⟩
  generalize resumePrepare s c = r at h hprep ⊢
  obtain ⟨u, d⟩ := r
  obtain ⟨hmodified, hpending⟩ := hprep
  dsimp only at h hmodified hpending ⊢
  split at h
  · exact absurd h (by simp)
  · next w e stateless hload =>
      obtain ⟨hp, hanswer⟩ := resumeLoad_spec hload
      split at h
      · exact absurd h (by simp)
      · next f hname =>
          cases hans : loadAnswer u d with
          | stateless =>
              rw [hans] at hanswer
              obtain ⟨rfl, -⟩ := hanswer
              rw [if_pos rfl, Option.some.injEq] at h
              have hcount := projectClientTaskCompleted_modified
                ((((Session.mk w.g { w.p with clients := e :: w.p.clients }).put f).emit
                  (.clientAppeared w.p.addr f.idStr w.p.name (f.name.getD []))).put
                    { f with taskType := .restoreDataSet }) { f with taskType := .restoreDataSet }
              rw [← h, ← hpending, ← hmodified, ← hp]
              refine Eq.trans hcount ?_
              simp [Session.put, Project.put]
          | sent | silent =>
              rw [hans] at hanswer
              obtain ⟨rfl, -⟩ := hanswer
              rw [if_neg (by simp), Option.some.injEq] at h
              rw [← h, if_neg (by simp), ← hmodified, ← hp]
              rfl

/-! ## Steps -/

/-- A save would have nothing to wait for. -/
def Session.NothingToSave (s : Session) : Prop :=
  if ∃ c ∈ s.p.clients, c.pendingTask ≠ 0 then s.p.clientTasksTotal = 0
  else ∀ c ∈ s.p.clients, hasInternalState c.flags = false

instance (s : Session) : Decidable s.NothingToSave :=
  inferInstanceAs (Decidable (if ∃ c ∈ s.p.clients, c.pendingTask ≠ 0 then _ else _))

theorem projectSaveStart_total (s : Session) :
    (projectSaveStart s).p.clientTasksTotal = 0 ↔ s.NothingToSave := by
  unfold Session.NothingToSave
  by_cases hpend : ∃ c ∈ s.p.clients, c.pendingTask ≠ 0
  · rw [if_pos hpend, (projectSaveStart_skipped true hpend).2.1]
  · rw [if_neg hpend]
    have hnone : ∀ c ∈ s.p.clients, c.pendingTask = 0 := by simpa using hpend
    obtain ⟨task, -, -, htotal, -⟩ := projectSaveStart_asked true hnone
    rw [htotal, ← stateful_map_job, List.length_map, List.length_eq_zero_iff]
    unfold Project.stateful
    rw [List.filter_eq_nil_iff]
    simp

theorem projectSave_modified (s : Session) :
    (projectSave s).p.modifiedStatus =
      if s.p.taskType = .idle ∧ s.NothingToSave then false else s.p.modifiedStatus := by
  unfold projectSave
  by_cases hidle : s.p.taskType = .idle
  · rw [if_neg (not_not.mpr hidle)]
    dsimp only
    by_cases hnothing : s.NothingToSave
    · rw [if_pos ((projectSaveStart_total s).mpr hnothing), if_pos ⟨hidle, hnothing⟩,
        projectClientsSaveComplete_modified]
    · rw [if_neg (fun h => hnothing ((projectSaveStart_total s).mp h)),
        if_neg (fun h => hnothing h.2),
        projectSaveStart_modified]
  · rw [if_pos hidle, if_neg (fun h => hidle h.1)]

namespace Server

variable {s s' : Server} {a : Addr} {i : Input}

/-- The input completes a save of project `a`: one that begins with nothing to wait for, or one that
waits for nothing but the report that the input is. -/
def Announces (s : Server) (a : Addr) (i : Input) : Prop :=
  s.BeginsSave a i ∧ (s.session a).NothingToSave ∨
    (s.project a).clientTasksPending = 1 ∧
      ∃ r ∈ s.reporting i, r.1 = a ∧ r.2.2.1.taskType.isSave = true

/-- The input completes a load of project `a`, with a report or with a client that is taken for a
stateless one. -/
def AnnouncesLoad (s : Server) (a : Addr) (i : Input) : Prop :=
  (s.project a).clientTasksPending = 1 ∧
    ((∃ r ∈ s.reporting i, r.1 = a ∧ r.2.2.1.taskType.isRestore = true) ∨
      ∃ r ∈ s.resuming i, r.1 = a ∧ s.answer i = some .stateless)

instance (s : Server) (a : Addr) (i : Input) : Decidable (s.Announces a i) :=
  inferInstanceAs (Decidable (_ ∧ _ ∨ _ ∧ ∃ r ∈ s.reporting i, _))

instance (s : Server) (a : Addr) (i : Input) : Decidable (s.AnnouncesLoad a i) :=
  inferInstanceAs (Decidable (_ ∧ ((∃ r ∈ s.reporting i, _) ∨ ∃ r ∈ s.resuming i, _)))

theorem saving_loaded (h : s.saving i = some a) : a ∈ s.loaded := by
  cases i with
  | projectSave name => exact findProjectByName_mem h
  | saveRound b =>
      have hround : (if b ∈ s.loaded then some b else none) = some a := h
      split at hround
      · next hb => exact Option.some.inj hround ▸ hb
      · exact absurd hround (by simp)
  | _ => exact absurd h (by simp [saving])

theorem step_of_saving (h : s.saving i = some a) : s.step i = some (s.projectSave a) := by
  cases i with
  | projectSave name =>
      have hfind : s.findProjectByName name = some a := h
      show some (s.onProject name s.projectSave).1 = _
      rw [onProject, hfind]
  | saveRound b =>
      have hround : (if b ∈ s.loaded then some b else none) = some a := h
      split at hround
      · next hb =>
          rw [← Option.some.inj hround]
          show some (if b ∈ s.loaded then s.projectSave b else s) = _
          rw [if_pos hb]
      · exact absurd hround (by simp)
  | _ => exact absurd h (by simp [saving])

theorem step_of_reporting (hw : s.Wf) {u : Session} {c : Client} {ok : Bool}
    (h : s.reporting i = some (a, u, c, ok)) :
    s.step i = (clientTaskCompleted u c ok).map (s.setSession a) := by
  have hi : i.IsReport := by
    cases i with
    | progress | commitDataSet => exact fun he => absurd he (by simp [Input.report])
    | _ => exact absurd h (by simp [reporting])
  have hr := hw.reports hi
  generalize s.step i = r at hr ⊢
  cases hr with
  | nothing hrep => exact absurd (hrep.symm.trans h) (by simp)
  | progress _ _ _ _ hrep => exact absurd (hrep.symm.trans h) (by simp)
  | completed _ _ _ _ _ _ _ _ hrep =>
      have heq := hrep.symm.trans h
      simp only [Option.some.injEq, Prod.mk.injEq] at heq
      obtain ⟨rfl, rfl, rfl, rfl⟩ := heq
      rfl

/-- What happens to a client that is back. -/
theorem step_of_resuming {sender : CStr} {pid : Int} {cls : CStr} {flags : Flags} {wd : CStr}
    {argv : List CStr} {id : Uuid} {c : Client}
    (h : s.resuming (.connect sender pid cls flags wd argv id) = some (a, c)) :
    s.answer (.connect sender pid cls flags wd argv id) =
        some (resumeAnswer ((s.session a).emit (.connected a c.addr sender)) (c.reconnect sender)) ∧
      s.step (.connect sender pid cls flags wd argv id) =
        (clientResumeProject ((s.session a).emit (.connected a c.addr sender))
          (c.reconnect sender)).map (s.setSession a) := by
  simp only [resuming] at h
  constructor
  · simp only [answer, h, Option.map_some]
  · simp only [step, handle, dbusConnect, addClient, h]
    cases clientResumeProject ((s.session a).emit (.connected a c.addr sender))
        (c.reconnect sender) with
    | none => rfl
    | some u =>
        dsimp only [Option.map_some]
        split <;> rfl

/-- The session in which a report is handled is the one of the project, but for the client's
store. -/
theorem reporting_project (hw : s.Wf) {u : Session} {c : Client} {ok : Bool}
    (h : s.reporting i = some (a, u, c, ok)) :
    u.g = s.g ∧ u.p.modifiedStatus = (s.project a).modifiedStatus ∧
      u.p.clientTasksPending = (s.project a).clientTasksPending ∧ u.p.addr = a ∧
      c ∈ u.p.clients ∧ c.pendingTask ≠ 0 := by
  obtain ⟨-, d, hd, hp, hcase⟩ := reporting_cases h
  rcases hcase with ⟨rfl, rfl, -⟩ | ⟨-, -, elems, -, st, -, -, -, -, -, rfl, rfl⟩
  · exact ⟨rfl, rfl, rfl, hw.addr a, hd, hp⟩
  · refine ⟨rfl, rfl, rfl, hw.addr a, ?_, hp⟩
    exact Keyed.mem_put_self (z := d) hd rfl

/-- **Nothing but the end of a task clears the modified status** of a loaded project. -/
theorem step_clears (hw : s.Wf) (h : s.step i = some s') (ha : a ∈ s.loaded)
    (hsave : ¬ s.Announces a i) (hload : ¬ s.AnnouncesLoad a i)
    (hmodified : (s.project a).modifiedStatus = true) : (s'.project a).modifiedStatus = true := by
  rcases step_changes h a with hsame | hchange
  · rw [hsame]
    exact hmodified
  · generalize s'.project a = p' at hchange
    cases hchange with
    | join hi ht hu => exact projectNewClient_modified hu
    | @resume sender pid cls flags wd argv id c u hi ha' hc hu =>
        rw [clientResumeProject_modified hu, if_neg]
        · exact hmodified
        · rintro ⟨hpending, hans⟩
          exact hload ⟨hpending, Or.inr ⟨(a, c), hi, rfl,
            (step_of_resuming hi).1.trans (congrArg some hans)⟩⟩
    | leave g hi ha' hc => exact clientDisconnected_modified _ _
    | @complete _ u c ok v hi ha' hv =>
        obtain ⟨-, hm, hp, -⟩ := reporting_project hw hi
        rw [clientTaskCompleted_modified hv, if_neg]
        · exact hm.trans hmodified
        · rintro ⟨hpending, htype⟩
          rw [hp] at hpending
          cases hty : c.taskType with
          | saveDataSet | saveFile =>
              exact hsave (Or.inr ⟨hpending, _, hi, rfl, by rw [hty]; rfl⟩)
          | restoreFile | restoreDataSet =>
              exact hload ⟨hpending, Or.inl ⟨_, hi, rfl, by rw [hty]; rfl⟩⟩
          | unknown => exact htype hty
    | progress n ha' hc =>
        rw [projectClientProgress_modified]
        exact hmodified
    | save hi ha' =>
        rw [projectSave_modified, if_neg]
        · exact hmodified
        · exact fun hbegins => hsave (Or.inl ⟨⟨hi, hbegins.1⟩, hbegins.2⟩)
    | close hi ha' =>
        rw [projectUnload_modified]
        exact hmodified
    | restore _ hnot => exact absurd ha hnot
    | depend | undepend | launch => exact hmodified
    | rename | describe | note => exact projectSetModifiedStatus_modified _ true
    | move hi ha' =>
        rw [projectMove_modified]
        exact hmodified

/-- A step that completes a save or a load clears the status. -/
theorem step_announces_modified (hw : s.Wf) (h : s.step i = some s')
    (hann : s.Announces a i ∨ s.AnnouncesLoad a i) : (s'.project a).modifiedStatus = false := by
  have hreport : ∀ {r : Addr × Session × Client × Bool}, r ∈ s.reporting i → r.1 = a →
      r.2.2.1.taskType ≠ .unknown → (s.project a).clientTasksPending = 1 →
      (s'.project a).modifiedStatus = false := by
    rintro ⟨b, u, c, ok⟩ hi rfl htype hpending
    obtain ⟨-, -, hp, -⟩ := reporting_project hw hi
    rw [step_of_reporting hw hi] at h
    obtain ⟨v, hv, rfl⟩ := Option.map_eq_some_iff.mp h
    rw [setSession_project_self, clientTaskCompleted_modified hv, if_pos ⟨hp.trans hpending, htype⟩]
  rcases hann with (⟨hbegins, hnothing⟩ | ⟨hpending, r, hi, hr, htype⟩) |
    ⟨hpending, ⟨r, hi, hr, htype⟩ | ⟨r, hi, hr, hans⟩⟩
  · rw [step_of_saving hbegins.1] at h
    have hp : (s.projectSave a).project a = (Lash.projectSave (s.session a)).p := by
      unfold projectSave
      dsimp only
      split <;> exact setSession_project_self _ _ _
    rw [← Option.some.inj h, hp, projectSave_modified, if_pos ⟨hbegins.2, hnothing⟩]
  · refine hreport hi hr ?_ hpending
    intro hty
    rw [hty] at htype
    exact absurd htype (by decide)
  · refine hreport hi hr ?_ hpending
    intro hty
    rw [hty] at htype
    exact absurd htype (by decide)
  · obtain ⟨b, c⟩ := r
    cases hr
    cases i with
    | connect sender pid cls flags wd argv id =>
        obtain ⟨hanswer, hstep⟩ := step_of_resuming hi
        rw [hanswer] at hans
        rw [hstep] at h
        obtain ⟨u, hu, rfl⟩ := Option.map_eq_some_iff.mp h
        rw [setSession_project_self, clientResumeProject_modified hu,
          if_pos ⟨hpending, Option.some.inj hans⟩]
    | _ => exact absurd hi (by simp [resuming])

end Server

end Lash
