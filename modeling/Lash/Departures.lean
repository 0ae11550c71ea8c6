import Lash.Names
import Lash.Round

/-!
# Clients that leave the bus

The daemon hears of a client's death from the bus, which says that a name has no owner any more.
It looks the name up and loses the first live client that has it, once for each signal. So nobody
is left under the name as long as no two live clients share one (`Server.nobody_left`); liblash
opens all clients of a process on one connection, and `Connect` does not ask.
-/

namespace Lash

/-! ## Names on the bus -/

/-- The same structure under the same name on the bus. -/
def Client.SameName (c d : Client) : Prop := d.addr = c.addr ∧ d.dbusName = c.dbusName

theorem Client.SameName.of_job {c d : Client} (h : d.job = c.job) : c.SameName d :=
  ⟨congrArg Job.addr h, congrArg Job.dbusName h⟩

theorem Client.SameName.trans {c d e : Client} (h : c.SameName d) (h' : d.SameName e) :
    c.SameName e :=
  ⟨h'.1.trans h.1, h'.2.trans h.2⟩

/-- The live clients are those of before and perhaps `c`. -/
def Session.LiveFrom (s : Session) (c : Client) (t : Session) : Prop :=
  ∀ e ∈ t.p.clients, (∃ d ∈ s.p.clients, d.SameName e) ∨ c.SameName e

/-- The client itself is written back. -/
theorem Session.LiveFrom.put {s t u : Session} {c d : Client} (h : s.LiveFrom c t)
    (hd : c.SameName d) (hu : u.p.clients = putClient d t.p.clients) : s.LiveFrom c u := by
  intro e he
  rw [hu] at he
  rcases Keyed.mem_put.mp he with ⟨rfl, -⟩ | ⟨he, -⟩
  · exact Or.inr hd
  · exact h e he

theorem projectSetModifiedStatus_clients (s : Session) (b : Bool) :
    (projectSetModifiedStatus s b).p.clients = s.p.clients := by
  rw [projectSetModifiedStatus_p]

/-- A new client is live under the name it connected with. -/
theorem projectNewClient_live {s t : Session} {c : Client} {id : Uuid}
    (h : projectNewClient s c id = some t) : s.LiveFrom c t := by
  have hprep := newClientPrepare_job s.p s.g.fs c id
  unfold projectNewClient at h
  generalize newClientPrepare s.p s.g.fs c id = r at h hprep
  obtain ⟨d, fs⟩ := r
  dsimp only at h hprep
  have hd : c.SameName d := ⟨congrArg Job.addr hprep, congrArg Job.dbusName hprep⟩
  split at h
  · exact absurd h (by simp)
  · next e hname =>
      have he : c.SameName e := hd.trans (.of_job (projectNameClient_job hname))
      have hjoined : s.LiveFrom c { s with p := { s.p with clients := d :: s.p.clients } } := by
        intro f hf
        rcases List.mem_cons.mp hf with rfl | hf
        · exact Or.inr hd
        · exact Or.inl ⟨f, hf, rfl, rfl⟩
      rw [← Option.some.inj h]
      refine hjoined.put he ?_
      exact projectSetModifiedStatus_clients _ true

theorem resumeLoad_sameName {s t : Session} {c d : Client} {b : Bool}
    (h : resumeLoad s c = some (t, d, b)) : c.SameName d := by
  obtain ⟨-, hanswer⟩ := resumeLoad_spec h
  split at hanswer
  · obtain ⟨-, task, type, e, -, -, hjob, -⟩ := hanswer
    exact ⟨congrArg Job.addr hjob, congrArg Job.dbusName hjob⟩
  · exact .of_job hanswer.2.1
  · exact .of_job hanswer.2.1

theorem Session.LiveFrom.taskCompleted {s t : Session} {c d : Client} (h : s.LiveFrom c t)
    (hd : c.SameName d) : s.LiveFrom c (projectClientTaskCompleted t d).1 ∧
      c.SameName (projectClientTaskCompleted t d).2 := by
  have hsame : c.SameName (projectClientTaskCompleted t d).2 :=
    hd.trans (.of_job (projectClientTaskCompleted_job t d))
  refine ⟨h.put hsame ?_, hsame⟩
  exact (projectCountDown_clients _ _).trans (projectClientProgress_clients _ _ _).1

theorem Session.LiveFrom.stateless {s t : Session} {c d : Client} (h : s.LiveFrom c t)
    (hd : c.SameName d) : s.LiveFrom c (resumeStateless t d) := by
  have hd' : c.SameName { d with taskType := .restoreDataSet } := hd
  have hput : s.LiveFrom c (t.put { d with taskType := .restoreDataSet }) := h.put hd' rfl
  obtain ⟨hdone, hname⟩ := hput.taskCompleted hd'
  unfold resumeStateless
  dsimp only
  refine hdone.put ?_ rfl
  exact hname

/-- A client that is back is live under the name it connected with. -/
theorem clientResumeProject_live {s t : Session} {c : Client}
    (h : clientResumeProject s c = some t) :
    s.LiveFrom c t := by
  have hprep : (resumePrepare s c).1.p.clients = s.p.clients := rfl
  have hjob := resumePrepare_job s c
  unfold clientResumeProject at h
  generalize resumePrepare s c = r at h hprep hjob
  obtain ⟨u, d⟩ := r
  dsimp only at h hprep hjob
  split at h
  · exact absurd h (by simp)
  · next v e stateless hload =>
      have he : c.SameName e := (Client.SameName.of_job hjob).trans (resumeLoad_sameName hload)
      have hv : v.p.clients = s.p.clients := by rw [resumeLoad_head hload, hprep]
      split at h
      · exact absurd h (by simp)
      · next f hname =>
          have hf : c.SameName f := he.trans (.of_job (nameIfUnnamed_job hname))
          have hjoined : s.LiveFrom c { v with p := { v.p with clients := e :: v.p.clients } } := by
            intro x hx
            rcases List.mem_cons.mp hx with rfl | hx
            · exact Or.inr he
            · rw [hv] at hx
              exact Or.inl ⟨x, hx, rfl, rfl⟩
          generalize hw : Session.emit (Session.put _ f) _ = w at h
          have hwlive : s.LiveFrom c w := by
            rw [← hw]
            exact hjoined.put hf rfl
          split at h
          · rw [← Option.some.inj h]
            exact hwlive.stateless hf
          · rw [← Option.some.inj h]
            exact hwlive

/-! ## One move -/

/-- A client that neither joins nor is resumed. -/
def Act.Stays : Act → Prop
  | .join _ | .resume _ _ => False
  | _ => True

/-- **A move makes nobody live** and gives nobody a new name, except for the client that joins or is
resumed. -/
theorem Move.live_from {a : Addr} {v v' : View} {act : Act} {evs : List Event}
    (h : Move a v act evs v') (hact : act.Stays) :
    ∀ c ∈ v'.live, ∃ d ∈ v.live, d.addr = c.addr ∧ d.dbusName = c.dbusName := by
  have hsame : ∀ c ∈ v.live, ∃ d ∈ v.live, d.addr = c.addr ∧ d.dbusName = c.dbusName :=
    fun c hc => ⟨c, hc, rfl, rfl⟩
  have hput : ∀ {c d : Job}, c ∈ v.live → d.addr = c.addr → d.dbusName = c.dbusName →
      ∀ e ∈ (v.put d).live, ∃ x ∈ v.live, x.addr = e.addr ∧ x.dbusName = e.dbusName := by
    intro c d hc haddr hname e he
    rcases Keyed.mem_put.mp he with ⟨rfl, -⟩ | ⟨he, -⟩
    · exact ⟨c, hc, haddr.symm, hname.symm⟩
    · exact hsame e he
  have hcount : ∀ w : View, w.count.live = w.live := by
    intro w
    unfold View.count
    split
    · rfl
    · split <;> rfl
  cases h with
  | quiet => exact hsame
  | join | sent | silent | stateless => exact hact.elim
  | leave hc =>
      intro e he
      exact hsame e (Keyed.mem_del.mp he).1
  | cleared hc hp htype => exact hput hc rfl rfl
  | failed hc hp htype =>
      rw [hcount]
      exact hput hc rfl rfl
  | saved hc hp htype =>
      rw [hcount]
      exact hput hc rfl rfl
  | restored hc hp htype hlost =>
      rw [hcount]
      exact hput hc rfl rfl
  | skipped htask hc hp hevs => exact hsame
  | asked htask hp ht hevs =>
      intro e he
      obtain ⟨c, hc, rfl⟩ := List.mem_map.mp he
      refine ⟨c, hc, ?_⟩
      unfold Job.ask
      split <;> exact ⟨rfl, rfl⟩
  | close => exact fun e he => absurd he List.not_mem_nil
  | restore hloaded hjobs =>
      intro e he
      exact hsame e he
  | launch hc => exact hsame
  | depend hc => exact hput hc rfl rfl
  | undepend hc => exact hput hc rfl rfl

namespace Server

variable {s s' : Server} {a b : Addr} {i : Input}

/-! ## One client under each name -/

/-- No two live clients share a name on the bus. -/
def OnePerName (s : Server) : Prop :=
  ∀ a ∈ s.loaded, ∀ b ∈ s.loaded, ∀ c ∈ (s.project a).clients, ∀ d ∈ (s.project b).clients,
    ∀ name, c.dbusName = some name → d.dbusName = some name → a = b ∧ c.addr = d.addr

/-- Nobody connects under a name that a live client has. -/
def ConnectsOnce (s : Server) (i : Input) : Prop :=
  ∀ sender pid cls flags wd argv id, i = .connect sender pid cls flags wd argv id →
    ∀ a ∈ s.loaded, ∀ c ∈ (s.project a).clients, c.dbusName ≠ some sender

/-- The live clients after a step were live before under the same name, or there is one that
connected. -/
theorem step_live (hw : s.Wf) (hs : s.step i = some s') :
    (∀ a ∈ s'.loaded, ∀ c ∈ (s'.project a).clients,
      a ∈ s.loaded ∧ ∃ d ∈ (s.project a).clients, d.SameName c) ∨
    ∃ b x sender pid cls flags wd argv id, i = .connect sender pid cls flags wd argv id ∧
      ∀ a ∈ s'.loaded, ∀ c ∈ (s'.project a).clients,
        (a ∈ s.loaded ∧ ∃ d ∈ (s.project a).clients, d.SameName c) ∨
          a = b ∧ c.addr = x ∧ c.dbusName = some sender := by
  by_cases hcon : ∃ sender pid cls flags wd argv id, i = .connect sender pid cls flags wd argv id
  · obtain ⟨sender, pid, cls, flags, wd, argv, id, rfl⟩ := hcon
    -- the session that is written back has one live client more
    have hset : ∀ {t : Server} {b : Addr} {u : Session} {x : Client}, t.project = s.project →
        t.loaded = s.loaded → b ∈ s.loaded → x.dbusName = some sender → (s.session b).LiveFrom x u →
        ∀ a ∈ (t.setSession b u).loaded, ∀ c ∈ ((t.setSession b u).project a).clients,
          (a ∈ s.loaded ∧ ∃ d ∈ (s.project a).clients, d.SameName c) ∨
            a = b ∧ c.addr = x.addr ∧ c.dbusName = some sender := by
      intro t b u x hproject hloaded hb hx hu a ha c hc
      rw [setSession_loaded, hloaded] at ha
      by_cases hab : a = b
      · subst hab
        rw [setSession_project_self] at hc
        rcases hu c hc with hold | hnew
        · exact Or.inl ⟨ha, hold⟩
        · exact Or.inr ⟨rfl, hnew.1, hnew.2.trans hx⟩
      · rw [setSession_project_ne t u hab, hproject] at hc
        exact Or.inl ⟨ha, c, hc, rfl, rfl⟩
    cases step_deed hs with
    | nothing => exact Or.inl (fun a ha c hc => ⟨ha, c, hc, rfl, rfl⟩)
    | children childs => exact Or.inl (fun a ha c hc => ⟨ha, c, hc, rfl, rfl⟩)
    | @join _ _ _ _ _ _ _ t b u hi hborn hu =>
        right
        refine ⟨b, s.g.nextAddr, sender, pid, cls, flags, wd, argv, id, rfl, ?_⟩
        have hlive := projectNewClient_live hu
        rcases getNewbornProject_some hborn with ⟨rfl, hb⟩ | hnew
        · exact hset rfl rfl hb rfl hlive
        · have hc := createNewProject_some hnew
          have hnil : (t.project b).clients = [] := by
            have hview := congrArg View.live (hc.view true)
            simpa [Project.view, projectNew] using hview
          intro a ha c hc'
          rw [setSession_loaded, hc.loaded, List.mem_append, List.mem_singleton] at ha
          by_cases hab : a = b
          · subst hab
            rw [setSession_project_self] at hc'
            rcases hlive c hc' with ⟨d, hd, -⟩ | hnew'
            · rw [show ((t.session a).emit _).p.clients = [] from hnil] at hd
              exact absurd hd List.not_mem_nil
            · exact Or.inr ⟨rfl, hnew'.1, hnew'.2⟩
          · rw [setSession_project_ne t u hab, hc.others a hab] at hc'
            exact Or.inl ⟨ha.resolve_right hab, c, hc', rfl, rfl⟩
    | @resume _ _ _ _ _ _ _ b x u hi hb hx hu =>
        right
        refine ⟨b, x.addr, sender, pid, cls, flags, wd, argv, id, rfl, ?_⟩
        have hlive := clientResumeProject_live hu
        exact @hset s b u (x.reconnect sender) rfl rfl hb rfl hlive
    | leave childs hi => exact absurd hi (by simp [leaving])
    | complete hi => exact absurd hi (by simp [reporting])
    | @progress _ b c n hb hc =>
        left
        intro a ha e he
        rw [setSession_loaded] at ha
        by_cases hab : a = b
        · subst hab
          rw [setSession_project_self, (projectClientProgress_clients _ c n).1] at he
          rcases Keyed.mem_put.mp he with ⟨rfl, -⟩ | ⟨he, -⟩
          · exact ⟨ha, c, hc, .of_job (projectClientProgress_job _ _ _)⟩
          · exact ⟨ha, e, he, rfl, rfl⟩
        · rw [setSession_project_ne _ _ hab] at he
          exact ⟨ha, e, he, rfl, rfl⟩
    | save hi => exact absurd hi (by simp [saving])
    | close hi => exact absurd hi (by simp [closing])
    | restore ha hnot hi => exact absurd hi (by simp [restoring])
    | depend hi => exact absurd hi (by simp [adding])
    | undepend id hi =>
        obtain ⟨_, _, _, h⟩ := hi
        exact absurd h (by simp)
    | @launch _ b x g d hb hx hd =>
        left
        intro a ha e he
        rw [setSession_loaded] at ha
        by_cases hab : a = b
        · subst hab
          rw [setSession_project_self] at he
          exact ⟨ha, e, he, rfl, rfl⟩
        · rw [setSession_project_ne _ _ hab] at he
          exact ⟨ha, e, he, rfl, rfl⟩
  · left
    rcases hw.step_answers hs with h | ⟨b, act, h, hexp⟩
    · intro a ha c hc
      rw [h.project] at hc
      rw [h.loaded] at ha
      exact ⟨ha, c, hc, rfl, rfl⟩
    · intro a ha c hc
      by_cases hab : a = b
      · subst hab
        obtain ⟨evs, hmove, -⟩ := h.move
        have hact : act.Stays := by
          cases act with
          | join c =>
              obtain ⟨-, sender, pid, cls, flags, wd, argv, hi⟩ := hexp
              exact (hcon ⟨_, _, _, _, _, _, _, hi⟩).elim
          | resume c answer =>
              obtain ⟨x, hi, -⟩ := hexp
              cases i <;> first | (simp [resuming] at hi; done) | skip
              exact (hcon ⟨_, _, _, _, _, _, _, rfl⟩).elim
          | _ => trivial
        obtain ⟨d, hd, haddr, hname⟩ := hmove.live_from hact c.job (List.mem_map_of_mem hc)
        obtain ⟨e, he, rfl⟩ := List.mem_map.mp hd
        refine ⟨?_, e, he, haddr.symm, hname.symm⟩
        by_contra hn
        have hnil := hw.unloaded a (by simp [Server.view, Project.view, hn])
        have : e.job ∈ (s.view a).jobs := List.mem_append_left _ hd
        rw [hnil] at this
        exact absurd this List.not_mem_nil
      · obtain ⟨hp, hl⟩ := h.others a hab
        rw [hp] at hc
        exact ⟨hl.mp ha, c, hc, rfl, rfl⟩

theorem OnePerName.step (h : s.OnePerName) (hw : s.Wf) (hi : s.ConnectsOnce i)
    (hs : s.step i = some s') : s'.OnePerName := by
  intro a ha b hb c hc d hd name hcn hdn
  rcases step_live hw hs with hold | ⟨e, x, sender, pid, cls, flags, wd, argv, id, rfl, hnew⟩
  · obtain ⟨ha', c', hc', hcc⟩ := hold a ha c hc
    obtain ⟨hb', d', hd', hdd⟩ := hold b hb d hd
    have := h a ha' b hb' c' hc' d' hd' name (hcc.2 ▸ hcn) (hdd.2 ▸ hdn)
    exact ⟨this.1, hcc.1.trans (this.2.trans hdd.1.symm)⟩
  · have hfree := hi sender pid cls flags wd argv id rfl
    rcases hnew a ha c hc with ⟨ha', c', hc', hcc⟩ | ⟨rfl, hcx, hcs⟩
    · rcases hnew b hb d hd with ⟨hb', d', hd', hdd⟩ | ⟨rfl, hdx, hds⟩
      · have := h a ha' b hb' c' hc' d' hd' name (hcc.2 ▸ hcn) (hdd.2 ▸ hdn)
        exact ⟨this.1, hcc.1.trans (this.2.trans hdd.1.symm)⟩
      · -- an old client under the name that connects now
        refine absurd ?_ (hfree a ha' c' hc')
        rw [← hds, hdn, ← hcn, hcc.2]
    · rcases hnew b hb d hd with ⟨hb', d', hd', hdd⟩ | ⟨rfl, hdx, hds⟩
      · refine absurd ?_ (hfree b hb' d' hd')
        rw [← hcs, hcn, ← hdn, hdd.2]
      · exact ⟨rfl, hcx.trans hdx.symm⟩

/-- When a name has lost its owner nobody is live under it, and whoever was is a lost client. -/
def Buried (s : Server) : Prop :=
  ∀ name s', s.step (.nameLost name) = some s' →
    (∀ a ∈ s'.loaded, ∀ c ∈ (s'.project a).clients, c.dbusName ≠ some name) ∧
      ∀ a ∈ s.loaded, ∀ c ∈ (s.project a).clients, c.dbusName = some name →
        a ∈ s'.loaded ∧ ∃ d ∈ (s'.project a).lostClients, d.addr = c.addr

theorem disconnect_lost (s : Server) (a : Addr) (c : Client) :
    ∃ d ∈ ((s.disconnect (some (a, c))).project a).lostClients, d.addr = c.addr := by
  let lost : Client := { (loseStore s.g.fs c).1 with pid := 0 }
  have hlost : (clientDisconnected (s.session a) c).p.lostClients
      = lost :: (s.project a).lostClients := by
    unfold clientDisconnected projectLoseClient
    exact congrArg Project.lostClients (projectSetModifiedStatus_p _ true)
  rw [disconnect, setSession_project_self, hlost]
  exact ⟨lost, List.mem_cons_self, congrArg Job.addr (loseStore_job s.g.fs c)⟩

theorem OnePerName.buried (h : s.OnePerName) : s.Buried := by
  intro name s' hs
  obtain rfl : s.disconnect (s.findClientByDbusName name) = s' := Option.some.inj hs
  cases hfind : s.findClientByDbusName name with
  | none =>
      have hnone : ∀ b ∈ s.loaded, ∀ d ∈ (s.project b).clients, d.dbusName ≠ some name := by
        intro b hb d hd hname
        have hb := List.findSome?_eq_none_iff.mp hfind b hb
        rw [Option.map_eq_none_iff] at hb
        exact absurd hname (by simpa using List.find?_eq_none.mp hb d hd)
      exact ⟨hnone, fun b hb d hd hname => absurd hname (hnone b hb d hd)⟩
  | some r =>
      obtain ⟨a, c⟩ := r
      obtain ⟨ha, hc, hcname⟩ := findClient_some hfind
      have hcname : c.dbusName = some name := by simpa using hcname
      have hclients : (clientDisconnected (s.session a) c).p.clients
          = delClient c.addr (s.project a).clients := projectSetModifiedStatus_clients _ true
      refine ⟨?_, ?_⟩
      · intro b hb d hd hname
        rw [disconnect, setSession_loaded] at hb
        by_cases hba : b = a
        · subst hba
          rw [disconnect, setSession_project_self, hclients] at hd
          obtain ⟨hd, hne⟩ := Keyed.mem_del.mp hd
          exact hne (h b hb b hb d hd c hc name hname hcname).2
        · rw [disconnect, setSession_project_ne _ _ hba] at hd
          exact hba (h b hb a ha d hd c hc name hname hcname).1
      · intro b hb d hd hname
        obtain ⟨rfl, haddr⟩ := h b hb a ha d hd c hc name hname hcname
        obtain ⟨e, he, hec⟩ := disconnect_lost s b c
        exact ⟨hb, e, he, hec.trans haddr.symm⟩

/-- **Nobody is left under a name that has lost its owner**, in every state that the daemon gets to
while nobody connects twice: they are all lost clients then. -/
theorem nobody_left {fs : Fs} {dir : CStr} (h : Reachable ConnectsOnce fs dir s) : s.Buried := by
  have hs := start_starting fs dir
  have hbegin : (start fs dir).OnePerName := by
    intro a ha
    rw [hs.loaded] at ha
    exact absurd ha List.not_mem_nil
  have hinv := h.invariant (I := fun t => t.Wf ∧ t.OnePerName) ⟨hs.wf, hbegin⟩ (by
    rintro t i u _ ⟨hw, hn⟩ hi htu
    exact ⟨(hw.step_answers htu).wf hw, hn.step hw hi htu⟩)
  exact hinv.2.buried

/-! ## Two clients of one process -/

instance (s : Server) (i : Input) : Decidable (s.ConnectsOnce i) :=
  match i with
  | .connect sender pid cls flags wd argv id =>
      decidable_of_iff (∀ a ∈ s.loaded, ∀ c ∈ (s.project a).clients, c.dbusName ≠ some sender) (by
        constructor
        · rintro h sender' _ _ _ _ _ _ heq
          obtain ⟨rfl, -⟩ := Input.connect.inj heq
          exact h
        · intro h
          exact h sender pid cls flags wd argv id rfl)
  | .nameLost _ | .progress .. | .commitDataSet .. | .projectOpen _ | .loadProjectPath _
  | .projectSave _ | .saveRound _ | .projectClose _ | .closeRound _ | .addDependency ..
  | .removeDependency .. | .lostClientLaunch .. | .projectRename .. | .projectSetDescription ..
  | .projectSetNotes .. | .projectMove .. | .sigchld _ | .bury | .outside .. =>
      isTrue (fun _ _ _ _ _ _ _ h => nomatch h)

/-- Two clients on connections of their own, and one of them goes. -/
theorem nobody_left_of_two :
    ∃ s, Reachable ConnectsOnce emptyDisk (cstr "/p") s ∧ s.Buried ∧
      (s.project 1).clients.length = 2 ∧
      (s.step (.nameLost (cstr ":1"))).any (fun t => (t.project 1).clients.length = 1) := by
  have hrun : (runFrom ConnectsOnce
      [.connect (cstr ":1") 5 (cstr "synth") 0 [] [cstr "synth"] 1,
        .connect (cstr ":2") 6 (cstr "drums") 0 [] [cstr "drums"] 2]).any
      (fun s => (s.project 1).clients.length = 2 ∧
        (s.step (.nameLost (cstr ":1"))).any (fun t => (t.project 1).clients.length = 1)) =
        true := by
    decide +kernel
  obtain ⟨s, hs, hgood⟩ := exists_of_runFrom hrun
  obtain ⟨hlen, hgone⟩ := of_decide_eq_true hgood
  exact ⟨s, hs, nobody_left hs, hlen, hgone⟩

/-- Two clients on one connection: when it is gone one of them stays. -/
theorem zombie :
    ∃ s, Reachable FreshId emptyDisk (cstr "/p") s ∧ ¬ s.Buried := by
  have hrun : (runFrom FreshId
      [.connect (cstr ":1") 5 (cstr "synth") 0 [] [cstr "synth"] 1,
        .connect (cstr ":1") 5 (cstr "drums") 0 [] [cstr "drums"] 2]).any
      (fun s => (s.step (.nameLost (cstr ":1"))).any (fun t => 1 ∈ t.loaded ∧
        (t.project 1).clients.any (fun c => c.dbusName = some (cstr ":1")))) = true := by
    decide +kernel
  obtain ⟨s, hs, hbad⟩ := exists_of_runFrom hrun
  obtain ⟨t, ht, hzombie⟩ := (Option.any_eq_true _ _).mp hbad
  obtain ⟨hloaded, hclients⟩ := of_decide_eq_true hzombie
  obtain ⟨c, hc, hname⟩ := List.any_eq_true.mp hclients
  exact ⟨s, hs, fun h => (h (cstr ":1") t ht).1 1 hloaded c hc (of_decide_eq_true hname)⟩

end Server

end Lash
