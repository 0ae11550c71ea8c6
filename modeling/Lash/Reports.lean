import Lash.Owing
import Lash.Round
import Mathlib.Data.List.Perm.Subperm

/-!
# Reports

A client reports with `Progress` and `CommitDataSet` calls. The daemon ignores such a call, or it
is some progress, or the end of a task. The last kind can end the daemon, in two ways: a data set
is reported as saved by a client without a store, or a client is reported as restored and a lost
client that waits for nobody else is launched, which the project file gives no arguments. The
reports may come in any order, so what has to hold of a state before them is said of all the tasks
in it (`ReadyForReports`, `survives_iff`).
-/

namespace Lash

/-! ## Reports -/

/-- The sender and the arguments of a call with which a client reports on its task. -/
def Input.report : Input → Option (CStr × List Arg)
  | .progress sender args | .commitDataSet sender args => some (sender, args)
  | _ => none

def Input.IsReport (i : Input) : Prop := i.report ≠ none

namespace Server

/-- A report of nobody, or one without the id of the task that its sender has. -/
def Stale (t : Server) (i : Input) : Prop :=
  ∀ r ∈ i.report, ∀ x ∈ t.findClientByDbusName r.1,
    x.2.pendingTask = 0 ∨ r.2.head? ≠ some (.uint64 x.2.pendingTask)

/-- What a report does: nothing, some progress, or the end of a task. In the last case the daemon
may crash. -/
inductive Reports (t : Server) (i : Input) : Option Server → Prop
  | nothing (hrep : t.reporting i = none) : Reports t i (some t)
  | progress {a c n} (ha : a ∈ t.loaded) (hc : c ∈ (t.project a).clients) (hp : c.pendingTask ≠ 0)
      (hn : n ≤ 99 ∧ (c.taskProgress ≤ 99 → c.taskProgress ≤ n)) (hrep : t.reporting i = none) :
      Reports t i (some (t.setSession a (projectClientProgress (t.session a) c n).1))
  | completed {r a c d ok} (hr : i.report = some r)
    (hfind : t.findClientByDbusName r.1 = some (a, c))
      (hprofile : d.profile = c.profile) (hid : d.id = c.id) (hpend : d.pendingTask = c.pendingTask)
      (htype : d.taskType = c.taskType) (hprog : d.taskProgress = c.taskProgress)
      (hp : c.pendingTask ≠ 0) (hrep : t.reporting i = some (a, (t.session a).put d, d, ok)) :
      Reports t i ((clientTaskCompleted ((t.session a).put d) d ok).map (t.setSession a))

variable {s t u : Server} {a : Addr} {i : Input}

/-- A client that is in its list is written back unchanged. -/
theorem Wf.put_self (hw : t.Wf) {c : Client} (hc : c ∈ (t.project a).clients) :
    (t.session a).put c = t.session a := by
  have hput : putClient c (t.project a).clients = (t.project a).clients :=
    Keyed.put_eq_self (hw.clients_nodup a) hc
  show Session.mk t.g ((t.project a).put c) = Session.mk t.g (t.project a)
  rw [Project.put, hput]

theorem Wf.progress_reports (hw : t.Wf) (sender : CStr) (args : List Arg) :
    Reports t (.progress sender args) (t.step (.progress sender args)) := by
  show Reports t _ ((t.dbusProgress sender args).map Prod.fst)
  unfold dbusProgress
  cases hfind : t.findClientByDbusName sender with
  | none => exact .nothing (by simp only [reporting, hfind])
  | some x =>
      obtain ⟨a, c⟩ := x
      obtain ⟨ha, hc⟩ := findClientByDbusName_some hfind
      dsimp only
      split
      · next r hcheck => exact .nothing (by simp only [reporting, hfind, hcheck])
      · next percentage rest hcheck =>
          have hp := checkTasks_ok hcheck
          have hdone : ∀ ok, t.reporting (.progress sender args) = some (a, t.session a, c, ok) →
              Reports t (.progress sender args)
                ((clientTaskCompleted (t.session a) c ok).map (t.setSession a)) := by
            intro ok hrep
            have hput := hw.put_self hc
            have := Reports.completed (t := t)
                (i := .progress sender args) rfl hfind rfl rfl rfl rfl rfl
              hp (by rw [hput]; exact hrep)
            rwa [hput] at this
          rw [Option.map_map]
          unfold clientTaskProgressed
          by_cases h0 : percentage.toNat = 0
          · rw [if_pos h0]
            exact hdone false (by simp only [reporting, hfind, hcheck, h0, if_true])
          · rw [if_neg h0]
            by_cases h255 : percentage.toNat = 255
            · rw [if_pos h255]
              refine hdone true ?_
              simp only [reporting, hfind, hcheck]
              rw [if_neg h0, if_pos h255]
            · rw [if_neg h255]
              have hrep : t.reporting (.progress sender args) = none := by
                simp only [reporting, hfind, hcheck, h0, h255, if_false]
              split
              · show Reports t _ (some (t.setSession a (t.session a)))
                rw [setSession_session]
                exact .nothing hrep
              · next hle =>
                  refine .progress ha hc hp ⟨?_, ?_⟩ hrep
                  · split <;> omega
                  · intro _
                    split <;> omega
      · next args' hne hcheck =>
          have hrep : t.reporting (.progress sender args) = none := by
            simp only [reporting, hfind, hcheck]
            split
            · next p rest he => exact absurd (Except.ok.inj he) (fun h => hne p rest h)
            · rfl
          exact .nothing hrep

theorem commitDataSet_reports (t : Server) (sender : CStr) (args : List Arg) :
    Reports t (.commitDataSet sender args) (t.step (.commitDataSet sender args)) := by
  show Reports t _ ((t.dbusCommitDataSet sender args).map Prod.fst)
  unfold dbusCommitDataSet
  cases hfind : t.findClientByDbusName sender with
  | none => exact .nothing (by simp only [reporting, hfind])
  | some x =>
      obtain ⟨a, c⟩ := x
      obtain ⟨ha, hc⟩ := findClientByDbusName_some hfind
      dsimp only
      split
      · next r hcheck =>
          refine .nothing ?_
          simp only [reporting, hfind, hcheck]
      · next rest hcheck =>
          have hp := checkTasks_ok hcheck
          cases hst : c.store with
          | none =>
              refine .nothing ?_
              simp only [reporting, hfind, hcheck, hst]
          | some st =>
              dsimp only
              split
              · refine .nothing ?_
                simp only [reporting, hfind, hcheck, hst]
              · next elems more hne =>
                  cases elems with
                  | nil => exact absurd rfl hne
                  | cons elem elems =>
                      generalize hcom : commitConfigs st (elem :: elems) = rs
                      obtain ⟨ok, st'⟩ := rs
                      have hrep : t.reporting (.commitDataSet sender (args)) = some (a,
                          (t.session a).put { c with store := some st' },
                          { c with store := some st' }, ok) := by
                        simp only [reporting, hfind, hcheck, hst, hcom]
                      rw [Option.map_map]
                      refine .completed rfl hfind ?_ rfl rfl rfl rfl hp hrep
                      rw [Client.profile, Client.profile, hst]
                      rfl
              · next h1 h2 =>
                  have hrep : t.reporting (.commitDataSet sender args) = none := by
                    simp only [reporting, hfind, hcheck, hst]
                    split
                    · next elem elems more st' he hs =>
                        exact absurd (Except.ok.inj he) (fun h => h2 _ _ h)
                    · rfl
                  exact .nothing hrep

/-- Every report is one of these. -/
theorem Wf.reports (hw : t.Wf) (hi : i.IsReport) : Reports t i (t.step i) := by
  cases i with
  | progress sender args => exact hw.progress_reports sender args
  | commitDataSet sender args => exact commitDataSet_reports t sender args
  | _ => exact absurd rfl hi

theorem checkTasks_error {method : String} {c : Client} {args : List Arg}
    (h : c.pendingTask = 0 ∨ args.head? ≠ some (.uint64 c.pendingTask)) :
    ∃ r, checkTasks method c args = .error r := by
  unfold checkTasks
  split
  · next task rest =>
      split
      · exact ⟨_, rfl⟩
      · next hp =>
          split
          · exact ⟨_, rfl⟩
          · next heq =>
              refine absurd ?_ (h.resolve_left hp)
              rw [not_not.mp heq]
              rfl
  · exact ⟨_, rfl⟩

/-- A stale report changes nothing. -/
theorem Stale.ignored (h : t.Stale i) (hi : i.IsReport) : t.step i = some t := by
  cases i with
  | progress sender args =>
      show (t.dbusProgress sender args).map Prod.fst = some t
      unfold dbusProgress
      cases hfind : t.findClientByDbusName sender with
      | none => rfl
      | some x =>
          obtain ⟨r, hr⟩ := @checkTasks_error "Progress" _ _ (h _ rfl x hfind)
          dsimp only
          rw [hr]
          rfl
  | commitDataSet sender args =>
      show (t.dbusCommitDataSet sender args).map Prod.fst = some t
      unfold dbusCommitDataSet
      cases hfind : t.findClientByDbusName sender with
      | none => rfl
      | some x =>
          obtain ⟨r, hr⟩ := @checkTasks_error "CommitDataSet" _ _ (h _ rfl x hfind)
          dsimp only
          rw [hr]
          rfl
  | _ => exact absurd rfl hi

/-! ## What reports leave alone -/

/-- Two states have the same projects with the same clients, apart from what reports change. -/
structure SameClients (s t : Server) : Prop where
  loaded : t.loaded = s.loaded
  profiles : ∀ b,
    (t.project b).clients.map Client.profile = (s.project b).clients.map Client.profile

theorem SameClients.trans (h : s.SameClients t) (h' : t.SameClients u) : s.SameClients u :=
  ⟨h'.loaded.trans h.loaded, fun b => (h'.profiles b).trans (h.profiles b)⟩

theorem SameClients.symm (h : s.SameClients t) : t.SameClients s :=
  ⟨h.loaded.symm, fun b => (h.profiles b).symm⟩

theorem SameClients.setSession {v : Session}
    (h : v.p.clients.map Client.profile = (s.project a).clients.map Client.profile) :
    s.SameClients (s.setSession a v) := by
  refine ⟨rfl, fun b => ?_⟩
  by_cases hb : b = a
  · rw [hb, setSession_project_self, h]
  · rw [setSession_project_ne s v hb]

/-- The clients are found under the same names. -/
theorem SameClients.find (h : s.SameClients t) (name : CStr) :
    (t.findClientByDbusName name).map (fun r => (r.1, r.2.profile))
      = (s.findClientByDbusName name).map (fun r => (r.1, r.2.profile)) := by
  have hfind : ∀ l : List Client,
      (l.find? (fun c => c.dbusName = some name)).map Client.profile
        = (l.map Client.profile).find? (fun r => r.2.1 = some name) := by
    intro l
    rw [List.find?_map]
    rfl
  have hsome : ∀ v : Server, (v.findClientByDbusName name).map (fun r => (r.1, r.2.profile))
      = v.loaded.findSome? (fun b => ((((v.project b).clients.map Client.profile).find?
        (fun r => r.2.1 = some name)).map (fun r => (b, r)))) := by
    intro v
    unfold findClientByDbusName findClient
    rw [List.map_findSome?]
    congr 1
    funext b
    rw [← hfind, Function.comp, Option.map_map, Option.map_map]
    rfl
  rw [hsome, hsome, h.loaded]
  congr 1
  funext b
  rw [h.profiles]

/-- Who is found under a name before is found under it afterwards. -/
theorem SameClients.find_some {name : CStr} {c : Client} (h : s.SameClients t)
    (hfind : s.findClientByDbusName name = some (a, c)) :
    ∃ d, t.findClientByDbusName name = some (a, d) ∧ d.profile = c.profile := by
  have hsame := h.find name
  rw [hfind] at hsame
  obtain ⟨⟨b, d⟩, hd, he⟩ := Option.map_eq_some_iff.mp hsame
  obtain ⟨rfl, hprofile⟩ := Prod.mk.inj he
  exact ⟨d, hd, hprofile⟩

/-- A client with the profile of the one it is written over. -/
theorem Wf.map_profile_put (hw : t.Wf) {c d : Client} (hc : c ∈ (t.project a).clients)
    (h : d.profile = c.profile) :
    (putClient d (t.project a).clients).map Client.profile
      = (t.project a).clients.map Client.profile := by
  unfold putClient Keyed.put
  rw [List.map_map]
  apply List.map_congr_left
  intro x hx
  rw [Function.comp]
  split
  · next he =>
      have hxc : x = c := Keyed.eq_of_key_eq (hw.clients_nodup a) hx hc
        (he.trans (congrArg Prod.fst h))
      rw [h, hxc]
  · rfl


/-! ## What ends the daemon -/

end Server

section

variable {s s' : Session} {c : Client} {p : Project} {id : Uuid} {g g' : Globals}
  {l l' : List Client} {ok : Bool}

/-- A lost client without arguments that waits for nobody but the client with the id. -/
def Client.Launchless (id : Uuid) (c : Client) : Prop :=
  c.argv = none ∧ c.unsatisfiedDeps ≠ [] ∧ clientDependencyRemove c.unsatisfiedDeps id = []

/-- The clients that wait for the client with the id are launched, unless one has no arguments. -/
theorem satisfyLost_eq_none_iff : satisfyLost p id g l = none ↔ ∃ c ∈ l, c.Launchless id := by
  induction l generalizing g with
  | nil => simp [satisfyLost]
  | cons c l ih =>
      have hskip : ¬ c.Launchless id → ((∃ d ∈ c :: l, d.Launchless id) ↔
          ∃ d ∈ l, d.Launchless id) := by
        intro hc
        simp [hc]
      rw [satisfyLost]
      split
      · next hnil => rw [Option.map_eq_none_iff, ih, hskip fun h => h.2.1 hnil]
      · next hne =>
          dsimp only
          split
          · next hlast =>
              unfold projectLaunchClient loaderExecute
              dsimp only
              split
              · next hlaunch =>
                  refine iff_of_true rfl ⟨c, List.mem_cons_self, ?_, hne, hlast⟩
                  cases hargv : c.argv with
                  | none => rfl
                  | some argv => rw [hargv] at hlaunch; exact absurd hlaunch (by simp)
              · next hlaunch =>
                  rw [Option.map_eq_none_iff, ih, hskip]
                  rintro ⟨hargv, -⟩
                  rw [hargv] at hlaunch
                  exact absurd hlaunch (by simp)
          · next hmore => rw [Option.map_eq_none_iff, ih, hskip fun h => hmore h.2.2]

/-- The client does not wait for the one with the id any more. -/
def Client.Released (id : Uuid) (c d : Client) : Prop :=
  d.argv = c.argv ∧ d.unsatisfiedDeps = clientDependencyRemove c.unsatisfiedDeps id

theorem satisfyLost_released (h : satisfyLost p id g l = some (g', l')) :
    List.Forall₂ (Client.Released id) l l' := by
  induction l generalizing g l' with
  | nil =>
      obtain ⟨-, rfl⟩ := Prod.mk.inj (Option.some.inj h)
      exact .nil
  | cons c l ih =>
      have hrest : ∀ {g₁ : Globals} {d : Client}, c.Released id d →
          (satisfyLost p id g₁ l).map (fun r => (r.1, d :: r.2)) = some (g', l') →
          List.Forall₂ (Client.Released id) (c :: l) l' := by
        intro g₁ d hd hmap
        obtain ⟨⟨g₂, l₂⟩, h₂, he⟩ := Option.map_eq_some_iff.mp hmap
        obtain ⟨rfl, rfl⟩ := Prod.mk.inj he
        exact .cons hd (ih h₂)
      rw [satisfyLost] at h
      split at h
      · next hnil => exact hrest ⟨rfl, by rw [hnil]; rfl⟩ h
      · dsimp only at h
        split at h
        · split at h
          · exact absurd h (by simp)
          · next g₁ d hlaunch =>
              have hd : c.Released id d := by
                obtain ⟨⟨pid, rfl⟩, -⟩ := projectLaunchClient_spec hlaunch
                exact ⟨rfl, rfl⟩
              exact hrest hd h
        · refine @hrest g { c with
            unsatisfiedDeps := clientDependencyRemove c.unsatisfiedDeps id } ⟨rfl, rfl⟩ h

/-- **The end of a task ends the daemon** if a data set was saved without a store, or if a lost
client is launched without arguments. -/
theorem clientTaskCompleted_eq_none_iff : clientTaskCompleted s c ok = none ↔
    ok = true ∧ (c.taskType = .saveDataSet ∧ c.store = none ∨
      c.taskType.isRestore = true ∧ ∃ d ∈ s.p.lostClients, d.Launchless c.id) := by
  unfold clientTaskCompleted
  dsimp only
  cases htype : c.taskType with
  | unknown => simp [EventType.isRestore]
  | saveFile => cases ok <;> simp [clientFinishTask, htype, EventType.isRestore]
  | saveDataSet =>
      cases ok <;> cases hstore : c.store <;>
        simp [clientFinishTask, htype, hstore, EventType.isRestore]
  | restoreFile | restoreDataSet =>
      cases ok with
      | false => simp [clientFinishTask]
      | true =>
          rw [if_neg (by decide), Option.map_eq_none_iff, clientFinishTask, if_pos rfl, htype]
          simp only [projectSatisfyClientDependency, Option.map_eq_none_iff,
            satisfyLost_eq_none_iff, EventType.isRestore]
          simp [Session.emit]

theorem projectClientProgress_lost (s : Session) (c : Client) (n : Nat) :
    (projectClientProgress s c n).1.p.lostClients = s.p.lostClients := by
  unfold projectClientProgress
  dsimp only
  split <;> rfl

theorem projectSetModifiedStatus_lost (s : Session) (b : Bool) :
    (projectSetModifiedStatus s b).p.lostClients = s.p.lostClients := by
  unfold projectSetModifiedStatus
  split <;> rfl

theorem projectClientsSaveComplete_lost (s : Session) :
    (projectClientsSaveComplete s).p.lostClients = s.p.lostClients := by
  refine (projectSetModifiedStatus_lost _ _).trans ?_
  unfold projectWriteInfo
  dsimp only
  split <;> rfl

theorem projectCountDown_lost (s : Session) (c : Client) :
    (projectCountDown s c).p.lostClients = s.p.lostClients := by
  unfold projectCountDown
  split
  · rfl
  · dsimp only
    split
    · unfold projectTaskFinished
      cases c.taskType with
      | saveFile | saveDataSet => exact projectClientsSaveComplete_lost _
      | restoreFile | restoreDataSet => exact projectSetModifiedStatus_lost _ _
      | unknown => rfl
    · rfl

/-- The lost clients wait for a client until it has been restored. -/
theorem clientTaskCompleted_lost (h : clientTaskCompleted s c ok = some s') :
    s'.p.lostClients = s.p.lostClients ∧ ¬ (ok = true ∧ c.taskType.isRestore = true) ∨
      (ok = true ∧ c.taskType.isRestore = true) ∧
        List.Forall₂ (Client.Released c.id) s.p.lostClients s'.p.lostClients := by
  unfold clientTaskCompleted at h
  dsimp only at h
  split at h
  · next htype =>
      rw [← Option.some.inj h, htype]
      exact Or.inl ⟨rfl, by simp [EventType.isRestore]⟩
  · obtain ⟨⟨u, d⟩, hfin, rfl⟩ := Option.map_eq_some_iff.mp h
    have hkept : ((projectClientTaskCompleted u d).1.put
        (projectClientTaskCompleted u d).2.clearTask).p.lostClients = u.p.lostClients :=
      (projectCountDown_lost _ _).trans (projectClientProgress_lost u d 100)
    have hrestored : (projectSatisfyClientDependency (s.emit (.taskCompleted s.p.addr c.addr
          c.pendingTask c.taskType ok)) c).map (fun s => (s, c)) = some (u, d) →
        List.Forall₂ (Client.Released c.id) s.p.lostClients u.p.lostClients := by
      intro hsat
      obtain ⟨v, hv, he⟩ := Option.map_eq_some_iff.mp hsat
      obtain ⟨rfl, rfl⟩ := Prod.mk.inj he
      obtain ⟨⟨g', l'⟩, hlost, rfl⟩ := Option.map_eq_some_iff.mp hv
      exact satisfyLost_released hlost
    dsimp only
    rw [hkept]
    unfold clientFinishTask at hfin
    cases ok with
    | false =>
        obtain ⟨rfl, rfl⟩ := Prod.mk.inj (Option.some.inj hfin)
        exact Or.inl ⟨rfl, by simp⟩
    | true =>
        rw [if_pos rfl] at hfin
        split at hfin
        · next htype =>
            split at hfin
            · exact absurd hfin (by simp)
            · obtain ⟨rfl, rfl⟩ := Prod.mk.inj (Option.some.inj hfin)
              exact Or.inl ⟨rfl, by simp [htype, EventType.isRestore]⟩
        · next htype =>
            obtain ⟨rfl, rfl⟩ := Prod.mk.inj (Option.some.inj hfin)
            exact Or.inl ⟨rfl, by simp [htype, EventType.isRestore]⟩
        · next htype => exact Or.inr ⟨⟨rfl, by rw [htype]; rfl⟩, hrestored hfin⟩
        · next htype => exact Or.inr ⟨⟨rfl, by rw [htype]; rfl⟩, hrestored hfin⟩
        · next htype =>
            obtain ⟨rfl, rfl⟩ := Prod.mk.inj (Option.some.inj hfin)
            exact Or.inl ⟨rfl, by simp [htype, EventType.isRestore]⟩

end

namespace Server

variable {s t u : Server} {a b : Addr} {i : Input} {c d e : Client}

/-! ## Whose reports are heard -/

/-- The client is the one that is found under its name on the bus. -/
def Hears (t : Server) (a : Addr) (c : Client) : Prop :=
  (c.dbusName.bind t.findClientByDbusName).map (fun r => (r.1, r.2.addr)) = some (a, c.addr)

instance (t : Server) (a : Addr) (c : Client) : Decidable (t.Hears a c) :=
  inferInstanceAs (Decidable (_ = _))

/-- The client can report the end of a restore. -/
def restores (t : Server) (a : Addr) (c : Client) : Bool :=
  c.pendingTask ≠ 0 && c.taskType.isRestore && t.Hears a c

/-- The ids of the clients of a project that can. -/
def restorers (t : Server) (a : Addr) : List Uuid :=
  ((t.project a).clients.filter (t.restores a)).map Client.id

theorem Hears.of_find {name : CStr} (h : t.findClientByDbusName name = some (a, c)) :
    t.Hears a c := by
  obtain ⟨-, -, hname⟩ := findClient_some h
  rw [decide_eq_true_eq] at hname
  rw [Hears, hname, Option.bind_some, h]
  rfl

theorem Hears.find (hw : t.Wf) (hc : c ∈ (t.project a).clients) (h : t.Hears a c) :
    ∃ name, t.findClientByDbusName name = some (a, c) := by
  obtain ⟨⟨b, d⟩, hbind, he⟩ := Option.map_eq_some_iff.mp h
  obtain ⟨name, -, hfind⟩ := Option.bind_eq_some_iff.mp hbind
  obtain ⟨rfl, haddr⟩ := Prod.mk.inj he
  obtain ⟨-, hd⟩ := findClientByDbusName_some hfind
  obtain rfl := Keyed.eq_of_key_eq (hw.clients_nodup b) hd hc haddr
  exact ⟨name, hfind⟩

/-- Reports do not change who is heard. -/
theorem SameClients.hears (h : t.SameClients u) (haddr : d.addr = c.addr)
    (hname : d.dbusName = c.dbusName) : u.Hears a d ↔ t.Hears a c := by
  have hfind : ∀ name, (u.findClientByDbusName name).map (fun r => (r.1, r.2.addr)) =
      (t.findClientByDbusName name).map (fun r => (r.1, r.2.addr)) := by
    intro name
    have hprofile := congrArg (Option.map (fun r => (r.1, r.2.1))) (h.find name)
    rwa [Option.map_map, Option.map_map] at hprofile
  unfold Hears
  rw [haddr, hname]
  cases c.dbusName with
  | none => exact Iff.rfl
  | some name => rw [Option.bind_some, Option.bind_some, hfind]

theorem SameClients.restores (h : t.SameClients u) (a : Addr) (c : Client) :
    u.restores a c = t.restores a c := by
  unfold Server.restores
  rw [decide_eq_decide.mpr (h.hears rfl rfl)]

/-- The clients of a project when one of them was written back. -/
theorem SameClients.restorers_put (h : t.SameClients u) (hw : t.Wf)
    (hc : c ∈ (t.project a).clients) (haddr : d.addr = c.addr)
    (hclients : (u.project a).clients = putClient d (t.project a).clients) :
    ∃ rest, (t.restorers a).Perm ((if t.restores a c then [c.id] else []) ++ rest) ∧
      (u.restorers a).Perm ((if u.restores a d then [d.id] else []) ++ rest) := by
  have hn := hw.clients_nodup a
  have hhead : ∀ (v : Server) (x : Client) (l : List Client),
      ((x :: l).filter (v.restores a)).map Client.id =
        (if v.restores a x then [x.id] else []) ++ (l.filter (v.restores a)).map Client.id := by
    intro v x l
    rw [List.filter_cons]
    split <;> rfl
  refine ⟨((Keyed.del Client.addr c.addr (t.project a).clients).filter (t.restores a)).map
    Client.id, ?_, ?_⟩
  · rw [← hhead]
    exact ((Keyed.cons_del_perm hn hc).symm.filter _).map _
  · have hfilter : t.restores a = u.restores a := funext fun x => (h.restores a x).symm
    rw [hfilter, ← hhead, restorers, hclients]
    exact ((Keyed.put_perm hn hc haddr).filter _).map _

/-! ## States that survive -/

/-- Whatever is reported, and in whatever order, does not end the daemon. -/
structure ReadyForReports (t : Server) : Prop where
  /-- Who is heard and saves a data set has a store. -/
  stores : ∀ name a c, t.findClientByDbusName name = some (a, c) → c.pendingTask ≠ 0 →
    c.taskType = .saveDataSet → c.store.isSome = true
  /-- A lost client without arguments waits for somebody who cannot report. -/
  arguments : ∀ a, ∀ d ∈ (t.project a).lostClients, d.argv = none → d.unsatisfiedDeps ≠ [] →
    ¬ d.unsatisfiedDeps.Subperm (t.restorers a)

/-- Where nobody has a task all reports are ignored. -/
theorem ReadyForReports.of_idle
    (h : ∀ a ∈ t.loaded, ∀ c ∈ (t.project a).clients, c.pendingTask = 0) : t.ReadyForReports := by
  constructor
  · intro name a c hfind hp
    obtain ⟨ha, hc⟩ := findClientByDbusName_some hfind
    exact absurd (h a ha c hc) hp
  · intro a e he hargv hdeps hsub
    have hnone : t.restorers a = [] := by
      rw [Server.restorers, List.map_eq_nil_iff, List.filter_eq_nil_iff]
      intro c hc hrestores
      simp only [Server.restores, Bool.and_eq_true, decide_eq_true_eq] at hrestores
      obtain ⟨⟨hp, -⟩, hhears⟩ := hrestores
      obtain ⟨r, hr, he⟩ := Option.map_eq_some_iff.mp hhears
      obtain ⟨name, -, hfind⟩ := Option.bind_eq_some_iff.mp hr
      have hra : r.1 = a := congrArg Prod.fst he
      obtain ⟨ha, -⟩ := findClientByDbusName_some (a := r.1) (c := r.2) hfind
      exact hp (h a (hra ▸ ha) c hc)
    rw [hnone] at hsub
    exact hdeps (List.subperm_nil.mp hsub)

/-- What a report that counts does to a project: the client `c` is written back as `d`. -/
structure Handled (t : Server) (a : Addr) (c d : Client) (u : Server) : Prop where
  mem : c ∈ (t.project a).clients
  same : t.SameClients u
  profile : d.profile = c.profile
  id : d.id = c.id
  clients : (u.project a).clients = putClient d (t.project a).clients
  others : ∀ b, b ≠ a → u.project b = t.project b
  task : d.pendingTask = 0 ∨ d.pendingTask = c.pendingTask ∧ d.taskType = c.taskType
  lost : (u.project a).lostClients = (t.project a).lostClients ∨ t.restores a c = true ∧
    d.pendingTask = 0 ∧ List.Forall₂ (Client.Released c.id) (t.project a).lostClients
      (u.project a).lostClients

theorem Wf.handled_of_completed (hw : t.Wf) {ok : Bool} {v : Session}
    (hc : c ∈ (t.project a).clients) (hprofile : d.profile = c.profile) (hid : d.id = c.id)
    (htype : d.taskType = c.taskType) (hp : c.pendingTask ≠ 0) (hhears : t.Hears a c)
    (h : clientTaskCompleted ((t.session a).put d) d ok = some v) :
    ∃ e, t.Handled a c e (t.setSession a v) ∧ e.pendingTask = 0 := by
  obtain ⟨e, heprofile, heid, hepend, hclients⟩ := clientTaskCompleted_clients h
  have hput : v.p.clients = putClient e (t.project a).clients := by
    rw [hclients]
    exact Keyed.put_put (congrArg Prod.fst heprofile)
  have hsame : t.SameClients (t.setSession a v) := by
    apply SameClients.setSession
    rw [hput]
    exact hw.map_profile_put hc (heprofile.trans hprofile)
  refine ⟨e, ⟨hc, hsame, heprofile.trans hprofile, heid.trans hid, ?_, ?_, Or.inl hepend, ?_⟩,
    hepend⟩
  · rw [setSession_project_self, hput]
  · exact fun b hb => setSession_project_ne t v hb
  · rw [setSession_project_self]
    rcases clientTaskCompleted_lost h with ⟨hlost, -⟩ | ⟨⟨-, hrestore⟩, hreleased⟩
    · exact Or.inl hlost
    · refine Or.inr ⟨?_, hepend, hid ▸ hreleased⟩
      simp [Server.restores, hp, ← htype, hrestore, hhears]

/-- Every report that counts is handled so. -/
theorem Wf.report_cases (hw : t.Wf) (hi : i.IsReport) (hs : t.step i = some u) :
    u = t ∨ ∃ a c d, t.Handled a c d u := by
  have hcase := hw.reports hi
  rw [hs] at hcase
  generalize ho : some u = o at hcase
  cases hcase with
  | nothing => exact Or.inl (Option.some.inj ho)
  | @progress a c n ha hc hp hn hrep =>
      obtain rfl := Option.some.inj ho
      obtain ⟨hclients, hprofile, hid⟩ := projectClientProgress_clients (t.session a) c n
      have hsame : t.SameClients (t.setSession a (projectClientProgress (t.session a) c n).1) := by
        apply SameClients.setSession
        rw [hclients]
        exact hw.map_profile_put hc hprofile
      refine Or.inr ⟨a, c, _, hc, hsame, hprofile, hid, ?_, ?_, Or.inr ?_, Or.inl ?_⟩
      · rw [setSession_project_self, hclients]
        rfl
      · exact fun b hb => setSession_project_ne t _ hb
      · unfold projectClientProgress
        dsimp only
        split <;> exact ⟨rfl, rfl⟩
      · rw [setSession_project_self]
        exact projectClientProgress_lost (t.session a) c n
  | @completed r a c d ok hr hfind hprofile hid hpend htype hprog hp hrep =>
      obtain ⟨v, hdone, rfl⟩ := Option.map_eq_some_iff.mp ho.symm
      obtain ⟨e, he, -⟩ := hw.handled_of_completed (findClientByDbusName_some hfind).2 hprofile hid
        htype hp (.of_find hfind) hdone
      exact Or.inr ⟨a, c, e, he⟩

/-- Who can report the end of a restore afterwards: all who could before, except for the client if
it did. -/
theorem Handled.restorers (h : t.Handled a c d u) (hw : t.Wf) (b : Addr) :
    (u.restorers b).Subperm (t.restorers b) ∧ (b = a → t.restores a c = true → d.pendingTask = 0 →
      (t.restorers a).Perm (c.id :: u.restorers a)) := by
  have haddr : d.addr = c.addr := congrArg Prod.fst h.profile
  have hname : d.dbusName = c.dbusName := by
    have hprofile := h.profile
    simp only [Client.profile, Prod.mk.injEq] at hprofile
    exact hprofile.2.1
  obtain ⟨rest, hbefore, hafter⟩ := h.same.restorers_put hw h.mem haddr h.clients
  have hdone : d.pendingTask = 0 → u.restores a d = false := by
    intro hp
    simp [Server.restores, hp]
  constructor
  · by_cases hb : b = a
    · subst hb
      refine hafter.subperm.trans (List.Subperm.trans ?_ hbefore.symm.subperm)
      rcases h.task with hp | ⟨hp, htype⟩
      · rw [hdone hp]
        exact (List.sublist_append_right _ _).subperm
      · have hsame : u.restores b d = t.restores b c := by
          unfold Server.restores
          rw [hp, htype, decide_eq_decide.mpr (h.same.hears haddr hname)]
        rw [hsame, h.id]
    · have hfilter : u.restores b = t.restores b := funext fun x => h.same.restores b x
      rw [Server.restorers, Server.restorers, h.others b hb, hfilter]
  · rintro - hc hp
    rw [hc, if_pos rfl] at hbefore
    rw [hdone hp] at hafter
    exact hbefore.trans (hafter.symm.cons c.id)

theorem Handled.ready (h : t.Handled a c d u) (hw : t.Wf) (hr : t.ReadyForReports) :
    u.ReadyForReports := by
  constructor
  · intro name b e hfind hp htype
    obtain ⟨f, hf, hprofile⟩ := h.same.symm.find_some hfind
    obtain ⟨-, hmem⟩ := findClientByDbusName_some hfind
    obtain ⟨-, hfmem⟩ := findClientByDbusName_some hf
    have hfe : f.addr = e.addr := congrArg Prod.fst hprofile
    have htask : f.pendingTask = e.pendingTask ∧ f.taskType = e.taskType := by
      by_cases hb : b = a
      · subst hb
        rw [h.clients] at hmem
        rcases Keyed.mem_put.mp hmem with ⟨rfl, -⟩ | ⟨hold, -⟩
        · have hfc : f = c := Keyed.eq_of_key_eq (hw.clients_nodup b) hfmem h.mem
            (hfe.trans (congrArg Prod.fst h.profile))
          rw [hfc]
          obtain ⟨hpend, htype⟩ := h.task.resolve_left hp
          exact ⟨hpend.symm, htype.symm⟩
        · obtain rfl := Keyed.eq_of_key_eq (hw.clients_nodup b) hfmem hold hfe
          exact ⟨rfl, rfl⟩
      · rw [h.others b hb] at hmem
        obtain rfl := Keyed.eq_of_key_eq (hw.clients_nodup b) hfmem hmem hfe
        exact ⟨rfl, rfl⟩
    have hstore := hr.stores name b f hf (htask.1 ▸ hp) (htask.2.trans htype)
    have hisSome : f.store.isSome = e.store.isSome :=
      congrArg (fun r : Addr × Option CStr × Bool × Bool × Bool => r.2.2.2.2) hprofile
    rwa [← hisSome]
  · intro b e he hargv hdeps hsub
    obtain ⟨hfewer, hwithout⟩ := h.restorers hw b
    by_cases hb : b = a
    · subst hb
      rcases h.lost with hlost | ⟨hc, hp, hlost⟩
      · rw [hlost] at he
        exact hr.arguments b e he hargv hdeps (hsub.trans hfewer)
      · obtain ⟨f, hf, hfargv, hfdeps⟩ := exists_of_forall₂ hlost he
        have hcons : f.unsatisfiedDeps.Subperm (c.id :: e.unsatisfiedDeps) := by
          rw [hfdeps]
          exact List.subperm_cons_erase c.id f.unsatisfiedDeps
        refine hr.arguments b f hf (hfargv ▸ hargv) ?_ ?_
        · intro hnil
          rw [hnil] at hfdeps
          exact hdeps hfdeps
        · exact hcons.trans (((List.subperm_cons c.id).mpr hsub).trans
            (hwithout rfl hc hp).symm.subperm)
    · rw [h.others b hb] at he
      exact hr.arguments b e he hargv hdeps (hsub.trans hfewer)

/-- **A report keeps the daemon ready** for the next one. -/
theorem ReadyForReports.step (hr : t.ReadyForReports) (hw : t.Wf) (hi : i.IsReport)
    (hs : t.step i = some u) : u.ReadyForReports := by
  rcases hw.report_cases hi hs with rfl | ⟨a, c, d, h⟩
  · exact hr
  · exact h.ready hw hr

/-- No report ends a daemon that is ready for it. -/
theorem ReadyForReports.survives (hr : t.ReadyForReports) (hw : t.Wf) (hi : i.IsReport) :
    t.step i ≠ none := by
  have hcase := hw.reports hi
  generalize t.step i = o at hcase
  cases hcase with
  | nothing | progress => simp
  | @completed r a c d ok hri hfind hprofile hid hpend htype hprog hp hrep =>
      intro hnone
      rw [Option.map_eq_none_iff, clientTaskCompleted_eq_none_iff] at hnone
      obtain ⟨-, ⟨hsave, hstore⟩ | ⟨hrestore, e, he, hargv, hdeps, hlast⟩⟩ := hnone
      · have hsome := hr.stores r.1 a c hfind hp (htype ▸ hsave)
        have hisSome : d.store.isSome = c.store.isSome :=
          congrArg (fun r : Addr × Option CStr × Bool × Bool × Bool => r.2.2.2.2) hprofile
        rw [← hisSome, hstore] at hsome
        exact absurd hsome (by decide)
      · have hc : t.restores a c = true := by
          simp [Server.restores, hp, ← htype, hrestore, Hears.of_find hfind]
        have hmem : d.id ∈ t.restorers a := by
          rw [hid]
          exact List.mem_map_of_mem (List.mem_filter.mpr
            ⟨(findClientByDbusName_some hfind).2, hc⟩)
        apply hr.arguments a e he hargv hdeps
        have hcons := List.subperm_cons_erase d.id e.unsatisfiedDeps
        rw [show e.unsatisfiedDeps.erase d.id = [] from hlast] at hcons
        exact hcons.trans (List.singleton_subperm_iff.mpr hmem)

/-- A client that is heard reports success. -/
theorem step_success {name : CStr} (hfind : t.findClientByDbusName name = some (a, c))
    (hp : c.pendingTask ≠ 0) : t.step (.progress name [.uint64 c.pendingTask, .byte 255]) =
      (clientTaskCompleted (t.session a) c true).map (t.setSession a) := by
  show (t.dbusProgress _ _).map Prod.fst = _
  unfold dbusProgress
  rw [hfind]
  simp only [checkTasks, hp, if_false, ne_eq, not_true_eq_false, clientTaskProgressed]
  rw [if_neg (by decide), if_pos (by decide), Option.map_map]
  rfl

/-- A daemon that no reports end is ready for them: the clients that a lost client without
arguments waits for could report success, one after the other. -/
theorem readyForReports_of_survives (hw : t.Wf)
    (h : ∀ u, Runs.Reach step (fun _ i => i.IsReport) t u → ∀ i : Input, i.IsReport →
      u.step i ≠ none) : t.ReadyForReports := by
  constructor
  · intro name a c hfind hp htype
    by_contra hstore
    refine h t .refl _ ?_ ((step_success hfind hp).trans ?_)
    · simp [Input.IsReport, Input.report]
    · rw [Option.map_eq_none_iff, clientTaskCompleted_eq_none_iff]
      exact ⟨rfl, Or.inl ⟨htype, Option.not_isSome_iff_eq_none.mp hstore⟩⟩
  · intro a e he hargv hdeps hsub
    -- by induction on what the lost client waits for
    generalize hwaits : e.unsatisfiedDeps = waits at hdeps hsub
    induction waits generalizing t e with
    | nil => exact hdeps rfl
    | cons x rest ih =>
        obtain ⟨c, hc, hid⟩ := List.mem_map.mp (hsub.subset List.mem_cons_self)
        obtain ⟨hc, hrestores⟩ := List.mem_filter.mp hc
        have hparts := hrestores
        simp only [Server.restores, Bool.and_eq_true, decide_eq_true_eq] at hparts
        obtain ⟨⟨hp, hrestore⟩, hhears⟩ := hparts
        obtain ⟨name, hfind⟩ := hhears.find hw hc
        have hi : (Input.progress name [.uint64 c.pendingTask, .byte 255]).IsReport := by
          simp [Input.IsReport, Input.report]
        cases hdone : clientTaskCompleted (t.session a) c true with
        | none =>
            refine h t .refl _ hi ((step_success hfind hp).trans ?_)
            rw [hdone]
            rfl
        | some v =>
            have hs : t.step (.progress name [.uint64 c.pendingTask, .byte 255]) =
                some (t.setSession a v) := by
              rw [step_success hfind hp, hdone]
              rfl
            have hput : (t.session a).put c = t.session a := hw.put_self hc
            obtain ⟨d, hd, hdp⟩ := hw.handled_of_completed (v := v) hc rfl rfl rfl hp hhears
              (by rw [hput]; exact hdone)
            have hrest : clientDependencyRemove e.unsatisfiedDeps c.id = rest := by
              rw [hwaits, hid]
              exact List.erase_cons_head x rest
            rcases clientTaskCompleted_lost hdone with ⟨-, hno⟩ | ⟨-, hreleased⟩
            · exact hno ⟨rfl, hrestore⟩
            · obtain ⟨f, hf, hfargv, hfdeps⟩ := exists_of_forall₂ hreleased.flip he
              refine ih ((hw.step_answers hs).wf hw)
                (fun u hu => h u (.trans (.tail .refl hi hs) hu)) f ?_ (hfargv.trans hargv)
                (hfdeps.trans hrest) ?_ ?_
              · rwa [setSession_project_self]
              · intro hnil
                have hnone : clientTaskCompleted (t.session a) c true = none := by
                  apply clientTaskCompleted_eq_none_iff.mpr
                  exact ⟨rfl, Or.inr
                    ⟨hrestore, e, he, hargv, by simp [hwaits], hrest.trans hnil⟩⟩
                rw [hdone] at hnone
                exact absurd hnone (by simp)
              · have hperm := (hd.restorers hw a).2 rfl hrestores hdp
                rw [hid] at hperm
                exact (List.subperm_cons x).mp (hsub.trans hperm.subperm)

/-- **Reports do not end the daemon**, in whatever order they arrive, exactly if it is ready for
them. -/
theorem survives_iff (hw : t.Wf) :
    (∀ u, Runs.Reach step (fun _ i => i.IsReport) t u → ∀ i : Input, i.IsReport →
      u.step i ≠ none) ↔ t.ReadyForReports := by
  constructor
  · exact readyForReports_of_survives hw
  · intro hr u hreach i hi
    have hboth : u.Wf ∧ u.ReadyForReports := by
      refine hreach.invariant (I := fun u => u.Wf ∧ u.ReadyForReports) ⟨hw, hr⟩ ?_
      rintro v i w - ⟨hv, hready⟩ hi hs
      exact ⟨(hv.step_answers hs).wf hv, hready.step hv hi hs⟩
    exact hboth.2.survives hboth.1 hi

end Server

end Lash
