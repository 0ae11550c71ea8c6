import Lash.Reports

/-!
# The save protocol

`ProjectSave` asks the clients of a project to save, and the clients answer with `Progress` and
`CommitDataSet` calls. `SaveProtocol` says what the daemon makes of these answers, in whatever order
they arrive and whoever sends them: which are ignored, which count, and what is announced.

The daemon keeps the protocol unless a report ends it. That happens when a client that was asked
for a data set has no store, which is what a failed `ProjectMove` leaves behind, in this project or
in another one that is being saved. It happens as well when the last client reports success that a
lost client without arguments waits for.
-/

namespace Lash

namespace Server

variable {s t u : Server} {a : Addr} {i : Input}

/-- The client `x` of project `a` reports the end of its task. -/
def completes (t : Server) (a x : Addr) (i : Input) : Bool :=
  (t.reporting i).any (fun r => r.1 = a && r.2.2.1.addr = x)

/-- The addresses of the clients that a save of the project asks. -/
def asked (s : Server) (a : Addr) : List Addr := (s.project a).stateful.map Client.addr

theorem SameClients.asked (h : s.SameClients t) (a : Addr) : t.asked a = s.asked a := by
  have hasked : ∀ v : Server, v.asked a = (((v.project a).clients.map Client.profile).filter
      (fun r => r.2.2.1)).map Prod.fst := by
    intro v
    rw [List.filter_map, List.map_map]
    rfl
  rw [hasked, hasked, h.profiles]

/-! ## A save in progress -/

/-- The state of the daemon during a save of project `a` that began in `s`; `evs` is what happened
since. -/
structure InRound (s : Server) (a : Addr) (t : Server) (evs : List Event) : Prop where
  wf : t.Wf
  same : s.SameClients t
  log : t.g.log = s.g.log ++ evs
  round : Round (s.g.taskIter + 1) (t.project a) evs

/-- A report that is about another project. -/
theorem InRound.elsewhere {evs es : List Event} {b : Addr} {v : Session} (h : InRound s a t evs)
    (hb : b ≠ a) (hwf : (t.setSession b v).Wf) (hlog : v.g.log = t.g.log ++ es)
    (hes : ∀ e ∈ es, e.project = b)
    (hsame : v.p.clients.map Client.profile = (t.project b).clients.map Client.profile) :
    InRound s a (t.setSession b v) (evs ++ es) ∧ ∀ x, completions a x es = 0 := by
  have hne : ∀ e ∈ es, e.project ≠ a := fun e he => (hes e he).symm ▸ hb
  refine ⟨⟨hwf, h.same.trans (.setSession hsame), ?_, ?_⟩, (silent_of_project_ne hne).1⟩
  · rw [setSession_g, hlog, h.log, List.append_assoc]
  · rw [setSession_project_ne t v (Ne.symm hb)]
    refine h.round.silent ?_
    rw [h.wf.addr]
    exact hne

/-- A report that is about the project itself. -/
theorem InRound.here {evs es : List Event} {v : Session} (h : InRound s a t evs)
    (hwf : (t.setSession a v).Wf) (hlog : v.g.log = t.g.log ++ es)
    (hround : Round (s.g.taskIter + 1) v.p (evs ++ es))
    (hsame : v.p.clients.map Client.profile = (t.project a).clients.map Client.profile) :
    InRound s a (t.setSession a v) (evs ++ es) := by
  refine ⟨hwf, h.same.trans (.setSession hsame), ?_, ?_⟩
  · rw [setSession_g, hlog, h.log, List.append_assoc]
  · rw [setSession_project_self]
    exact hround

/-- A report keeps the round, and it counts for the client that completes its task with it. -/
theorem InRound.step {evs : List Event} (h : InRound s a t evs) (hi : i.IsReport)
    (hs : t.step i = some u) :
    ∃ es, InRound s a u (evs ++ es) ∧
      ∀ x, completions a x es = if t.completes a x i then 1 else 0 := by
  have hwf := (h.wf.step_answers hs).wf h.wf
  have hcase := h.wf.reports hi
  rw [hs] at hcase
  generalize ho : some u = o at hcase
  have hnone : t.reporting i = none → ∀ x, (if t.completes a x i then 1 else 0) = 0 := by
    intro hrep x
    rw [completes, hrep]
    rfl
  cases hcase with
  | nothing hrep =>
      obtain rfl := Option.some.inj ho
      refine ⟨[], by rwa [List.append_nil], fun x => ?_⟩
      rw [hnone hrep]
      rfl
  | @progress b c n hb hc hp hn hrep =>
      obtain rfl := Option.some.inj ho
      obtain ⟨hclients, hprofile, -⟩ := projectClientProgress_clients (t.session b) c n
      have hsame : (projectClientProgress (t.session b) c n).1.p.clients.map Client.profile
          = (t.project b).clients.map Client.profile := by
        rw [hclients]
        exact h.wf.map_profile_put hc hprofile
      by_cases hba : b = a
      · subst hba
        have hbusy : c.busy = true := by simp [Client.busy, hp]
        obtain ⟨es, hlog, hround, hcomp⟩ := Round.progressed (s := t.session b) h.round hc hbusy
          ⟨hn.2 (h.round.asked c hc hbusy).progress, hn.1⟩
        refine ⟨es, h.here hwf hlog hround hsame, fun x => ?_⟩
        rw [hnone hrep, ← hcomp x, session_p, h.wf.addr]
      · obtain ⟨es, hlog, hes, _⟩ := (projectClientProgress_steps (t.session b) c n).logged
        rw [session_p, h.wf.addr] at hes
        obtain ⟨hin, hcomp⟩ := h.elsewhere hba hwf hlog hes hsame
        exact ⟨es, hin, fun x => by rw [hnone hrep, hcomp]⟩
  | @completed r b c d ok hr hfind hprofile hid hpend htype hprog hp hrep =>
      obtain ⟨v, hdone, rfl⟩ := Option.map_eq_some_iff.mp ho.symm
      obtain ⟨hb, hc⟩ := findClientByDbusName_some hfind
      have hcompletes : ∀ x, t.completes a x i = (b = a && d.addr = x) := by
        intro x
        rw [completes, hrep]
        rfl
      have hput : ((t.session b).put d).p.clients = putClient d (t.project b).clients := rfl
      obtain ⟨e, he, -, -, hclients⟩ := clientTaskCompleted_clients hdone
      have hsame : v.p.clients.map Client.profile = (t.project b).clients.map Client.profile := by
        have heput : v.p.clients = putClient e (t.project b).clients := by
          rw [hclients, hput]
          exact Keyed.put_put (congrArg Prod.fst he)
        rw [heput]
        exact h.wf.map_profile_put hc (he.trans hprofile)
      have hmem : d ∈ ((t.session b).put d).p.clients :=
        Keyed.mem_put_self hc (congrArg Prod.fst hprofile).symm
      have hdp : d.pendingTask ≠ 0 := by rwa [hpend]
      by_cases hba : b = a
      · subst hba
        have hbusy : d.busy = true := by simp [Client.busy, hdp]
        have hround := Round.put_same (s := t.session b) h.round hc hprofile hpend htype hprog
        obtain ⟨es, hlog, hround, hcomp⟩ :=
          Round.completed (s := (t.session b).put d) hround hmem hbusy hdone
        refine ⟨es, h.here hwf hlog hround hsame, fun x => ?_⟩
        have hcompx := hcomp x
        rw [show ((t.session b).put d).p.addr = b from h.wf.addr b] at hcompx
        rw [hcompx, hcompletes]
        simp [eq_comm]
      · obtain ⟨evs', _, hsteps⟩ := clientTaskCompleted_makes true hmem hdp hdone
        obtain ⟨es, hlog, hes, _⟩ := hsteps.logged
        rw [show ((t.session b).put d).p.addr = b from h.wf.addr b] at hes
        obtain ⟨hin, hcomp⟩ := h.elsewhere hba hwf hlog hes hsame
        refine ⟨es, hin, fun x => ?_⟩
        rw [hcomp, hcompletes]
        simp [hba]

/-! ## What was announced -/

end Server

/-- What the reports since a save of project `a` have come to: `asked` are the clients that were
asked, `evs` is what happened since. -/
structure Tally (a : Addr) (asked : List Addr) (p : Project) (evs : List Event) : Prop where
  /-- A client completes once, if it was asked. -/
  once : ∀ x, completions a x evs ≤ if x ∈ asked then 1 else 0
  /-- The clients that were asked and have not completed are waited for. -/
  pending : p.clientTasksPending = asked.countP (fun x => completions a x evs = 0)
  /-- The save is announced when all have completed. -/
  announced : announcements a evs = if ∀ x ∈ asked, completions a x evs = 1 then 1 else 0
  progress : ∃ values, readings a evs
      = 0 :: values ++ (if ∀ x ∈ asked, completions a x evs = 1 then [100] else [])
    ∧ values.Pairwise (· ≤ ·) ∧ ∀ n ∈ values, n ≤ 99

section

variable {task : Nat} {p : Project} {evs : List Event}

theorem Round.tally (h : Round task p evs) :
    Tally p.addr (p.stateful.map Client.addr) p evs := by
  have hmem : ∀ c ∈ p.clients, (c.addr ∈ p.stateful.map Client.addr ↔
      hasInternalState c.flags = true) := by
    intro c hc
    constructor
    · intro hx
      obtain ⟨d, hd, he⟩ := List.mem_map.mp hx
      obtain ⟨hd, hs⟩ := List.mem_filter.mp hd
      rwa [Keyed.eq_of_key_eq h.distinct hd hc he] at hs
    · intro hs
      exact List.mem_map_of_mem (List.mem_filter.mpr ⟨hc, hs⟩)
  have hzero : ∀ c ∈ p.clients, hasInternalState c.flags = true →
      (completions p.addr c.addr evs = if c.busy then 0 else 1) := by
    intro c hc hs
    rw [h.once c hc, hs]
    cases c.busy <;> rfl
  have hpending : p.clientTasksPending
      = (p.stateful.map Client.addr).countP (fun x => completions p.addr x evs = 0) := by
    rw [h.pending, List.countP_map, Project.stateful, List.countP_filter]
    apply List.countP_congr
    intro c hc
    rw [Bool.and_eq_true, Function.comp, decide_eq_true_eq]
    constructor
    · intro hb
      have hs := (h.asked c hc hb).stateful
      rw [hzero c hc hs, if_pos hb]
      exact ⟨rfl, hs⟩
    · rintro ⟨h0, hs⟩
      rw [hzero c hc hs] at h0
      by_contra hb
      rw [if_neg hb] at h0
      exact absurd h0 (by decide)
  have hall : (∀ x ∈ p.stateful.map Client.addr, completions p.addr x evs = 1) ↔
      p.clientTasksPending = 0 := by
    rw [hpending, List.countP_eq_zero]
    constructor
    · intro hone x hx
      rw [hone x hx]
      decide
    · intro hnone x hx
      obtain ⟨c, hc, rfl⟩ := List.mem_map.mp hx
      obtain ⟨hc, hs⟩ := List.mem_filter.mp hc
      have hne := hnone _ hx
      rw [decide_eq_true_eq, hzero c hc hs] at hne
      rw [hzero c hc hs]
      split at hne
      · exact absurd rfl hne
      · next hb => rw [if_neg hb]
  constructor
  case once =>
    intro x
    by_cases hx : x ∈ p.clients.map Client.addr
    · obtain ⟨c, hc, rfl⟩ := List.mem_map.mp hx
      rw [h.once c hc]
      by_cases hs : hasInternalState c.flags = true
      · rw [if_pos ((hmem c hc).mpr hs)]
        split <;> omega
      · rw [if_neg (fun hb => hs hb.1)]
        exact Nat.zero_le _
    · rw [h.others x hx]
      exact Nat.zero_le _
  case pending => exact hpending
  case announced =>
    by_cases h0 : p.clientTasksPending = 0
    · rw [if_pos (hall.mpr h0)]
      exact (h.finished h0).2.1
    · rw [if_neg (fun ha => h0 (hall.mp ha))]
      exact (h.running h0).2.1
  case progress =>
    by_cases h0 : p.clientTasksPending = 0
    · obtain ⟨_, _, values, hread, hrising⟩ := h.finished h0
      rw [if_pos (hall.mpr h0)]
      exact ⟨values, hread, hrising.sorted, fun n hn => (hrising.small n hn).1⟩
    · obtain ⟨_, _, _, _, values, hread, hrising⟩ := h.running h0
      rw [if_neg (fun ha => h0 (hall.mp ha))]
      refine ⟨values, ?_, hrising.sorted, fun n hn => (hrising.small n hn).1⟩
      rw [hread, List.append_nil]

end

/-! ## The protocol -/

namespace Server

variable {s t u : Server} {a : Addr} {i : Input}

/-- What the daemon, in state `t`, does about the save of project `a` that began in state `s`. -/
structure SaveProtocol (s : Server) (a : Addr) (t : Server) : Prop where
  /-- Stale reports change nothing. -/
  ignores : ∀ i : Input, i.IsReport → t.Stale i → t.step i = some t
  /-- No report ends the daemon, whoever sends it. -/
  survives : ∀ i : Input, i.IsReport → t.step i ≠ none
  /-- The completions that are accepted count, each once. -/
  counts : ∀ (i : Input) (u : Server), i.IsReport → t.step i = some u → ∀ x,
    completions a x u.g.log = completions a x t.g.log + if t.completes a x i then 1 else 0
  tally : ∃ evs, t.g.log = s.g.log ++ evs ∧ Tally a (s.asked a) (t.project a) evs

/-- Every client that will be asked for a data set has a store, if the daemon knows the client by
its D-Bus name. -/
def StoresReady (s : Server) (a : Addr) : Prop :=
  ∀ name c, s.findClientByDbusName name = some (a, c) → hasInternalState c.flags = true →
    configFile c.flags = false → c.store.isSome = true

/-- The protocol is kept in a state whose reports do not end the daemon. -/
theorem InRound.protocol {evs : List Event} (h : InRound s a t evs)
    (hsurvives : ∀ i : Input, i.IsReport → t.step i ≠ none) : SaveProtocol s a t where
  ignores := fun i hi hstale => hstale.ignored hi
  survives := hsurvives
  counts := by
    intro i u hi hs x
    obtain ⟨es, hin, hcomp⟩ := h.step hi hs
    rw [hin.log, h.log, completions_append, completions_append, completions_append, hcomp,
      Nat.add_assoc]
  tally := by
    have htally := h.round.tally
    rw [h.wf.addr, show (t.project a).stateful.map Client.addr = t.asked a from rfl,
      h.same.asked] at htally
    exact ⟨evs, h.log, htally⟩

/-- `project_save` of a project without a task, all of whose clients are without a task. -/
theorem Wf.begins (hw : s.Wf) (ha : a ∈ s.loaded) (hidle : (s.project a).taskType = .idle)
    (hpend : ∀ c ∈ (s.project a).clients, c.pendingTask = 0) :
    ∃ evs, InRound s a (s.projectSave a) evs ∧ (∀ c ∈ ((s.projectSave a).project a).clients,
      c.busy = hasInternalState c.flags) ∧ ((s.projectSave a).project a).lostClients = [] ∧
      ∀ b, b ≠ a → (s.projectSave a).project b = s.project b := by
  obtain ⟨evs, hlog, hround, _, hprofile, hbusy⟩ :=
    Round.begins (s := s.session a) (hw.clients_nodup a) hidle hpend
  have hwf : (s.projectSave a).Wf :=
    (projectSave_answers hw (i := .saveRound a) ha (if_pos ha) rfl).wf hw
  have hsame := SameClients.setSession (s := s) hprofile
  have hlost : (Lash.projectSave (s.session a)).p.lostClients = [] := by
    unfold Lash.projectSave
    rw [if_neg (fun hne => hne hidle)]
    dsimp only
    split
    · exact projectClientsSaveComplete_lost _
    · rfl
  have hproj : (s.projectSave a).project a = (Lash.projectSave (s.session a)).p
      ∧ (s.projectSave a).g = (Lash.projectSave (s.session a)).g
      ∧ s.SameClients (s.projectSave a)
      ∧ ∀ b, b ≠ a → (s.projectSave a).project b = s.project b := by
    unfold projectSave
    dsimp only
    split
    · exact ⟨setSession_project_self .., rfl, hsame, fun b hb => setSession_project_ne s _ hb⟩
    · exact ⟨setSession_project_self .., rfl, ⟨hsame.loaded, hsame.profiles⟩,
        fun b hb => setSession_project_ne s _ hb⟩
  obtain ⟨hp, hg, hsame, hothers⟩ := hproj
  refine ⟨evs, ⟨hwf, hsame, ?_, ?_⟩, ?_, ?_, hothers⟩
  · rw [hg]
    exact hlog
  · rw [hp]
    exact hround
  · rw [hp]
    exact hbusy
  · rw [hp]
    exact hlost

/-- The daemon is ready for reports when the save has begun if it was before, and those that are
asked for a data set have stores. -/
theorem Wf.begins_ready (hw : s.Wf) (ha : a ∈ s.loaded) (hidle : (s.project a).taskType = .idle)
    (hpend : ∀ c ∈ (s.project a).clients, c.pendingTask = 0) :
    (s.projectSave a).ReadyForReports ↔ s.StoresReady a ∧ s.ReadyForReports := by
  obtain ⟨evs, hbegin, hbusy, hlost, hothers⟩ := hw.begins ha hidle hpend
  have hsame := hbegin.same
  have hrestorers : ∀ b, b ≠ a → (s.projectSave a).restorers b = s.restorers b := by
    intro b hb
    rw [restorers, restorers, hothers b hb, funext (hsame.restores b)]
  -- the tasks of the clients of the project
  have htask : ∀ d ∈ ((s.projectSave a).project a).clients, d.pendingTask ≠ 0 →
      hasInternalState d.flags = true ∧
        d.taskType = if configFile d.flags then .saveFile else .saveDataSet := by
    intro d hd hp
    have hasked := hbegin.round.asked d hd (by simp [Client.busy, hp])
    exact ⟨hasked.stateful, hasked.taskType⟩
  constructor
  · intro hr
    refine ⟨?_, ?_, ?_⟩
    · intro name c hfind hs hf
      obtain ⟨d, hd, hprofile⟩ := hsame.find_some hfind
      obtain ⟨-, hdc⟩ := findClientByDbusName_some hd
      simp only [Client.profile, Prod.mk.injEq] at hprofile
      obtain ⟨-, -, hstate, hfile, hstore⟩ := hprofile
      have hb : d.busy = true := (hbusy d hdc).trans (hstate.trans hs)
      have hp : d.pendingTask ≠ 0 := by simpa [Client.busy] using hb
      have hds := hr.stores name a d hd hp (by rw [(htask d hdc hp).2, hfile, hf]; rfl)
      rwa [← hstore]
    · intro name b c hfind hp htype
      obtain ⟨-, hc⟩ := findClientByDbusName_some hfind
      by_cases hb : b = a
      · subst hb
        exact absurd (hpend c hc) hp
      · obtain ⟨d, hd, hprofile⟩ := hsame.find_some hfind
        obtain ⟨-, hdc⟩ := findClientByDbusName_some hd
        rw [hothers b hb] at hdc
        obtain rfl := Keyed.eq_of_key_eq (hw.clients_nodup b) hdc hc (congrArg Prod.fst hprofile)
        exact hr.stores name b d hd hp htype
    · intro b e he hargv hdeps hsub
      by_cases hb : b = a
      · subst hb
        have hnone : s.restorers b = [] := by
          rw [restorers, List.map_eq_nil_iff, List.filter_eq_nil_iff]
          intro c hc
          simp [restores, hpend c hc]
        rw [hnone] at hsub
        exact hdeps (List.subperm_nil.mp hsub)
      · rw [← hrestorers b hb] at hsub
        rw [← hothers b hb] at he
        exact hr.arguments b e he hargv hdeps hsub
  · rintro ⟨hready, hr⟩
    constructor
    · intro name b d hd hp htype
      obtain ⟨-, hdc⟩ := findClientByDbusName_some hd
      obtain ⟨c, hc, hprofile⟩ := hsame.symm.find_some hd
      by_cases hb : b = a
      · subst hb
        obtain ⟨hstate, hdtype⟩ := htask d hdc hp
        simp only [Client.profile, Prod.mk.injEq] at hprofile
        obtain ⟨-, -, hcs, hcf, hstore⟩ := hprofile
        have hfile : configFile d.flags = false := by
          rw [htype] at hdtype
          by_contra hf
          rw [Bool.not_eq_false] at hf
          rw [hf] at hdtype
          exact absurd hdtype (by decide)
        rw [← hstore]
        exact hready name c hc (hcs.trans hstate) (hcf.trans hfile)
      · rw [hothers b hb] at hdc
        obtain ⟨-, hcc⟩ := findClientByDbusName_some hc
        obtain rfl := Keyed.eq_of_key_eq (hw.clients_nodup b) hcc hdc (congrArg Prod.fst hprofile)
        exact hr.stores name b c hc hp htype
    · intro b e he hargv hdeps hsub
      by_cases hb : b = a
      · subst hb
        rw [hlost] at he
        exact absurd he List.not_mem_nil
      · rw [hrestorers b hb] at hsub
        rw [hothers b hb] at he
        exact hr.arguments b e he hargv hdeps hsub

/-- **The save protocol** holds, whatever reports arrive in whatever order and from whomever,
exactly if every client that is asked for a data set has a store, and no report of a client with a
task, in any project, ends the daemon. -/
theorem save_protocol_iff {ok : Server → Input → Prop} {fs : Fs} {dir : CStr}
    (h : Reachable ok fs dir s) (ha : a ∈ s.loaded) (hidle : (s.project a).taskType = .idle)
    (hpend : ∀ c ∈ (s.project a).clients, c.pendingTask = 0) :
    (∀ t, Runs.Reach step (fun _ i => i.IsReport) (s.projectSave a) t → SaveProtocol s a t)
      ↔ s.StoresReady a ∧ s.ReadyForReports := by
  obtain ⟨evs, hbegin, -⟩ := h.wf.begins ha hidle hpend
  rw [← h.wf.begins_ready ha hidle hpend, ← survives_iff hbegin.wf]
  constructor
  · intro hall t hreach i hi
    exact (hall t hreach).survives i hi
  · intro hsurvives t hreach
    have hround : ∃ evs, InRound s a t evs := by
      refine hreach.invariant (I := fun t => ∃ evs, InRound s a t evs) ⟨evs, hbegin⟩ ?_
      rintro u i v _ ⟨evs, hu⟩ hi hs
      obtain ⟨es, hin, _⟩ := hu.step hi hs
      exact ⟨_, hin⟩
    obtain ⟨evs, hin⟩ := hround
    exact hin.protocol (hsurvives t hreach)

/-- The project of a data-set client was to be moved to where no directory is: the client has lost
its store, and its report ends the daemon. -/
theorem save_protocol_broken :
    ∃ s, Reachable FreshId emptyDisk (cstr "/p") s ∧ 1 ∈ s.loaded ∧
      (s.project 1).taskType = .idle ∧ (∀ c ∈ (s.project 1).clients, c.pendingTask = 0) ∧
      ∃ t, Runs.Reach step (fun _ i => i.IsReport) (s.projectSave 1) t ∧ ¬ SaveProtocol s 1 t := by
  have hrun : (runFrom FreshId
      [.connect (cstr ":1") 5 (cstr "synth") flagConfigDataSet [] [cstr "synth"] 1,
        .projectMove (cstr "New Project") (cstr "/q/x")]).any
      (fun s => 1 ∈ s.loaded ∧ (s.project 1).taskType = .idle ∧
        (∀ c ∈ (s.project 1).clients, c.pendingTask = 0) ∧
        ((s.projectSave 1).step (.progress (cstr ":1") [.uint64 1, .byte 255])).isNone) =
      true := by
    decide +kernel
  obtain ⟨s, hs, hbad⟩ := exists_of_runFrom hrun
  obtain ⟨hloaded, hidle, hpend, hdead⟩ := of_decide_eq_true hbad
  refine ⟨s, hs, hloaded, hidle, hpend, _, .refl, ?_⟩
  intro hprot
  exact hprot.survives _ (by simp [Input.IsReport, Input.report])
    (Option.isNone_iff_eq_none.mp hdead)

/-- Two clients, one with a file and one with a data set. -/
theorem save_protocol_of_two :
    ∃ s, Reachable FreshId emptyDisk (cstr "/p") s ∧ (s.asked 1).length = 2 ∧
      ∀ t, Runs.Reach step (fun _ i => i.IsReport) (s.projectSave 1) t → SaveProtocol s 1 t := by
  have hrun : (runFrom FreshId
      [.connect (cstr ":1") 5 (cstr "synth") flagConfigDataSet [] [cstr "synth"] 1,
        .connect (cstr ":2") 6 (cstr "drums") flagConfigFile [] [cstr "drums"] 2]).any
      (fun s => s.loaded = [1] ∧ (s.project 1).taskType = .idle ∧
        (∀ c ∈ (s.project 1).clients, c.pendingTask = 0) ∧ (s.asked 1).length = 2 ∧
        ∀ c ∈ (s.project 1).clients, configFile c.flags = true ∨ c.store.isSome = true) = true := by
    decide +kernel
  obtain ⟨s, hs, hgood⟩ := exists_of_runFrom hrun
  obtain ⟨hloaded, hidle, hpend, htwo, hstores⟩ := of_decide_eq_true hgood
  have hready : s.StoresReady 1 ∧ s.ReadyForReports := by
    refine ⟨?_, .of_idle fun a ha c hc => ?_⟩
    · intro name c hfind _ hf
      obtain ⟨_, hc⟩ := findClientByDbusName_some hfind
      rcases hstores c hc with h | h
      · exact absurd (hf.symm.trans h) (by decide)
      · exact h
    · rw [hloaded, List.mem_singleton] at ha
      subst ha
      exact hpend c hc
  exact ⟨s, hs, htwo, (save_protocol_iff hs (by simp [hloaded]) hidle hpend).mpr hready⟩

end Server

end Lash
