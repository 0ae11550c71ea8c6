import Lash.SaveProtocol
import Lash.Isolation

/-!
# Delivered data sets

A client delivers a data set with `CommitDataSet`; the daemon takes it into the store of the client
and counts the save task as done. Whether it also writes the store depends on the task it gave the
client, which `project_save_clients` chose from the flags of the client. `Server.deliver` runs the
daemon and remembers who delivered for one save; what they delivered is on the disk if each delivery
answers a task to save a data set (`Server.delivered_is_written`).
-/

namespace Lash

/-! ## Writing a store that can be written -/

/-- The files of the values in memory and the info file can be created. -/
def Store.Writable (st : Store) (fs : Fs) : Prop :=
  ∀ f ∈ st.infoFilename :: st.unstoredConfigs.map (fun c => st.configFilename c.key),
    (st.prepare fs).reaches f = true ∧ (st.prepare fs).isDir (resolve f) = false

instance (st : Store) (fs : Fs) : Decidable (st.Writable fs) :=
  inferInstanceAs (Decidable (∀ f ∈ _, _))

theorem storeWriteConfigs_ok {st : Store} {l : List StoreConfig} {fs : Fs} (hfs : fs.Honest)
    (hl : ∀ c ∈ l, c.value ≠ []) (hfiles : ∀ c ∈ l, fs.reaches (st.configFilename c.key) = true ∧
      fs.isDir (resolve (st.configFilename c.key)) = false) :
    (storeWriteConfigs st fs l).1 = true ∧ (storeWriteConfigs st fs l).2.2.Honest := by
  induction l generalizing fs with
  | nil => exact ⟨rfl, hfs⟩
  | cons c l ih =>
      have hone := hfs.writeFile (st.configFilename c.key) [be32 c.value.length, c.value, [c.type]]
      rw [← storeWriteConfig_eq st fs (hl c List.mem_cons_self)] at hone
      have hframe := (storeWriteConfig_spec st fs c).1
      obtain ⟨hok, hhonest⟩ := ih hone.2 (fun d hd => hl d (List.mem_cons_of_mem _ hd)) (by
        intro d hd
        rw [hframe.reaches, hframe.dirs]
        exact hfiles d (List.mem_cons_of_mem _ hd))
      rw [storeWriteConfigs_cons]
      dsimp only
      rw [if_pos (hone.1.mpr (hfiles c List.mem_cons_self))]
      exact ⟨hok, hhonest⟩

/-- **With honest operations a store is written** if its files can be created. -/
theorem storeWrite_ok {st : Store} (h : st.Ok) {fs : Fs} (hfs : fs.Honest) (hw : st.Writable fs) :
    (storeWrite st fs).1 = true := by
  by_cases hne : st.unstoredConfigs = []
  · rw [storeWrite, if_pos hne]
  · have hprepare : (st.prepare fs).Honest := by
      rw [Store.prepare]
      split
      · exact hfs
      · exact hfs.lashCreateDir _
    obtain ⟨hok, hhonest⟩ := @storeWriteConfigs_ok st _ _ hprepare h.filled
      (fun c hc => hw _ (List.mem_cons_of_mem _ (List.mem_map_of_mem hc)))
    have hframe := (storeWriteConfigs_frame st (st.prepare fs) st.unstoredConfigs).1
    obtain ⟨ok, left, fs₁, hconfigs, ⟨hbad, -⟩ | ⟨-, ok', fs₂, hinfo, heq⟩⟩ :=
      storeWrite_cases h.kept hne fs
    · rw [hconfigs] at hok
      exact absurd hok (by rw [hbad]; simp)
    · rw [hconfigs] at hhonest hframe
      have hcreate := hw _ List.mem_cons_self
      rw [← hframe.reaches, ← hframe.dirs] at hcreate
      rw [storeWriteInfoFile_eq] at hinfo
      rw [heq, show ok' = _ from (congrArg Prod.fst hinfo).symm]
      exact (hhonest.writeFile _ _).1.mpr hcreate

/-- A client that delivers a data set that it was asked for has it written. -/
theorem clientTaskCompleted_written {s t : Session} {c : Client} {st : Store}
    (htype : c.taskType = .saveDataSet) (hst : c.store = some st)
    (h : clientTaskCompleted s c true = some t) :
    ∃ d : Client, d.addr = c.addr ∧ d.store = some (storeWrite st s.g.fs).2.1 ∧
      t.p.clients = putClient d s.p.clients := by
  unfold clientTaskCompleted at h
  dsimp only at h
  rw [if_neg (by rw [htype]; simp)] at h
  obtain ⟨⟨u, d⟩, hfin, rfl⟩ := Option.map_eq_some_iff.mp h
  have hd : d.addr = c.addr ∧ d.store = some (storeWrite st s.g.fs).2.1 ∧ u.p = s.p := by
    unfold clientFinishTask at hfin
    rw [if_pos rfl, htype] at hfin
    dsimp only at hfin
    rw [hst] at hfin
    obtain ⟨rfl, rfl⟩ := Prod.mk.inj (Option.some.inj hfin)
    exact ⟨rfl, rfl, rfl⟩
  have hprogress : (projectClientProgress u d 100).2.addr = d.addr ∧
      (projectClientProgress u d 100).2.store = d.store := by
    unfold projectClientProgress
    dsimp only
    split <;> exact ⟨rfl, rfl⟩
  refine ⟨(projectClientProgress u d 100).2.clearTask, hprogress.1.trans hd.1,
    hprogress.2.trans hd.2.1, ?_⟩
  have hclear : (projectCountDown (projectClientProgress u d 100).1
      (projectClientProgress u d 100).2).p.clients
      = putClient (projectClientProgress u d 100).2 s.p.clients := by
    rw [projectCountDown_clients, (projectClientProgress_clients u d 100).1, hd.2.2]
  exact (congrArg (putClient _) hclear).trans (Keyed.put_put rfl)

namespace Server

variable {s s' : Server} {a : Addr} {t : Nat} {i : Input}

/-! ## Deliveries -/

/-- The client of project `a` whose data set for task `t` is taken. -/
def delivers (s : Server) (a : Addr) (t : Nat) : Input → Option Addr
  | .commitDataSet sender args =>
    match s.reporting (.commitDataSet sender args) with
    | some (b, _, c, ok) => if ok ∧ b = a ∧ c.pendingTask = t then some c.addr else none
    | none => none
  | _ => none

/-- A save of project `a` begins. -/
def BeginsSave (s : Server) (a : Addr) (i : Input) : Prop :=
  s.saving i = some a ∧ (s.project a).taskType = .idle

instance (s : Server) (a : Addr) (i : Input) : Decidable (s.BeginsSave a i) :=
  inferInstanceAs (Decidable (_ ∧ _))

/-- A step of the daemon, with the clients of project `a` that have delivered a data set for task
`t` since the last save of the project began. -/
def deliver (a : Addr) (t : Nat) (p : Server × List Addr)
    (i : Input) : Option (Server × List Addr) :=
  (p.1.step i).map (fun s =>
    (s, (if p.1.BeginsSave a i then [] else p.2) ++ (p.1.delivers a t i).toList))

/-- The id of the last save that a project was asked for. -/
def lastSave (a : Addr) (log : List Event) : Option Nat :=
  (log.filterMap (fun e => match e with
    | .save b _ t => if b = a then some t else none
    | _ => none)).getLast?

/-- Whoever is in the list has nothing left in memory only. -/
def Flushed (s : Server) (a : Addr) (xs : List Addr) : Prop :=
  ∀ x ∈ xs, ∀ c ∈ (s.project a).clients ++ (s.project a).lostClients, c.addr = x →
    ∀ st, c.store = some st → st.unstoredConfigs = []

/-- If a step announces that project `a` is saved, and `t` is the id of its last save, then what was
delivered for `t` is written. -/
def SavesDelivered (a : Addr) (t : Nat) (p : Server × List Addr) (i : Input) : Prop :=
  ∀ p', deliver a t p i = some p' → ∀ name evs, p'.1.g.log = p.1.g.log ++ evs →
    .projectSaved a name ∈ evs → lastSave a p'.1.g.log = some t → p'.1.Flushed a p'.2

/-- The operations on the disk succeed, and a data set that is delivered for `t`, or by a client
that has delivered already, is a good one, answers a task to save a data set, and can be written.
-/
structure WritesWhatComes (a : Addr) (t : Nat) (p : Server × List Addr) (i : Input) : Prop where
  honest : p.1.g.fs.Honest
  task : ∀ u c ok, p.1.reporting i = some (a, u, c, ok) →
    (∃ sender args, i = .commitDataSet sender args) →
      (ok = true ∧ c.pendingTask = t ∨ c.addr ∈ p.2) →
      ok = true ∧ c.taskType = .saveDataSet ∧ ∀ st, c.store = some st → st.Writable p.1.g.fs

/-- No two clients of a project have one address. -/
theorem Wf.addrs_nodup (hw : s.Wf) (a : Addr) :
    (((s.project a).clients ++ (s.project a).lostClients).map Client.addr).Nodup := by
  have h := hw.distinct a
  rwa [View.Distinct, Server.view, View.jobs, Project.view, ← List.map_append, List.map_map] at h

/-- A delivery is a report that completes the task of its client. -/
theorem step_of_commit {sender : CStr} {args : List Arg} {u : Session} {c : Client} {ok : Bool}
    (h : s.reporting (.commitDataSet sender args) = some (a, u, c, ok)) :
    s.step (.commitDataSet sender args) = (clientTaskCompleted u c ok).map (s.setSession a) := by
  have hr := commitDataSet_reports s sender args
  generalize s.step (.commitDataSet sender args) = r at hr ⊢
  cases hr with
  | nothing hrep =>
      rw [hrep] at h
      exact absurd h (by simp)
  | progress _ _ _ _ hrep =>
      rw [hrep] at h
      exact absurd h (by simp)
  | completed _ _ _ _ _ _ _ _ hrep =>
      rw [hrep] at h
      simp only [Option.some.injEq, Prod.mk.injEq] at h
      obtain ⟨rfl, rfl, rfl, rfl⟩ := h
      rfl

/-- What has been written stays written, unless its client delivers again. -/
theorem Flushed.step {xs : List Addr} (h : s.Flushed a xs) (hw : s.Wf) (hst : s.StoresOk)
    (hquiet : ∀ u c ok, s.reporting i = some (a, u, c, ok) →
      (∃ sender args, i = .commitDataSet sender args) → c.addr ∉ xs)
    (hs : s.step i = some s') : s'.Flushed a xs := by
  let Q : Addr → Addr → Store → Prop :=
    fun b x st => st.Ok ∧ (b = a → x ∈ xs → st.unstoredConfigs = [])
  have hkept : Kept (s.MayDo i) (fun _ => True) Q := by
    refine ⟨fun _ _ => trivial, id, ?_, ?_⟩
    · rintro b x st fs - ⟨hok, hflushed⟩
      refine ⟨trivial, hok.write fs, ?_⟩
      intro hb hx
      rcases storeWrite_frame hok.kept fs with ⟨hnil, heq⟩ | ⟨hne, -⟩
      · rw [heq]
        exact hnil
      · exact absurd (hflushed hb hx) hne
    · intro b x dir fs _ _
      exact ⟨(storeOpen_spec dir fs).1, fun _ _ => (storeOpen_spec dir fs).2.2.1⟩
  have hhas : s.Has (fun _ => True) Q := by
    refine ⟨trivial, ?_, ?_⟩
    · intro b c hc st hcs
      refine ⟨hst.live b c hc st hcs, ?_⟩
      rintro rfl hx
      exact h c.addr hx c (List.mem_append_left _ hc) rfl st hcs
    · intro b c hc st hcs
      refine ⟨hst.lost b c hc st hcs, ?_⟩
      rintro rfl hx
      exact h c.addr hx c (List.mem_append_right _ hc) rfl st hcs
  have hcommit : ∀ b u c ok, s.reporting i = some (b, u, c, ok) → c.StoreIs (Q b) := by
    intro b u c ok hi st hcs
    refine ⟨hst.reporting hi st hcs, ?_⟩
    rintro rfl hx
    obtain ⟨-, d, hd, -, hcase⟩ := reporting_cases hi
    rcases hcase with ⟨-, rfl, -⟩ | ⟨sender, args, _, _, _, hcom, -⟩
    · exact h c.addr hx c (List.mem_append_left _ hd) rfl st hcs
    · exact absurd hx (hquiet u c ok hi ⟨sender, args, hcom⟩)
  have hafter := step_has hkept hw hhas hcommit (fun _ _ _ => trivial) hs
  rintro x hx c hc rfl st hcs
  rcases List.mem_append.mp hc with hc | hc
  · exact (hafter.live a c hc st hcs).2 rfl hx
  · exact (hafter.lost a c hc st hcs).2 rfl hx

/-- **A data set that answers the task to save one is written** before anything else happens. -/
theorem Flushed.commit {x : Addr} {sender : CStr} {args : List Arg} {u : Session} {c : Client}
    (hw : s.Wf) (hst : s.StoresOk) (hfs : s.g.fs.Honest)
    (h : s.reporting (.commitDataSet sender args) = some (a, u, c, true))
    (htype : c.taskType = .saveDataSet) (hwrite : ∀ st, c.store = some st → st.Writable s.g.fs)
    (hs : s.step (.commitDataSet sender args) = some s') (hx : c.addr = x) : s'.Flushed a [x] := by
  obtain ⟨-, d, hd, -, hcase⟩ := reporting_cases h
  rcases hcase with ⟨-, -, _, _, hprog⟩ | ⟨_, _, elems, _, st₀, -, -, -, -, -, rfl, rfl⟩
  · cases hprog
  · have hok : (commitConfigs st₀ elems).2.Ok := hst.reporting h _ rfl
    have hdone := storeWrite_ok hok hfs (hwrite _ rfl)
    rw [step_of_commit h] at hs
    obtain ⟨v, hv, rfl⟩ := Option.map_eq_some_iff.mp hs
    obtain ⟨e, haddr, hstore, hclients⟩ := clientTaskCompleted_written htype rfl hv
    have hw' : (s.setSession a v).Wf := by
      have hstep : s.step (.commitDataSet sender args) = some (s.setSession a v) := by
        rw [step_of_commit h, hv]
        rfl
      exact (hw.step_answers hstep).wf hw
    have hmem : e ∈ ((s.setSession a v).project a).clients := by
      rw [setSession_project_self, hclients]
      refine Keyed.mem_put.mpr (Or.inl ⟨rfl, _, ?_, haddr.symm⟩)
      exact Keyed.mem_put.mpr (Or.inl ⟨rfl, d, hd, rfl⟩)
    intro y hy f hf hfy st hfs'
    obtain rfl : f = e := by
      refine Keyed.eq_of_key_eq (hw'.addrs_nodup a) hf (List.mem_append_left _ hmem) ?_
      rw [hfy, List.mem_singleton.mp hy, ← hx, haddr]
    rw [hstore] at hfs'
    obtain rfl := Option.some.inj hfs'
    rcases storeWrite_frame hok.kept s.g.fs with ⟨hnil, heq⟩ | ⟨-, -, left, -, heq, hleft⟩
    · show (storeWrite _ s.g.fs).2.1.unstoredConfigs = []
      rw [heq]
      exact hnil
    · show (storeWrite _ s.g.fs).2.1.unstoredConfigs = []
      rw [heq]
      exact hleft hdone

/-- What an admitted step does to the stores of those who have delivered. -/
theorem Flushed.deliver_step {t : Nat} {p p' : Server × List Addr} (hw : p.1.Wf)
    (hst : p.1.StoresOk) (h : p.1.Flushed a p.2) (hi : WritesWhatComes a t p i)
    (hs : deliver a t p i = some p') : p'.1.Flushed a p'.2 := by
  obtain ⟨v, hv, rfl⟩ := Option.map_eq_some_iff.mp hs
  have hbegin : p.1.Flushed a (if p.1.BeginsSave a i then [] else p.2) := by
    split
    · exact fun x hx => absurd hx List.not_mem_nil
    · exact h
  have hsub : ∀ x ∈ (if p.1.BeginsSave a i then [] else p.2), x ∈ p.2 := by
    intro x hx
    split at hx
    · exact absurd hx List.not_mem_nil
    · exact hx
  generalize (if p.1.BeginsSave a i then [] else p.2) = xs at hbegin hsub
  -- either somebody delivers what the condition is about, or nobody of the list does
  by_cases hcom : ∃ u c ok sender args, i = .commitDataSet sender args ∧
      p.1.reporting i = some (a, u, c, ok) ∧ (ok = true ∧ c.pendingTask = t ∨ c.addr ∈ p.2)
  · obtain ⟨u, c, ok, sender, args, rfl, hrep, hwho⟩ := hcom
    obtain ⟨rfl, htype, hwrite⟩ := hi.task u c ok hrep ⟨sender, args, rfl⟩ hwho
    have hnew := Flushed.commit hw hst hi.honest hrep htype hwrite hv rfl
    have hrest : v.Flushed a (xs.filter (· ≠ c.addr)) := by
      refine Flushed.step (fun x hx => hbegin x (List.mem_of_mem_filter hx)) hw hst ?_ hv
      intro u' c' ok' hrep' _ hmem
      rw [hrep] at hrep'
      simp only [Option.some.injEq, Prod.mk.injEq] at hrep'
      obtain ⟨-, -, rfl, -⟩ := hrep'
      simp at hmem
    intro x hx
    by_cases hxc : x = c.addr
    · exact hnew x (by simp [hxc])
    · refine hrest x (List.mem_filter.mpr ⟨?_, by simpa using hxc⟩)
      rcases List.mem_append.mp hx with hx | hx
      · exact hx
      · simp only [delivers, hrep] at hx
        split at hx
        · exact absurd (by simpa using hx) hxc
        · simp at hx
  · have hnone : p.1.delivers a t i = none := by
      unfold delivers
      split
      · next sender args =>
          split
          · next b u c ok hrep =>
              refine if_neg ?_
              rintro ⟨hok, rfl, hpend⟩
              exact hcom ⟨u, c, ok, sender, args, rfl, hrep, Or.inl ⟨hok, hpend⟩⟩
          · rfl
      · rfl
    show v.Flushed a (xs ++ (p.1.delivers a t i).toList)
    rw [hnone]
    have hstep : v.Flushed a xs := by
      refine Flushed.step hbegin hw hst ?_ hv
      rintro u c ok hrep ⟨sender, args, rfl⟩ hx
      exact hcom ⟨u, c, ok, sender, args, rfl, hrep, Or.inr (hsub _ hx)⟩
    simpa using hstep

/-- **Whoever has delivered a data set has it on the disk**, in every run in which deliveries answer
tasks to save a data set. -/
theorem flushed_of_reach {t : Nat} {fs : Fs} {dir : CStr} {p : Server × List Addr}
    (h : Runs.Reach (deliver a t) (WritesWhatComes a t) (start fs dir, []) p) :
    p.1.Wf ∧ p.1.StoresOk ∧ p.1.Flushed a p.2 := by
  have hs := start_starting fs dir
  refine h.invariant (I := fun p => p.1.Wf ∧ p.1.StoresOk ∧ p.1.Flushed a p.2)
    ⟨hs.wf, hs.has trivial _, fun x hx => absurd hx List.not_mem_nil⟩ ?_
  rintro p i q _ ⟨hw, hst, hf⟩ hi hq
  have hq' := hq
  obtain ⟨v, hv, rfl⟩ := Option.map_eq_some_iff.mp hq'
  exact ⟨(hw.step_answers hv).wf hw, hst.step hw hv, hf.deliver_step hw hst hi hq⟩

/-- **A saved project has what its clients delivered on the disk**, if all of them were asked for
data sets. -/
theorem delivered_is_written {t : Nat} {fs : Fs} {dir : CStr} {p : Server × List Addr}
    (h : Runs.Reach (deliver a t) (WritesWhatComes a t) (start fs dir, []) p)
    (hi : WritesWhatComes a t p i) : SavesDelivered a t p i := by
  obtain ⟨hw, hst, hf⟩ := flushed_of_reach h
  intro p' hs _ _ _ _ _
  exact hf.deliver_step hw hst hi hs

/-! ## A client with both flags -/

/-- Every report that the daemon takes is a data set that it asked for. -/
def AskedForData (p : Server × List Addr) (i : Input) : Prop :=
  p.1.g.fs.Honest ∧ (p.1.reporting i).all (fun r => r.2.2.2 = true ∧
    r.2.2.1.taskType = .saveDataSet ∧ r.2.2.1.store.all (fun st => st.Writable p.1.g.fs)) = true

instance (p : Server × List Addr) (i : Input) : Decidable (AskedForData p i) :=
  inferInstanceAs (Decidable (_ ∧ _))

theorem AskedForData.writes {t : Nat} {p : Server × List Addr} (h : AskedForData p i) :
    WritesWhatComes a t p i := by
  refine ⟨h.1, ?_⟩
  intro u c ok hrep _ _
  have hall := h.2
  rw [hrep, Option.all_some] at hall
  obtain ⟨hok, htype, hstore⟩ := of_decide_eq_true hall
  refine ⟨hok, htype, ?_⟩
  intro st hst
  rw [hst, Option.all_some] at hstore
  exact of_decide_eq_true hstore

/-- A client that is asked for a data set delivers one, and the project is saved. -/
theorem data_set_is_written :
    ∃ p i, Runs.Reach (deliver 1 1) (WritesWhatComes 1 1) (start emptyDisk (cstr "/p"), []) p ∧
      SavesDelivered 1 1 p i ∧ (deliver 1 1 p i).any (fun p' => p'.2 = [0] ∧
        .projectSaved 1 (cstr "New Project") ∈ p'.1.g.log ∧ lastSave 1 p'.1.g.log = some 1) := by
  have hrun : (Runs.exec (deliver 1 1) AskedForData (start emptyDisk (cstr "/p"), [])
      [.connect (cstr ":1") 5 (cstr "synth") flagConfigDataSet [] [cstr "synth"] 1,
        .projectSave (cstr "New Project")]).any (fun p =>
      decide (AskedForData p (.commitDataSet (cstr ":1")
        [.uint64 1, .array [numberElem (cstr "x") (by decide +kernel) 7]])) &&
      (deliver 1 1 p (.commitDataSet (cstr ":1")
        [.uint64 1, .array [numberElem (cstr "x") (by decide +kernel) 7]])).any
        (fun p' => p'.2 = [0] ∧ .projectSaved 1 (cstr "New Project") ∈ p'.1.g.log ∧
          lastSave 1 p'.1.g.log = some 1)) = true := by
    decide +kernel
  obtain ⟨p, hp, hgood⟩ := Runs.Reach.exists_of_exec hrun
  obtain ⟨hask, hdone⟩ := (Bool.and_eq_true _ _).mp hgood
  have hp' := hp.mono (fun _ _ h => AskedForData.writes (a := 1) (t := 1) h)
  exact ⟨p, _, hp', delivered_is_written hp' (of_decide_eq_true hask).writes, hdone⟩

/-- A client with both flags delivers a data set while it is asked for a file: the project is
announced as saved, and the data set is in memory only. -/
theorem both_flags_lose_data :
    ∃ p i, Runs.Reach (deliver 1 1) (fun p i => FreshId p.1 i ∧ p.1.g.fs.Honest)
        (start emptyDisk (cstr "/p"), []) p ∧ FreshId p.1 i ∧ p.1.g.fs.Honest ∧
      ¬ SavesDelivered 1 1 p i := by
  have hrun : (Runs.exec (deliver 1 1) (fun p i => FreshId p.1 i ∧ p.1.g.fs.Honest)
      (start emptyDisk (cstr "/p"), [])
      [.connect (cstr ":1") 5 (cstr "synth") (flagConfigFile ||| flagConfigDataSet) []
          [cstr "synth"] 1,
        .projectSave (cstr "New Project")]).any (fun p =>
      decide (FreshId p.1 (.commitDataSet (cstr ":1")
        [.uint64 1, .array [numberElem (cstr "x") (by decide +kernel) 7]]) ∧ p.1.g.fs.Honest) &&
      (deliver 1 1 p (.commitDataSet (cstr ":1")
        [.uint64 1, .array [numberElem (cstr "x") (by decide +kernel) 7]])).any
        (fun p' => p'.1.g.log = p.1.g.log ++ p'.1.g.log.drop p.1.g.log.length ∧
          .projectSaved 1 (cstr "New Project") ∈ p'.1.g.log.drop p.1.g.log.length ∧
          lastSave 1 p'.1.g.log = some 1 ∧ 0 ∈ p'.2 ∧ (p'.1.project 1).clients.any (fun c =>
            c.addr = 0 ∧ c.store.any (fun st => st.unstoredConfigs ≠ [])))) = true := by
    decide +kernel
  obtain ⟨p, hp, hbad⟩ := Runs.Reach.exists_of_exec hrun
  obtain ⟨hask, hdone⟩ := (Bool.and_eq_true _ _).mp hbad
  obtain ⟨hfresh, hhonest⟩ := of_decide_eq_true hask
  obtain ⟨p', hp', hlost⟩ := (Option.any_eq_true _ _).mp hdone
  obtain ⟨hlog, hsaved, hlast, hmem, hclients⟩ := of_decide_eq_true hlost
  obtain ⟨c, hc, hstore⟩ := List.any_eq_true.mp hclients
  obtain ⟨haddr, hstore⟩ := of_decide_eq_true hstore
  obtain ⟨st, hst, hne⟩ := (Option.any_eq_true _ _).mp hstore
  refine ⟨p, _, hp, hfresh, hhonest, ?_⟩
  intro h
  exact of_decide_eq_true hne
    (h p' hp' _ _ hlog hsaved hlast 0 hmem c (List.mem_append_left _ hc) haddr st hst)

end Server

end Lash
