import Lash.Agreement
import Lash.Stuck

/-!
# Nothing is lost between the daemon and its clients

What the invariant says in the states that the daemon and its clients get to: every task is in one
place (`tasks_accounted`), a report that ends a task is accepted (`reports_accepted`), and a process
that has read its messages knows the name of its project (`names_agree`). The daemon in the network
is the daemon alone as far as it can tell (`Reachable.server`), so what holds in its runs holds
here: a project that is at a task waits for somebody who is going to be heard of (`task_goes_on`).
-/

namespace Lash

/-! ## The daemon alone -/

namespace Server

variable {s s' : Server} {i : Input} {a : Addr}

/-- Every live client has a name on the bus. -/
def Named (s : Server) : Prop :=
  ∀ a ∈ s.loaded, ∀ c ∈ (s.project a).clients, ∃ n, c.dbusName = some n

theorem Named.step (h : s.Named) (hw : s.Wf) (hs : s.step i = some s') : s'.Named := by
  intro a ha c hc
  rcases step_live hw hs with hold | ⟨b, x, sender, _, _, _, _, _, _, -, hnew⟩
  · obtain ⟨ha', d, hd, -, hname⟩ := hold a ha c hc
    rw [hname]
    exact h a ha' d hd
  · rcases hnew a ha c hc with ⟨ha', d, hd, -, hname⟩ | ⟨-, -, hname⟩
    · rw [hname]
      exact h a ha' d hd
    · exact ⟨sender, hname⟩

theorem Reachable.named {ok : Server → Input → Prop} {fs : Fs} {dir : CStr}
    (h : Reachable ok fs dir s) : s.Named := by
  have hs := start_starting fs dir
  refine (h.invariant (I := fun t => t.Wf ∧ t.Named) ⟨hs.wf, ?_⟩ ?_).2
  · intro a ha
    rw [hs.loaded] at ha
    exact absurd ha List.not_mem_nil
  · rintro t i u _ ⟨hw, hn⟩ - htu
    exact ⟨(hw.step_answers htu).wf hw, hn.step hw htu⟩

/-- A project that is at a task waits for somebody, a live client that has a task or a lost one that
is expected back. -/
theorem Reachable.waits {fs : Fs} {dir : CStr} (h : Reachable KeepsWaiting fs dir s)
    (ha : a ∈ s.loaded) (htask : (s.project a).taskType ≠ .idle) :
    (∃ c ∈ (s.project a).clients, c.pendingTask ≠ 0) ∨
      (s.project a).taskType = .load ∧
        ∃ c ∈ (s.project a).lostClients, resumedSince a c.addr s.g.log = false := by
  have hI : (s.view a).loaded = true → (s.view a).task ≠ .idle →
      Waiting a (s.view a) (tasks a s.g.log) := by
    refine h.induction (I := fun v log => v.loaded = true → v.task ≠ .idle → Waiting a v log)
      a ?_ ?_
    · exact fun hl => absurd hl (by simp [Project.view])
    · intro s i v' act evs hw hok hexp hmove hI
      exact Waiting.move hmove (hw.distinct a) (hok.act hw hexp hmove) hI
  obtain ⟨hpos, hcount, -, -⟩ := hI (decide_eq_true ha) htask
  rw [hcount] at hpos
  by_cases hlive : 0 < (s.view a).live.countP Job.busy
  · left
    obtain ⟨j, hj, hbusy⟩ := List.countP_pos_iff.mp hlive
    obtain ⟨c, hc, rfl⟩ := List.mem_map.mp hj
    exact ⟨c, hc, of_decide_eq_true hbusy⟩
  · right
    unfold View.reporters View.expected at hpos
    split at hpos
    · next hload =>
        obtain ⟨j, hj, hawaited⟩ := List.countP_pos_iff.mp
          (show 0 < (s.view a).lost.countP (Job.awaited a (tasks a s.g.log)) by omega)
        obtain ⟨c, hc, rfl⟩ := List.mem_map.mp hj
        refine ⟨hload, c, hc, ?_⟩
        unfold Job.awaited at hawaited
        rw [resumedSince_tasks] at hawaited
        exact (Bool.not_eq_true' _).mp hawaited
    · omega

end Server

namespace Network

variable {w w' : Network} {n : CStr} {p : Peer} {a : Addr} {c : Client} {i : Input} {fs : Fs}
  {dir : CStr}

/-- **The daemon in the network is the daemon alone**: it rests, or handles the input of the
turn. -/
theorem step_server {t : Turn} (h : w.step t = some w') :
    w'.server = w.server ∨ ∃ i ∈ w.input t, w.server.step i = some w'.server := by
  have hhandle : ∀ {v : Network} {i : Input}, v.server = w.server → v.handle i = some w' →
      w.server.step i = some w'.server := by
    intro v i hv hi
    obtain ⟨s', r, hr, rfl⟩ := handle_some hi
    rw [hv] at hr
    unfold Server.step
    rw [hr]
    rfl
  have hstep := step_cases h
  clear h
  cases hstep with
  | @serve n p i rest _ hp hout h =>
      exact Or.inr ⟨i, input_serve hp hout,
        hhandle (v := w.setPeer n { p with outbox := rest }) rfl h⟩
  | control _ h => exact Or.inr ⟨_, rfl, hhandle rfl h⟩
  | start | route | handleReply | addMatch | dispatch | ended | call | exit => exact Or.inl rfl

theorem Reachable.server {ok : Server → Input → Prop}
    (h : Runs.Reach step (fun w t => ∀ i ∈ w.input t, ok w.server i) (start fs dir) w) :
    Server.Reachable ok fs dir w.server := by
  refine Runs.Reach.map Network.server ?_ h
  intro w t w' hok hstep
  rcases step_server hstep with he | ⟨i, hi, hs⟩
  · exact Or.inl he
  · exact Or.inr ⟨i, hok i hi, hs⟩

/-! ## A run -/

/-- Callbacks that do at once what they are asked for. -/
def promptEnv : SavesEnv where
  oldApi := false
  event _ c := some (true, c.api)
  config _ _ c := some (true, c.api)
  control _ _ c := some c.api
  why := []
  newPath := none
  saveDataSet _ _ := none

theorem promptEnv_plain : promptEnv.Plain where
  event := by
    rintro f c r h
    cases Option.some.inj h
    exact ⟨rfl, [], (List.append_nil _).symm, fun m hm => absurd hm List.not_mem_nil⟩
  config := by
    rintro f elems c r h
    cases Option.some.inj h
    exact ⟨rfl, [], (List.append_nil _).symm, fun m hm => absurd hm List.not_mem_nil⟩
  saveDataSet := fun f c r h => absurd h (by simp [promptEnv])

/-- The turns in which nothing is dispatched, and nobody leaves who is waited for. -/
def CalmWaiting (w : Network) (t : Turn) : Prop :=
  w.Calm t ∧ ∀ i ∈ w.input t, w.server.KeepsWaiting i

instance (w : Network) (t : Turn) : Decidable (w.CalmWaiting t) :=
  inferInstanceAs (Decidable (_ ∧ ∀ i ∈ w.input t, _))

/-- A client is opened and sets a callback. -/
def openTurns : List Turn :=
  [.start (cstr ":1") false 5 (cstr "synth") flagConfigFile [] [cstr "synth"] 1,
    .serve (cstr ":1"), .route, .handleReply (cstr ":1"), .addMatch (cstr ":1"),
    .addMatch (cstr ":1"), .call (cstr ":1") (.setCallback .save (some 1))]

/-- The client that the run is about. -/
def finds (w : Network) (q : Peer → Client → Bool) : Bool :=
  (w.peers (cstr ":1")).any (fun p => p.alive &&
    (w.server.findClientByDbusName (cstr ":1")).any (fun r => r.1 = 1 && q p r.2))

theorem of_finds {q : Peer → Client → Bool} (h : w.finds q = true) :
    ∃ p c, w.peers (cstr ":1") = some p ∧ p.alive = true ∧ w.server.Lists (cstr ":1") 1 c ∧
      q p c = true := by
  obtain ⟨p, hp, h⟩ := (Option.any_eq_true _ _).mp h
  obtain ⟨halive, h⟩ := Bool.and_eq_true_iff.mp h
  obtain ⟨⟨a, c⟩, hc, h⟩ := (Option.any_eq_true _ _).mp h
  obtain ⟨ha, hq⟩ := Bool.and_eq_true_iff.mp h
  obtain rfl := of_decide_eq_true ha
  exact ⟨p, c, hp, halive, .of_find hc, hq⟩

/-- A run on given turns, and the state after them. -/
theorem exists_run {ts : List Turn} {q : Network → Bool}
    (h : (Runs.exec step CalmWaiting (start Server.emptyDisk (cstr "/p")) ts).any q = true) :
    ∃ w, Runs.Reach step (fun w t => w.Careful t ∧ ∀ i ∈ w.input t, w.server.KeepsWaiting i)
      (start Server.emptyDisk (cstr "/p")) w ∧ q w = true := by
  obtain ⟨w, hw, hq⟩ := Runs.Reach.exists_of_exec h
  exact ⟨w, hw.mono (fun _ _ hok => ⟨hok.1.careful, hok.2⟩), hq⟩

/-! ## Tasks -/

/-- The tasks on their way to a process that are meant for it. -/
def asked (w : Network) (n : CStr) (p : Peer) : List Nat :=
  (ear n).outs p.believes (p.inbox ++ w.wire)

/-- **Every task is in one place**: the request is on its way, or the process is at it, or its
report is on its way. Nobody is asked, or at work, or reports for a task that the daemon does not
count the client with. -/
theorem tasks_accounted (h : Reachable fs dir w) (hp : w.peers n = some p)
    (halive : p.alive = true) (hc : w.server.Lists n a c) :
    w.asked n p ++ (p.app.client.working ++ p.reported) = taskList c.pendingTask :=
  (h.inv.agree n p hp halive a c hc).tasks

/-- A client is open, its project is saved, and the request is on the wire. -/
theorem tasks_accounted_saving :
    ∃ (w : Network) (p : Peer) (c : Client), Reachable Server.emptyDisk (cstr "/p") w ∧
      w.peers (cstr ":1") = some p ∧ c.pendingTask = 1 ∧
      w.asked (cstr ":1") p ++ (p.app.client.working ++ p.reported) = taskList c.pendingTask := by
  have hrun : (Runs.exec step CalmWaiting (start Server.emptyDisk (cstr "/p"))
      (openTurns ++ [.control (.projectSave (cstr "New Project"))])).any
      (fun w => w.finds (fun _ c => c.pendingTask = 1)) = true := by
    decide +kernel
  obtain ⟨w, hw, hfinds⟩ := exists_run hrun
  obtain ⟨p, c, hp, halive, hc, hpend⟩ := of_finds hfinds
  have hreach : Reachable Server.emptyDisk (cstr "/p") w := hw.mono (fun _ _ hok => hok.1)
  exact ⟨w, p, c, hreach, hp, of_decide_eq_true hpend, tasks_accounted hreach hp halive hc⟩

/-- **A process that has read its messages knows the name of its project.** -/
theorem names_agree (h : Reachable fs dir w) (hp : w.peers n = some p) (halive : p.alive = true)
    (hc : w.server.Lists n a c) :
    (∃ flags, (ear n).final p.believes (p.inbox ++ w.wire) =
      some ((w.server.project a).name, flags)) ∧
    (p.phase ≠ .waiting → p.inbox ++ w.wire = [] →
      p.app.client.projectName = some (w.server.project a).name) := by
  obtain ⟨flags, hfinal, -⟩ := (h.inv.agree n p hp halive a c hc).hears
  refine ⟨⟨flags, hfinal⟩, ?_⟩
  intro hphase hread
  rw [hread, Reader.final_nil, Peer.believes, if_neg hphase] at hfinal
  obtain ⟨name, hname, he⟩ := Option.map_eq_some_iff.mp hfinal
  rw [hname, (Prod.mk.inj he).1]

/-- A project was renamed and the client has not heard of it. -/
theorem names_agree_renamed :
    ∃ (w : Network) (p : Peer), Reachable Server.emptyDisk (cstr "/p") w ∧
      w.peers (cstr ":1") = some p ∧ p.app.client.projectName = some (cstr "New Project") ∧
      (w.server.project 1).name = cstr "song" ∧
      ∃ flags, (ear (cstr ":1")).final p.believes (p.inbox ++ w.wire) =
        some ((w.server.project 1).name, flags) := by
  have hrun : (Runs.exec step CalmWaiting (start Server.emptyDisk (cstr "/p"))
      (openTurns ++ [.control (.projectRename (cstr "New Project") (cstr "song"))])).any
      (fun w => w.finds (fun p _ => p.app.client.projectName = some (cstr "New Project") ∧
        (w.server.project 1).name = cstr "song")) = true := by
    decide +kernel
  obtain ⟨w, hw, hfinds⟩ := exists_run hrun
  obtain ⟨p, c, hp, halive, hc, hboth⟩ := of_finds hfinds
  obtain ⟨hold, hnew⟩ := of_decide_eq_true hboth
  have hreach : Reachable Server.emptyDisk (cstr "/p") w := hw.mono (fun _ _ hok => hok.1)
  exact ⟨w, p, hreach, hp, hold, hnew, (names_agree hreach hp halive hc).1⟩

/-- **No report comes too late**: a message that ends a task is about the task that the daemon
counts the client with, and it is accepted as the end of that task. -/
theorem reports_accepted (h : Reachable fs dir w) (hp : w.peers n = some p)
    (halive : p.alive = true) (hc : w.server.Lists n a c) {rest : List Input}
    (hout : p.outbox = i :: rest) (hends : i.ends ≠ none) :
    i.ends = some c.pendingTask ∧
      (∃ u d ok, w.server.reporting i = some (a, u, d, ok) ∧ d.addr = c.addr) ∧
      ∀ s', w.server.step i = some s' → ∀ d, s'.Lists n a d → d.pendingTask = 0 := by
  have hi := h.inv
  have hstep := hi.agree n p hp halive a c hc
  have hsane := hi.sane n p hp halive (Or.inr ⟨a, c, hc⟩)
  obtain ⟨task, htask⟩ := Option.ne_none_iff_exists'.mp hends
  obtain ⟨rfl, -⟩ := hstep.ends_head hout htask
  have hrep := hstep.reporting hsane (hi.queued n p hp) hi.wf hi.once hi.stores hc hout hends
  refine ⟨htask, hrep, ?_⟩
  intro s' hs d hd
  obtain ⟨u, e, ok, hrep, haddr⟩ := hrep
  have hnone : w.server.restoring i = none := by
    cases i <;> first | rfl | exact absurd hrep (by simp [Server.reporting])
  have hapart : w.server.RestoresApart i := by
    intro b hb
    rw [hnone] at hb
    exact absurd hb (by simp)
  have hpost := Server.report_post hi.wf hapart hs hrep
  generalize mail (w.server.news s') = evs at hpost
  cases hpost with
  | quiet hquiet =>
      rw [hquiet] at hrep
      exact absurd hrep (by simp)
  | connect => exact absurd hrep (by simp [Server.reporting])
  | @done _ _ b x hdone _ hkeep hself =>
      obtain ⟨u', e', ok', hdone, hx⟩ := hdone
      rw [hrep] at hdone
      simp only [Option.some.injEq, Prod.mk.injEq] at hdone
      obtain ⟨rfl, -, rfl, -⟩ := hdone
      by_cases hdx : d.addr = x
      · exact (hself n d hd hdx).1
      · obtain ⟨c', hc', hbadge, -⟩ := hkeep n a d hd (fun hboth => hdx hboth.2)
        obtain ⟨-, rfl⟩ := hc.unique hc' hi.wf hi.once
        exact absurd (((congrArg Prod.fst hbadge).trans haddr.symm).trans hx) hdx
  | asked _ hsave =>
      rw [Server.reporting_of_saving hsave] at hrep
      exact absurd hrep (by simp)
  | renamed => exact absurd hrep (by simp [Server.reporting])

/-- The client has saved, and its report is on its way. -/
theorem reports_accepted_saved :
    ∃ (w : Network) (p : Peer) (c : Client) (i : Input) (rest : List Input),
      Reachable Server.emptyDisk (cstr "/p") w ∧ w.peers (cstr ":1") = some p ∧
      p.outbox = i :: rest ∧ i.ends = some c.pendingTask ∧
      ∃ u d ok, w.server.reporting i = some (1, u, d, ok) ∧ d.addr = c.addr := by
  have hrun : (Runs.exec step CalmWaiting (start Server.emptyDisk (cstr "/p"))
      (openTurns ++ [.control (.projectSave (cstr "New Project")), .route])).any
      (fun w => (∀ p ∈ w.peers (cstr ":1"), ∀ l ∈ p.inbox.head?, l.Fits false p.app) &&
        (w.step (.dispatch (cstr ":1") promptEnv)).any (fun w' => w'.finds (fun p _ =>
          p.outbox.head?.any (fun i => i.ends.isSome)))) = true := by
    decide +kernel
  obtain ⟨w, hw, hnext⟩ := exists_run hrun
  obtain ⟨hfits, hnext⟩ := Bool.and_eq_true_iff.mp hnext
  obtain ⟨w', hw', hfinds⟩ := (Option.any_eq_true _ _).mp hnext
  have hreach : Reachable Server.emptyDisk (cstr "/p") w' := by
    have hcareful : w.Careful (.dispatch (cstr ":1") promptEnv) :=
      ⟨fun i hi => absurd hi (by simp [input]), promptEnv_plain, of_decide_eq_true hfits⟩
    exact (hw.mono (fun _ _ hok => hok.1)).tail hcareful hw'
  obtain ⟨p, c, hp, halive, hc, hhead⟩ := of_finds hfinds
  obtain ⟨i, hi, hends⟩ := (Option.any_eq_true _ _).mp hhead
  obtain ⟨rest, hout⟩ : ∃ rest, p.outbox = i :: rest := List.head?_eq_some_iff.mp hi
  obtain ⟨hself, hrep, -⟩ := reports_accepted hreach hp halive hc hout
    (by rw [← Option.isSome_iff_ne_none]; exact hends)
  exact ⟨w', p, c, i, rest, hreach, hp, hout, hself, hrep⟩

/-! ## A task goes on -/

/-- The daemon is going to hear of a client: it is asked for its task, or at it, or has reported, or
its process is gone. -/
def HearsOf (w : Network) (n : CStr) (p : Peer) (task : Nat) : Prop :=
  p.alive = true ∧ ((∃ l ∈ p.inbox ++ w.wire, l.task = some task) ∨
    p.app.client.api.pendingTask = task ∨ ∃ i ∈ p.outbox, i.ends = some task) ∨
  p.alive = false ∧ .nameLost n ∈ p.outbox

/-- A client that has a task is asked for it, or at it, or has reported, or its process is gone. -/
theorem Inv.hearsOf (hi : w.Inv) (hc : w.server.Lists n a c) (htask : c.pendingTask ≠ 0) :
    ∃ p, w.peers n = some p ∧ w.HearsOf n p c.pendingTask := by
  obtain ⟨p, hp, -⟩ := hi.known n a c hc
  refine ⟨p, hp, ?_⟩
  cases halive : p.alive with
  | false => exact Or.inr ⟨halive, hi.gone n p hp halive (Or.inr ⟨a, c, hc⟩)⟩
  | true =>
      refine Or.inl ⟨halive, ?_⟩
      have htasks := (hi.agree n p hp halive a c hc).tasks
      have hmem : c.pendingTask ∈ taskList c.pendingTask := by
        rw [taskList, if_neg htask]
        exact List.mem_singleton_self _
      rw [← htasks] at hmem
      rcases List.mem_append.mp hmem with hasked | hmem
      · left
        obtain ⟨l₁, l, l₂, hsplit, hout⟩ := Reader.exists_of_mem_outs _ hasked
        refine ⟨l, ?_, ear_out_task hout⟩
        rw [hsplit]
        exact List.mem_append_right _ List.mem_cons_self
      · right
        rcases List.mem_append.mp hmem with hworking | hreported
        · left
          unfold LashClient.working at hworking
          split at hworking
          · exact absurd hworking List.not_mem_nil
          · exact (List.mem_singleton.mp hworking).symm
        · right
          exact List.mem_filterMap.mp hreported

/-- **A project that is at a task goes on with it**: the daemon is going to hear of one of its
clients, or of one that is still to come back. -/
theorem task_goes_on
    (h : Runs.Reach step (fun w t => w.Careful t ∧ ∀ i ∈ w.input t, w.server.KeepsWaiting i)
      (start fs dir) w)
    (ha : a ∈ w.server.loaded) (htask : (w.server.project a).taskType ≠ .idle) :
    (∃ n p c, w.server.Lists n a c ∧ c.pendingTask ≠ 0 ∧ w.peers n = some p ∧
        w.HearsOf n p c.pendingTask) ∨
      (w.server.project a).taskType = .load ∧ ∃ c ∈ (w.server.project a).lostClients,
        resumedSince a c.addr w.server.g.log = false := by
  have hserver : Server.Reachable Server.KeepsWaiting fs dir w.server :=
    Reachable.server (h.mono (fun _ _ hok => hok.2))
  have hi : w.Inv := Reachable.inv (h.mono (fun _ _ hok => hok.1))
  rcases hserver.waits ha htask with ⟨c, hc, hpend⟩ | hload
  · left
    obtain ⟨n, hname⟩ := hserver.named a ha c hc
    have hlists : w.server.Lists n a c := ⟨ha, hc, hname⟩
    obtain ⟨p, hp, hhears⟩ := hi.hearsOf hlists hpend
    exact ⟨n, p, c, hlists, hpend, hp, hhears⟩
  · exact Or.inr hload

/-- A project is being saved. -/
theorem task_goes_on_saving :
    ∃ w : Network, (w.server.project 1).taskType = .save ∧
      ((∃ n p c, w.server.Lists n 1 c ∧ c.pendingTask ≠ 0 ∧ w.peers n = some p ∧
          w.HearsOf n p c.pendingTask) ∨
        (w.server.project 1).taskType = .load ∧ ∃ c ∈ (w.server.project 1).lostClients,
          resumedSince 1 c.addr w.server.g.log = false) := by
  have hrun : (Runs.exec step CalmWaiting (start Server.emptyDisk (cstr "/p"))
      (openTurns ++ [.control (.projectSave (cstr "New Project"))])).any
      (fun w => 1 ∈ w.server.loaded ∧ (w.server.project 1).taskType = .save) = true := by
    decide +kernel
  obtain ⟨w, hw, hboth⟩ := exists_run hrun
  obtain ⟨hloaded, htask⟩ := of_decide_eq_true hboth
  exact ⟨w, htask, task_goes_on hw hloaded (by rw [htask]; decide)⟩

end Network

end Lash
