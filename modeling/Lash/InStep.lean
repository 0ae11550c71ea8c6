import Lash.Network
import Lash.ProjectName

/-!
# Processes in step with the daemon

What a client will be asked to do is in the messages on their way to it, and what it has done is in
those on their way to the daemon. A process is in step (`Peer.InStep`) if the tasks in its queue
that are meant for it, the task it is at and those whose end it has reported are together the task
that the daemon counts it with, or nothing.

A `Save` signal is meant for whoever believes, when it reads the signal, to be in the project. So
the messages in a queue are read with an ear for the reply to `Connect` and for new names
(`ear`), long before the process reads them.

This module is about one process: it stays in step when the bus delivers something, when it gets
its reply or a match rule, and when a function of the library returns.
-/

namespace Lash

/-! ## Ears -/

/-- The name of the project that a process believes to be in, and its flags; nothing before the
reply to `Connect`. -/
abbrev Ear := Option (CStr × Flags)

/-- What a process makes of its queue: the tasks that are meant for it. -/
def ear (n : CStr) : Reader Ear Letter Nat where
  next
    | some (name, flags), .renamed old new => some (if old.1 = name then new.1 else name, flags)
    | e, .reply dest r => if dest = n then some (r.project.1, r.flags) else e
    | e, _ => e
  out
    | some (name, flags), .save project task =>
      if name = project.1 ∧ hasInternalState flags then [task] else []
    | _, .load dest task _ => if dest = n then [task] else []
    | _, .loadDataSet dest task _ => if dest = n then [task] else []
    | _, _ => []

/-- A list of the task, if there is one. -/
def taskList (task : Nat) : List Nat := if task = 0 then [] else [task]

/-- The task that a message of a client ends if the daemon accepts it. -/
def Input.ends : Input → Option Nat
  | .progress _ (.uint64 task :: .byte x :: _) =>
    if x.toNat = 0 ∨ x.toNat = 255 then some task else none
  | .commitDataSet _ (.uint64 task :: .array (_ :: _) :: _) => some task
  | _ => none

/-- Where a client that has its reply believes to be. -/
def LashClient.believes (c : LashClient) : Ear := c.projectName.map (fun name => (name, c.flags))

/-- The client knows the name of its project. -/
def LashClient.Placed (c : LashClient) : Prop := ∃ name, c.projectName = some name ∧ name ≠ []

def Peer.believes (p : Peer) : Ear := if p.phase = .waiting then none else p.app.client.believes

/-- The tasks whose end a process has reported and the daemon has not heard of. -/
def Peer.reported (p : Peer) : List Nat := p.outbox.filterMap Input.ends

section

variable {n m : CStr} {e : Ear} {l : Letter}

theorem ear_skips_of_dest (h : l.dest = some m) (hm : m ≠ n) : (ear n).Skips e l := by
  cases l with
  | save | renamed => exact absurd h (by simp [Letter.dest])
  | load dest task path =>
      have hdest : dest ≠ n := fun hd => hm ((Option.some.inj h).symm.trans hd)
      cases e <;> exact ⟨rfl, if_neg hdest⟩
  | loadDataSet dest task configs =>
      have hdest : dest ≠ n := fun hd => hm ((Option.some.inj h).symm.trans hd)
      cases e <;> exact ⟨rfl, if_neg hdest⟩
  | reply dest r =>
      have hdest : dest ≠ n := fun hd => hm ((Option.some.inj h).symm.trans hd)
      cases e <;> exact ⟨if_neg hdest, rfl⟩

/-- Without the reply to `Connect` signals are not meant for a process. -/
theorem ear_skips_of_signal (h : l.dest = none) : (ear n).Skips none l := by
  cases l with
  | save | renamed => exact ⟨rfl, rfl⟩
  | load | loadDataSet | reply => exact absurd h (by simp [Letter.dest])

/-- A message is about one task at most. -/
theorem ear_out (n : CStr) (e : Ear) (l : Letter) :
    (ear n).out e l = [] ∨ ∃ task, (ear n).out e l = [task] := by
  have hif : ∀ (P : Prop) [Decidable P] (task : Nat),
      (if P then [task] else []) = [] ∨ ∃ t, (if P then [task] else []) = [t] := by
    intro P _ task
    split
    · exact Or.inr ⟨task, rfl⟩
    · exact Or.inl rfl
  rcases e with - | ⟨name, flags⟩
  · cases l with
    | save | renamed | reply => exact Or.inl rfl
    | load | loadDataSet => exact hif _ _
  · cases l with
    | renamed | reply => exact Or.inl rfl
    | save | load | loadDataSet => exact hif _ _

theorem ear_out_task {task : Nat} (h : task ∈ (ear n).out e l) : l.task = some task := by
  have hif : ∀ (P : Prop) [Decidable P] (t : Nat), task ∈ (if P then [t] else []) → t = task := by
    intro P _ t ht
    split at ht
    · exact (List.mem_singleton.mp ht).symm
    · exact absurd ht List.not_mem_nil
  rcases e with - | ⟨name, flags⟩
  · cases l with
    | save | renamed | reply => exact absurd h List.not_mem_nil
    | load | loadDataSet => exact congrArg some (hif _ _ h)
  · cases l with
    | renamed | reply => exact absurd h List.not_mem_nil
    | save | load | loadDataSet => exact congrArg some (hif _ _ h)

/-- Calls are read alike in every state. -/
theorem ear_alike (h : l.dest ≠ none) (hreply : l.replyOf = none) : (ear n).Alike l := by
  intro s t
  cases l with
  | save | renamed => exact absurd rfl h
  | reply => exact absurd hreply (by simp [Letter.replyOf])
  | load | loadDataSet => cases s <;> cases t <;> exact ⟨rfl, rfl⟩

end

/-! ## Being in step -/

/-- Who a message of a client comes from, or is about. -/
def Input.sender : Input → Option CStr
  | .connect n .. | .nameLost n | .progress n _ | .commitDataSet n _ => some n
  | _ => none

def Input.isConnect : Input → Bool
  | .connect .. => true
  | _ => false

/-- The reply to the `Connect` of a process. -/
def Letter.repliesTo (n : CStr) : Letter → Bool
  | .reply dest _ => dest = n
  | _ => false

/-- The daemon said who the client is, and the client can read it. -/
structure ConnectReply.Fine (r : ConnectReply) : Prop where
  id : uuidParse r.id.1 ≠ none
  project : r.project.1 ≠ []
  plain : r.flags &&& flagServerInterface = 0

/-- A process connects once, before it sends anything else. -/
structure Peer.Queued (n : CStr) (p : Peer) : Prop where
  sender : ∀ i ∈ p.outbox, i.sender = some n
  connect : ∀ i ∈ p.outbox.tail, i.isConnect = false

/-- The process is the one of a plain client. -/
structure Peer.Sane (n : CStr) (p : Peer) (wire : List Letter) : Prop where
  sound : p.app.Sound
  role : p.app.client.isController = 0
  /-- Nothing is sent to a client that the daemon does not know. -/
  unknown : (∃ i ∈ p.outbox, i.isConnect = true) →
    p.phase = .waiting ∧ ∀ l ∈ p.inbox ++ wire, l.dest ≠ some n
  waiting : p.phase = .waiting → p.app.client.working = [] ∧ p.app.unsent = none ∧
    p.reported = [] ∧ ∀ l ∈ p.inbox, l.dest = some n
  once : (p.inbox ++ wire).countP (Letter.repliesTo n) ≤ if p.phase = .waiting then 1 else 0
  fine : ∀ r, Letter.reply n r ∈ p.inbox ++ wire → r.Fine
  placed : p.phase ≠ .waiting → p.app.client.Placed
  renames : ∀ old new, Letter.renamed old new ∈ p.inbox ++ wire → new.1 ≠ []
  commit : ∀ args, .commitDataSet n args ∈ p.outbox →
    configDataSet p.app.client.flags = true ∧ p.phase ≠ .waiting
  own : ∀ l ∈ p.inbox, ∀ m, l.dest = some m → m = n

/-- **A process is in step** with the client `c` of a project, with these messages of the daemon
on the wire. -/
structure Peer.InStep (n : CStr) (p : Peer) (wire : List Letter) (name : CStr) (c : Client) :
    Prop where
  tasks : (ear n).outs p.believes (p.inbox ++ wire) ++ (p.app.client.working ++ p.reported) =
    taskList c.pendingTask
  hears : ∃ flags, (ear n).final p.believes (p.inbox ++ wire) = some (name, flags) ∧
    hasInternalState flags = hasInternalState c.flags ∧
    configDataSet flags = configDataSet c.flags
  passes : (ear n).Passes (fun l => p.hears n l = false) p.believes (p.inbox ++ wire)

/-! ## Lists of at most one task -/

theorem taskList_length (t : Nat) : (taskList t).length ≤ 1 := by
  unfold taskList
  split <;> simp

/-- A process that is at a task has no other, and may end it. -/
theorem tasks_returned {asked working reported working' ended : List Nat} {t : Nat}
    (h : asked ++ (working ++ reported) = taskList t) (hr : working' ++ ended = working) :
    asked ++ (working' ++ (reported ++ ended)) = taskList t := by
  have hlen := taskList_length t
  rw [← h, List.length_append, List.length_append] at hlen
  rcases working with - | ⟨x, working⟩
  · obtain ⟨rfl, rfl⟩ := List.append_eq_nil_iff.mp hr
    rw [← h, List.append_nil]
  · have hasked : asked = [] := List.length_eq_zero_iff.mp (by simp at hlen; omega)
    have hreported : reported = [] := List.length_eq_zero_iff.mp (by simp at hlen; omega)
    rw [← h, ← hr, hasked, hreported]
    simp

/-- A process that is asked for a task has no other. -/
theorem tasks_begun {task : Nat} {asked working reported working' ended : List Nat} {t : Nat}
    (h : [task] ++ asked ++ (working ++ reported) = taskList t) (hr : working' ++ ended = [task]) :
    asked ++ (working' ++ (reported ++ ended)) = taskList t ∧ working = [] ∧ task ≠ 0 := by
  have hlen := taskList_length t
  rw [← h, List.length_append, List.length_append, List.length_append] at hlen
  have hasked : asked = [] := List.length_eq_zero_iff.mp (by simp at hlen; omega)
  have hworking : working = [] := List.length_eq_zero_iff.mp (by simp at hlen; omega)
  have hreported : reported = [] := List.length_eq_zero_iff.mp (by simp at hlen; omega)
  subst hasked hworking hreported
  refine ⟨?_, rfl, ?_⟩
  · rw [← h, List.nil_append, List.nil_append, hr]
    rfl
  · rintro rfl
    unfold taskList at h
    split at h
    · exact absurd h (by simp)
    · next hne => exact hne (List.cons.inj h).1.symm

/-! ## A function of the library returns -/

/-- What a function made of a process that is in a project: the tasks it is at or has ended, and
where it believes to be. -/
structure Served.Returns (p : App) (r : Served) (ts : List Nat) (e : Ear) : Prop where
  tasks : r.tasks = ts
  placed : r.1.client.Placed
  believes : r.1.client.believes = e
  flags : r.1.client.flags = p.client.flags
  role : r.1.client.isController = p.client.isController
  unsent : r.1.unsent ≠ none → configDataSet p.client.flags = true
  commit : ∀ d ∈ r.2, d.configs ≠ [] ∧ configDataSet p.client.flags = true

section

variable {n : CStr} {p : Peer} {q : App} {r : Served} {wire rest : List Letter}
  {ts : List Nat} {e : Ear} {name : CStr} {c : Client}

theorem Served.Good.returns (h : r.Good q ts) (hq : q.client.Placed) :
    r.Returns q ts q.client.believes where
  tasks := h.tasks
  placed := by
    obtain ⟨name, hname, hne⟩ := hq
    exact ⟨name, h.ears.1.trans hname, hne⟩
  believes := by
    obtain ⟨hname, hflags, -⟩ := h.ears
    unfold LashClient.believes
    rw [hname, hflags]
  flags := h.ears.2.1
  role := h.ears.2.2
  unsent := h.unsent
  commit := h.commit

theorem Served.Returns.sound (h : r.Returns q ts e) : r.rest.Sound where
  sent := rfl
  unsent := fun hne => (congrArg configDataSet h.flags).trans (h.unsent hne)

/-- A message about a task ends it as the report in it does. -/
theorem Report.ends_input {x : Report} (hx : ∀ task configs, x = .commitDataSet task configs →
    configs ≠ []) : (x.input n).ends = x.ends := by
  cases x with
  | progress task x =>
      have hx : (x.toNat = 0 ∨ x.toNat = 255) ↔ (x = 0 ∨ x = 255) := by
        rw [← UInt8.toNat_inj, ← UInt8.toNat_inj]
        rfl
      show (if x.toNat = 0 ∨ x.toNat = 255 then some task else none) =
        if x = 0 ∨ x = 255 then some task else none
      rw [if_congr hx rfl rfl]
  | commitDataSet task configs =>
      cases configs with
      | nil => exact absurd rfl (hx task [] rfl)
      | cons elem elems => rfl

theorem Served.Returns.reports (h : r.Returns q ts e) :
    (r.reports.map (Report.input n)).filterMap Input.ends = r.reports.filterMap Report.ends := by
  rw [List.filterMap_map]
  apply List.filterMap_congr
  intro x hx
  apply Report.ends_input
  rintro task configs rfl
  rcases List.mem_append.mp hx with hx | hx
  · obtain ⟨m, -, hm⟩ := List.mem_filterMap.mp hx
    cases m <;> exact absurd hm (by simp [SentCall.report])
  · obtain ⟨d, hd, he⟩ := List.mem_map.mp hx
    cases he
    exact (h.commit d (Option.mem_toList.mp hd)).1

theorem Report.input_sender (x : Report) : (x.input n).sender = some n := by
  cases x <;> rfl

theorem Report.input_not_connect (x : Report) : (x.input n).isConnect = false := by
  cases x <;> rfl

theorem mem_tail_append {α : Type*} {l l' : List α} {a : α} (h : a ∈ (l ++ l').tail) :
    a ∈ l.tail ∨ a ∈ l' := by
  cases l with
  | nil => exact Or.inr (List.mem_of_mem_tail h)
  | cons b l => exact List.mem_append.mp h

theorem Peer.Queued.returns (h : p.Queued n) (r : Served) : (p.returns n r).Queued n where
  sender := by
    intro i hi
    rcases List.mem_append.mp hi with hi | hi
    · exact h.sender i hi
    · obtain ⟨x, -, rfl⟩ := List.mem_map.mp hi
      exact x.input_sender
  connect := by
    intro i hi
    rcases mem_tail_append hi with hi | hi
    · exact h.connect i hi
    · obtain ⟨x, -, rfl⟩ := List.mem_map.mp hi
      exact x.input_not_connect

/-- The queue loses its head. -/
theorem Peer.Sane.returns (h : p.Sane n wire) (hready : p.phase = .ready)
    (hrest : List.Sublist rest p.inbox) (hr : r.Returns p.app ts e) :
    (({ p with inbox := rest } : Peer).returns n r).Sane n wire where
  sound := hr.sound
  role := hr.role.trans h.role
  unknown := by
    rintro ⟨i, hi, hconn⟩
    exfalso
    rcases List.mem_append.mp hi with hi | hi
    · obtain ⟨hwaiting, -⟩ := h.unknown ⟨i, hi, hconn⟩
      rw [hready] at hwaiting
      exact absurd hwaiting (by decide)
    · obtain ⟨x, -, rfl⟩ := List.mem_map.mp hi
      rw [x.input_not_connect] at hconn
      exact absurd hconn (by decide)
  waiting := by
    intro hwaiting
    have hphase : p.phase = .waiting := hwaiting
    rw [hready] at hphase
    exact absurd hphase (by decide)
  once := ((hrest.append (List.Sublist.refl wire)).countP_le).trans h.once
  fine := by
    intro x hx
    exact h.fine x ((hrest.append (List.Sublist.refl wire)).subset hx)
  placed := fun _ => hr.placed
  renames := by
    intro old new hx
    exact h.renames old new ((hrest.append (List.Sublist.refl wire)).subset hx)
  commit := by
    intro args hi
    rw [show (({ p with inbox := rest } : Peer).returns n r).app.client.flags =
      p.app.client.flags from hr.flags]
    rcases List.mem_append.mp hi with hi | hi
    · exact h.commit args hi
    · refine ⟨?_, ?_⟩
      · obtain ⟨x, hx, he⟩ := List.mem_map.mp hi
        rcases List.mem_append.mp hx with hx | hx
        · obtain ⟨m, -, hm⟩ := List.mem_filterMap.mp hx
          cases m with
          | progress => cases hm; exact absurd he (by simp [Report.input])
          | waitForSave | commitPathChange => exact absurd hm (by simp [SentCall.report])
        · obtain ⟨d, hd, -⟩ := List.mem_map.mp hx
          exact (hr.commit d (Option.mem_toList.mp hd)).2
      · show p.phase ≠ .waiting
        rw [hready]
        decide
  own := fun l hl => h.own l (hrest.subset hl)

theorem Peer.believes_returns (rest : List Letter) (hready : p.phase = .ready)
    (hr : r.Returns p.app ts e) :
    (({ p with inbox := rest } : Peer).returns n r).believes = e := by
  refine Eq.trans (if_neg ?_) hr.believes
  show ¬ p.phase = .waiting
  rw [hready]
  decide

theorem Peer.reported_returns (rest : List Letter) (hr : r.Returns p.app ts e) :
    (({ p with inbox := rest } : Peer).returns n r).reported =
      p.reported ++ r.reports.filterMap Report.ends := by
  show (p.outbox ++ r.reports.map (Report.input n)).filterMap Input.ends = _
  rw [List.filterMap_append, hr.reports]
  rfl

/-- The application does something between two messages. -/
theorem Peer.InStep.call (h : p.InStep n wire name c) (hready : p.phase = .ready)
    (hr : r.Returns p.app p.app.client.working p.believes) :
    (p.returns n r).InStep n wire name c := by
  have hbelieves : (p.returns n r).believes = p.believes :=
    Peer.believes_returns p.inbox hready hr
  refine ⟨?_, ?_, ?_⟩
  · rw [hbelieves, Peer.reported_returns p.inbox hr]
    refine tasks_returned h.tasks ?_
    rw [← hr.tasks, Served.tasks_eq]
    rfl
  · rw [hbelieves]
    exact h.hears
  · rw [hbelieves]
    exact h.passes

/-- The process has dispatched a message. -/
theorem Peer.InStep.dispatch {l : Letter} (h : p.InStep n wire name c) (hready : p.phase = .ready)
    (hin : p.inbox = l :: rest)
    (hr : r.Returns p.app (if (ear n).out p.believes l = [] then p.app.client.working
      else (ear n).out p.believes l) ((ear n).next p.believes l)) :
    (({ p with inbox := rest } : Peer).returns n r).InStep n wire name c := by
  have hbelieves := Peer.believes_returns (n := n) rest hready hr
  have hreturned := hr.tasks
  rw [Served.tasks_eq] at hreturned
  obtain ⟨htasks, hhears, hpasses⟩ := h
  rw [hin] at htasks hhears hpasses
  rw [List.cons_append, Reader.outs_cons] at htasks
  refine ⟨?_, ?_, ?_⟩
  · rw [hbelieves, Peer.reported_returns rest hr]
    show (ear n).outs _ (rest ++ wire) ++ (r.rest.client.working ++ _) = _
    split at hreturned
    · next hnone =>
        rw [hnone, List.nil_append] at htasks
        exact tasks_returned htasks hreturned
    · next hsome =>
        obtain ⟨task, hout⟩ := (ear_out n p.believes l).resolve_left hsome
        rw [hout] at htasks hreturned
        exact (tasks_begun htasks hreturned).1
  · rw [hbelieves]
    exact hhears
  · rw [hbelieves]
    exact hpasses.2

/-- An application can take a task that comes in a call: it has a callback for it, or it is of the
old API. -/
def Letter.Fits (oldApi : Bool) (p : App) : Letter → Prop
  | .load .. => p.client.api.cb.load ≠ none ∨ oldApi = true
  | .loadDataSet .. => p.client.api.cb.loadDataSet ≠ none ∨ oldApi = true
  | _ => True

instance (oldApi : Bool) (p : App) (l : Letter) : Decidable (l.Fits oldApi p) :=
  match l with
  | .load .. => inferInstanceAs (Decidable (_ ∨ _))
  | .loadDataSet .. => inferInstanceAs (Decidable (_ ∨ _))
  | .save .. | .renamed .. | .reply .. => isTrue trivial

/-- **A client makes of a message what its ear did.** -/
theorem App.dispatch_returns {env : SavesEnv} {l : Letter} (hq : q.Sound)
    (hrole : q.client.isController = 0) (henv : env.Plain) (hfit : l.Fits env.oldApi q)
    (hdest : ∀ m, l.dest = some m → m = n) (hreply : l.replyOf = none)
    (hplaced : q.client.Placed) (hnew : ∀ old new, l = .renamed old new → new.1 ≠ [])
    (hfree : ∀ task, (ear n).out q.client.believes l = [task] →
      q.client.working = [] ∧ task ≠ 0)
    (h : q.dispatch env l = some r) :
    r.Returns q (if (ear n).out q.client.believes l = [] then q.client.working
      else (ear n).out q.client.believes l) ((ear n).next q.client.believes l) := by
  have hzero : q.client.working = [] → q.client.api.pendingTask = 0 := by
    intro hw
    by_contra hne
    rw [LashClient.working_of_ne hne] at hw
    exact absurd hw (by simp)
  cases l with
  | save project task =>
      have hout : (ear n).out q.client.believes (.save project task) =
          if q.client.projectName = some project.1 ∧ hasInternalState q.client.flags = true
          then [task] else [] := by
        unfold LashClient.believes
        cases q.client.projectName with
        | none => simp [ear]
        | some name => simp [ear]
      have hnext : (ear n).next q.client.believes (.save project task) = q.client.believes := by
        cases q.client.believes <;> rfl
      rw [hnext]
      have hgood := (@lashServerSignalHandler_good env q r task hq henv project (by
        intro hname hstate
        rw [if_pos ⟨hname, hstate⟩] at hout
        obtain ⟨hworking, htask⟩ := hfree task hout
        exact ⟨hzero hworking, htask⟩) h).returns hplaced
      rw [hout]
      split
      · next hfor =>
          rw [if_pos hfor] at hgood
          rw [if_neg (by simp)]
          exact hgood
      · next hfor =>
          rw [if_neg hfor] at hgood
          exact hgood
  | renamed old new =>
      have hout : (ear n).out q.client.believes (.renamed old new) = [] := by
        cases q.client.believes <;> rfl
      rw [hout, if_pos rfl]
      obtain ⟨name, hname, hne⟩ := hplaced
      obtain ⟨c, hc, rfl⟩ := Option.map_eq_some_iff.mp h
      have hhandler : lashProjectNameChangedHandler env.toLiblashEnv q.client
          (ControlSignal.projectNameChanged old new).message = some c := by
        unfold lashDbusSignalHandler at hc
        rw [if_pos (show q.client.isController ≠ 1 by rw [hrole]; decide)] at hc
        split at hc
        · exact absurd hc (by simp)
        · next d hd =>
            obtain ⟨-, -, hrole'⟩ := lashProjectNameChangedHandler_tasks hq henv hd
            rw [if_neg (by rw [hrole', hrole]; decide)] at hc
            rw [hd, hc]
      obtain ⟨htasks, hflags, hcontrol⟩ := lashProjectNameChangedHandler_tasks hq henv hhandler
      have hname' : q.client.projectName = nonempty name := hname.trans (if_neg hne).symm
      obtain ⟨hafter, -⟩ := lashProjectNameChangedHandler_name hname' hhandler
      have hafter' : c.projectName = some (if old.1 = name then new.1 else name) := by
        refine hafter.trans (if_neg ?_)
        show ¬ (if old.1 = name then new.1 else name) = []
        split
        · exact hnew old new rfl
        · exact hne
      refine ⟨?_, ?_, ?_, hflags, hcontrol, hq.unsent, fun d hd => absurd hd (by simp [App.served])⟩
      · show c.working ++ (c.ended ++ []) = _
        rw [List.append_nil, htasks]
      · refine ⟨_, hafter', ?_⟩
        split
        · exact hnew old new rfl
        · exact hne
      · show c.projectName.map (fun name => (name, c.flags)) = _
        unfold LashClient.believes
        rw [hafter', hname, hflags]
        rfl
  | load dest task path =>
      have hd : dest = n := hdest dest rfl
      have hout : (ear n).out q.client.believes (.load dest task path) = [task] := by
        cases q.client.believes <;> exact if_pos hd
      have hnext : (ear n).next q.client.believes (.load dest task path) = q.client.believes := by
        cases q.client.believes <;> rfl
      obtain ⟨hworking, htask⟩ := hfree task hout
      rw [hout, hnext, if_neg (by simp)]
      exact (lashDbusLoad_good hq henv htask (hzero hworking) hfit h).returns hplaced
  | loadDataSet dest task configs =>
      have hd : dest = n := hdest dest rfl
      have hout : (ear n).out q.client.believes (.loadDataSet dest task configs) = [task] := by
        cases q.client.believes <;> exact if_pos hd
      have hnext : (ear n).next q.client.believes (.loadDataSet dest task configs) =
          q.client.believes := by
        cases q.client.believes <;> rfl
      obtain ⟨hworking, htask⟩ := hfree task hout
      rw [hout, hnext, if_neg (by simp)]
      exact (lashDbusLoadDataSet_good hq henv htask (hzero hworking) hfit h).returns hplaced
  | reply dest x => exact absurd hreply (by simp [Letter.replyOf])

end

/-! ## The bus delivers a message -/

section

variable {n : CStr} {p p' : Peer} {l : Letter} {wire rest : List Letter} {name : CStr} {c : Client}

/-- A process after the bus has delivered a message to whoever hears it. -/
def Peer.receives (p : Peer) (n : CStr) (l : Letter) : Peer :=
  if p.alive && p.hears n l then { p with inbox := p.inbox ++ [l] } else p

theorem Peer.receives_cases (halive : p.alive = true) (n : CStr) (l : Letter) :
    p.hears n l = true ∧ p.receives n l = { p with inbox := p.inbox ++ [l] } ∨
      p.hears n l = false ∧ p.receives n l = p := by
  unfold Peer.receives
  rw [halive, Bool.true_and]
  cases p.hears n l with
  | true => exact Or.inl ⟨rfl, rfl⟩
  | false => exact Or.inr ⟨rfl, rfl⟩

theorem Peer.InStep.receives (h : p.InStep n (l :: rest) name c) (halive : p.alive = true) :
    (p.receives n l).InStep n rest name c := by
  rcases Peer.receives_cases halive n l with ⟨-, he⟩ | ⟨hdeaf, he⟩
  · rw [he]
    have hsame : p.inbox ++ l :: rest = (p.inbox ++ [l]) ++ rest := by simp
    obtain ⟨htasks, hhears, hpasses⟩ := h
    rw [hsame] at htasks hhears hpasses
    exact ⟨htasks, hhears, hpasses⟩
  · rw [he]
    obtain ⟨htasks, hhears, hpasses⟩ := h
    obtain ⟨houts, hfinal, hpasses'⟩ := hpasses.drop hdeaf
    rw [← houts] at htasks
    rw [← hfinal] at hhears
    exact ⟨htasks, hhears, hpasses'⟩

theorem Peer.Sane.receives (h : p.Sane n (l :: rest)) (halive : p.alive = true) :
    (p.receives n l).Sane n rest := by
  rcases Peer.receives_cases halive n l with ⟨hhears, he⟩ | ⟨-, he⟩
  · rw [he]
    have hsame : p.inbox ++ l :: rest = (p.inbox ++ [l]) ++ rest := by simp
    obtain ⟨hsound, hrole, hunknown, hwaiting, honce, hfine, hplaced, hrenames, hcommit, hown⟩ := h
    rw [hsame] at hunknown honce hfine hrenames
    refine ⟨hsound, hrole, hunknown, ?_, honce, hfine, hplaced, hrenames, hcommit, ?_⟩
    · intro hphase
      obtain ⟨hworking, hunsent, hreported, hinbox⟩ := hwaiting hphase
      refine ⟨hworking, hunsent, hreported, ?_⟩
      intro x hx
      rcases List.mem_append.mp hx with hx | hx
      · exact hinbox x hx
      · rw [List.mem_singleton.mp hx]
        have hphase' : p.phase = .waiting := hphase
        cases l with
        | save | renamed => simp [Peer.hears, hphase'] at hhears
        | load | loadDataSet | reply => exact congrArg some (of_decide_eq_true hhears)
    · intro x hx m hm
      rcases List.mem_append.mp hx with hx | hx
      · exact hown x hx m hm
      · rw [List.mem_singleton.mp hx] at hm
        cases l with
        | save | renamed => exact absurd hm (by simp [Letter.dest])
        | load | loadDataSet | reply =>
            exact (Option.some.inj hm).symm.trans (of_decide_eq_true hhears)
  · rw [he]
    have hsub : List.Sublist (p.inbox ++ rest) (p.inbox ++ l :: rest) :=
      (List.Sublist.refl _).append (List.sublist_cons_self l rest)
    obtain ⟨hsound, hrole, hunknown, hwaiting, honce, hfine, hplaced, hrenames, hcommit, hown⟩ := h
    refine ⟨hsound, hrole, ?_, hwaiting, ?_, ?_, hplaced, ?_, hcommit, hown⟩
    · intro hconn
      obtain ⟨hphase, hnone⟩ := hunknown hconn
      exact ⟨hphase, fun x hx => hnone x (hsub.subset hx)⟩
    · exact (hsub.countP_le).trans honce
    · exact fun r hr => hfine r (hsub.subset hr)
    · exact fun old new hx => hrenames old new (hsub.subset hx)

/-! ## A client is opened -/

/-- What becomes of a client with a reply that it can read. -/
theorem lashClientOpen_fine (flags : Flags) (wd : CStr) {r : ConnectReply} (hr : r.Fine) :
    (lashClientOpen flags wd (some r)).projectName = some r.project.1 ∧
      (lashClientOpen flags wd (some r)).flags = r.flags ∧
      (lashClientOpen flags wd (some r)).isController = 0 ∧
      (lashClientOpen flags wd (some r)).api = (lashClientNew flags wd).api := by
  obtain ⟨id, hid⟩ := Option.ne_none_iff_exists'.mp hr.id
  unfold lashClientOpen lashDbusServiceConnectHandler
  simp only [hid]
  rw [if_neg (not_not.mpr hr.plain)]
  exact ⟨if_neg hr.project, rfl, rfl, rfl⟩

/-- The reply to `Connect` stands somewhere in the queue, among calls. -/
theorem Peer.handleReply_some (h : p.handleReply = some p') (hs : p.Sane n wire)
    (hphase : p.phase = .waiting) : ∃ r l₁ l₂, r.Fine ∧ p.inbox = l₁ ++ .reply n r :: l₂ ∧
      p' = { p with
        phase := .connected
        app.client := lashClientOpen p.app.client.flags p.app.client.workingDir (some r)
        inbox := l₁ ++ l₂ } ∧
      (∀ x ∈ l₁ ++ l₂, x.dest = some n ∧ x.replyOf = none) ∧
      (l₁ ++ l₂ ++ wire).countP (Letter.repliesTo n) = 0 := by
  obtain ⟨r, hfind, rfl⟩ := Option.map_eq_some_iff.mp h
  obtain ⟨l₁, x, l₂, hin, hx, hnone⟩ := List.findSome?_eq_some_iff.mp hfind
  obtain ⟨-, -, -, hdest⟩ := hs.waiting hphase
  have hxn : x.dest = some n := hdest x (by rw [hin]; simp)
  obtain ⟨dest, rfl⟩ : ∃ dest, x = .reply dest r := by
    cases x with
    | reply dest y => exact ⟨dest, by rw [Option.some.inj hx]⟩
    | _ => exact absurd hx (by simp [Letter.replyOf])
  cases Option.some.inj hxn
  have hcount := hs.once
  rw [if_pos hphase, hin] at hcount
  have hzero : (l₁ ++ l₂ ++ wire).countP (Letter.repliesTo n) = 0 := by
    have hself : Letter.repliesTo n (.reply n r) = true := decide_eq_true rfl
    simp only [List.countP_append, List.countP_cons_of_pos hself] at hcount ⊢
    omega
  refine ⟨r, l₁, l₂, hs.fine r ?_, hin, ?_, ?_, hzero⟩
  · rw [hin]
    simp
  · have herase : p.inbox.eraseP (fun l => l.replyOf.isSome) = l₁ ++ l₂ := by
      rw [hin, List.eraseP_append_right]
      · rw [List.eraseP_cons_of_pos rfl]
      · intro y hy
        rw [hnone y hy]
        simp
    rw [herase]
  · intro y hy
    have hyn : y.dest = some n := by
      apply hdest
      rw [hin]
      rcases List.mem_append.mp hy with hy | hy
      · exact List.mem_append_left _ hy
      · exact List.mem_append_right _ (List.mem_cons_of_mem _ hy)
    refine ⟨hyn, ?_⟩
    have hnot : ¬ y.repliesTo n = true :=
      List.countP_eq_zero.mp hzero y (List.mem_append_left _ hy)
    cases y with
    | reply dest z => exact absurd (decide_eq_true (Option.some.inj hyn)) hnot
    | save | renamed | load | loadDataSet => rfl

theorem Peer.Sane.handleReply (hs : p.Sane n wire) (hphase : p.phase = .waiting)
    (h : p.handleReply = some p') : p'.Sane n wire := by
  obtain ⟨r, l₁, l₂, hr, hin, rfl, hcalls, hzero⟩ := Peer.handleReply_some h hs hphase
  obtain ⟨hname, hflags, hrole, hapi⟩ :=
    lashClientOpen_fine p.app.client.flags p.app.client.workingDir hr
  have hsub : List.Sublist ((l₁ ++ l₂) ++ wire) (p.inbox ++ wire) := by
    rw [hin]
    exact ((List.Sublist.refl l₁).append (List.sublist_cons_self _ l₂)).append
      (List.Sublist.refl wire)
  have hunserved : ∀ i ∈ p.outbox, i.isConnect = false := by
    intro i hi
    by_contra hconn
    obtain ⟨-, hnone⟩ := hs.unknown ⟨i, hi, by simpa using hconn⟩
    exact hnone (.reply n r) (by rw [hin]; simp) rfl
  obtain ⟨-, hunsent, hreported, -⟩ := hs.waiting hphase
  refine ⟨⟨?_, ?_⟩, hrole, ?_, ?_, ?_, ?_, ?_, ?_, ?_, ?_⟩
  · exact congrArg ClientApi.sent hapi
  · exact fun hne => absurd hunsent hne
  · rintro ⟨i, hi, hconn⟩
    rw [hunserved i hi] at hconn
    exact absurd hconn (by decide)
  · exact fun hw => Phase.noConfusion hw
  · exact hzero.le
  · exact fun x hx => hs.fine x (hsub.subset hx)
  · exact fun _ => ⟨r.project.1, hname, hr.project⟩
  · exact fun old new hx => hs.renames old new (hsub.subset hx)
  · intro args hi
    obtain ⟨-, hne⟩ := hs.commit args hi
    exact absurd hphase hne
  · intro x hx m hm
    exact Option.some.inj (hm.symm.trans (hcalls x hx).1)

/-- **A client that gets its reply is in step.** -/
theorem Peer.InStep.handleReply (hi : p.InStep n wire name c) (hs : p.Sane n wire)
    (hphase : p.phase = .waiting) (h : p.handleReply = some p') : p'.InStep n wire name c := by
  obtain ⟨r, l₁, l₂, hr, hin, rfl, hcalls, hzero⟩ := Peer.handleReply_some h hs hphase
  obtain ⟨hname, hflags, hrole, hapi⟩ :=
    lashClientOpen_fine p.app.client.flags p.app.client.workingDir hr
  obtain ⟨hworking, -, hreported, -⟩ := hs.waiting hphase
  have hnone : p.believes = none := if_pos hphase
  generalize hp' : ({ p with
    phase := .connected
    app.client := lashClientOpen p.app.client.flags p.app.client.workingDir (some r)
    inbox := l₁ ++ l₂ } : Peer) = q
  have hbelieves : q.believes = some (r.project.1, r.flags) := by
    rw [← hp']
    show Option.map _ (lashClientOpen _ _ (some r)).projectName = _
    rw [hname, hflags]
    rfl
  have halike : ∀ x ∈ l₁ ++ l₂, (ear n).Alike x := by
    intro x hx
    obtain ⟨hdest, hreply⟩ := hcalls x hx
    exact ear_alike (by rw [hdest]; simp) hreply
  have hleft : ∀ x ∈ l₁, (ear n).Alike x := fun x hx => halike x (List.mem_append_left _ hx)
  have hright : ∀ x ∈ l₂, (ear n).Alike x := fun x hx => halike x (List.mem_append_right _ hx)
  have hreply : (ear n).next none (.reply n r) = some (r.project.1, r.flags) := if_pos rfl
  have hout : (ear n).out none (.reply n r) = [] := rfl
  -- the reply is read before all signals, wherever it stands among the calls
  have hfinal : (ear n).final p.believes p.inbox = (ear n).final q.believes q.inbox := by
    rw [hnone, hbelieves, hin, ← hp', Reader.final_append, Reader.final_cons,
      Reader.final_of_alike hleft, hreply, Reader.final_of_alike hright,
      Reader.final_of_alike halike]
  have houts : (ear n).outs p.believes p.inbox = (ear n).outs q.believes q.inbox := by
    rw [hnone, hbelieves, hin, ← hp', Reader.outs_append, Reader.outs_cons,
      Reader.final_of_alike hleft, hreply, hout, Reader.outs_append,
      Reader.final_of_alike hleft]
    exact congrArg (· ++ _) (Reader.outs_of_alike hleft)
  obtain ⟨htasks, hhears, hpasses⟩ := hi
  rw [Reader.outs_append, hfinal, houts, hworking, hreported] at htasks
  rw [Reader.final_append, hfinal] at hhears
  rw [Reader.passes_append, hfinal] at hpasses
  have hq : q.app.client.working = [] ∧ q.reported = [] ∧ q.inbox = l₁ ++ l₂ ∧
      q.phase = .connected := by
    rw [← hp']
    refine ⟨?_, hreported, rfl, rfl⟩
    exact LashClient.working_of_eq (congrArg ClientApi.pendingTask hapi)
  obtain ⟨hqworking, hqreported, hqin, hqphase⟩ := hq
  have hears : ∀ x, q.hears n x = p.hears n x := by
    intro x
    cases x <;> simp [Peer.hears, hqphase, hphase]
  refine ⟨?_, ?_, ?_⟩
  · rw [Reader.outs_append, hqworking, hqreported]
    exact htasks
  · rw [Reader.final_append]
    exact hhears
  · rw [Reader.passes_append]
    refine ⟨?_, ?_⟩
    · apply Reader.Passes.of_forall_not
      intro x hx hdeaf
      rw [hqin] at hx
      obtain ⟨hdest, -⟩ := hcalls x hx
      cases x with
      | save | renamed => exact absurd hdest (by simp [Letter.dest])
      | load | loadDataSet | reply =>
          exact absurd (Option.some.inj hdest) (of_decide_eq_false hdeaf)
    · refine hpasses.2.mono ?_
      intro x hx
      rw [← hears]
      exact hx

/-! ## A match rule -/

theorem Phase.addMatch_some {phase phase' : Phase} (h : phase.addMatch = some phase') :
    phase ≠ .waiting ∧ phase' ≠ .waiting := by
  cases phase with
  | waiting | ready => exact absurd h (by simp [Phase.addMatch])
  | connected | hearsServer =>
      cases h
      exact ⟨by decide, by decide⟩

/-- Whoever has one rule more hears more. -/
theorem Peer.hears_addMatch {phase : Phase} (h : p.phase.addMatch = some phase)
    (hl : ({ p with phase := phase } : Peer).hears n l = false) : p.hears n l = false := by
  cases l with
  | save | renamed =>
      cases hphase : p.phase <;> rw [hphase] at h <;> cases h <;> simp_all [Peer.hears]
  | load | loadDataSet | reply => exact hl

theorem Peer.InStep.addMatch (h : p.InStep n wire name c) {phase : Phase}
    (hphase : p.phase.addMatch = some phase) :
    ({ p with phase := phase } : Peer).InStep n wire name c := by
  obtain ⟨hbefore, hafter⟩ := Phase.addMatch_some hphase
  have hbelieves : ({ p with phase := phase } : Peer).believes = p.believes :=
    (if_neg hafter).trans (if_neg hbefore).symm
  refine ⟨?_, ?_, ?_⟩
  · rw [hbelieves]
    exact h.tasks
  · rw [hbelieves]
    exact h.hears
  · rw [hbelieves]
    exact h.passes.mono (fun x hx => Peer.hears_addMatch hphase hx)

theorem Peer.Sane.addMatch (h : p.Sane n wire) {phase : Phase}
    (hphase : p.phase.addMatch = some phase) :
    ({ p with phase := phase } : Peer).Sane n wire := by
  obtain ⟨hbefore, hafter⟩ := Phase.addMatch_some hphase
  refine ⟨h.sound, h.role, ?_, ?_, ?_, h.fine, fun _ => h.placed hbefore, h.renames, ?_, h.own⟩
  · exact fun hconn => absurd (h.unknown hconn).1 hbefore
  · exact fun hw => absurd hw hafter
  · have honce := h.once
    rw [if_neg hbefore] at honce
    rw [if_neg hafter]
    exact honce
  · intro args hi
    exact ⟨(h.commit args hi).1, hafter⟩

end

end Lash
