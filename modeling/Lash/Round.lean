import Lash.Refine

/-!
# The progress of a save

While a project is being saved it shows one number, the progress of all clients together. `Round`
is the state of a save at a time when nobody joins or leaves: who has completed, how many are
waited for, what was announced, and how the progress adds up. The two things that a client can
report, some progress and the end of its task, keep it.
-/

namespace Lash

/-! ## What the log says -/

/-- How often a client completed a task. -/
def completions (a x : Addr) (log : List Event) : Nat :=
  log.countP fun
    | .taskCompleted b y _ _ _ => b = a && y = x
    | _ => false

/-- How often a project was announced as saved. -/
def announcements (a : Addr) (log : List Event) : Nat :=
  log.countP fun
    | .projectSaved b _ => b = a
    | _ => false

/-- The progress values that were sent for a project. -/
def readings (a : Addr) (log : List Event) : List Nat :=
  log.filterMap fun
    | .progress b n => if b = a then some n else none
    | _ => none

section

variable {a x : Addr} {log evs : List Event}

@[simp] theorem completions_append :
    completions a x (log ++ evs) = completions a x log + completions a x evs :=
  List.countP_append ..

@[simp] theorem announcements_append :
    announcements a (log ++ evs) = announcements a log + announcements a evs :=
  List.countP_append ..

@[simp] theorem readings_append : readings a (log ++ evs) = readings a log ++ readings a evs :=
  List.filterMap_append ..

/-- Events of other projects say nothing. -/
theorem silent_of_project_ne (h : ∀ e ∈ evs, e.project ≠ a) :
    (∀ x, completions a x evs = 0) ∧ announcements a evs = 0 ∧ readings a evs = [] := by
  refine ⟨fun x => ?_, ?_, ?_⟩
  · rw [completions, List.countP_eq_zero]
    intro e he
    cases e with
    | taskCompleted b y task type ok => simp [show b ≠ a from h _ he]
    | _ => exact Bool.false_ne_true
  · rw [announcements, List.countP_eq_zero]
    intro e he
    cases e with
    | projectSaved b name => simp [show b ≠ a from h _ he]
    | _ => exact Bool.false_ne_true
  · rw [readings, List.filterMap_eq_nil_iff]
    intro e he
    cases e with
    | progress b n => exact if_neg (show b ≠ a from h _ he)
    | _ => rfl

end

/-! ## Progress -/

/-- Values sent so far: they never fall, stay below 100, and are not beyond the reading. -/
structure Rising (reading : Nat) (values : List Nat) : Prop where
  sorted : values.Pairwise (· ≤ ·)
  small : ∀ n ∈ values, n ≤ 99 ∧ n ≤ reading

theorem Rising.nil (reading : Nat) : Rising reading [] := ⟨.nil, by simp⟩

theorem Rising.done {r : Nat} {values : List Nat} (h : Rising r values) : Rising 99 values :=
  ⟨h.sorted, fun n hn => ⟨(h.small n hn).1, (h.small n hn).1⟩⟩

/-- The next value is the reading, cut off at 99. -/
theorem Rising.concat {r r' : Nat} {values : List Nat} (h : Rising r values) (hr : r ≤ r') :
    Rising r' (values ++ [if r' > 99 then 99 else r']) := by
  constructor
  · rw [List.pairwise_append]
    refine ⟨h.sorted, List.pairwise_singleton .., ?_⟩
    intro n hn m hm
    rw [List.mem_singleton] at hm
    have := h.small n hn
    split at hm <;> omega
  · intro n hn
    rcases List.mem_append.mp hn with hn | hn
    · have := h.small n hn
      omega
    · rw [List.mem_singleton] at hn
      split at hn <;> omega

/-! ## Clients in a save -/

namespace Client

/-- The client has a task. -/
def busy (c : Client) : Bool := c.pendingTask ≠ 0

/-- What a client contributes to the progress of a save: 100 when it has completed. -/
def share (c : Client) : Nat :=
  if hasInternalState c.flags then if c.busy then c.taskProgress else 100 else 0

/-- What reports do not change about a client. -/
def profile (c : Client) : Addr × Option CStr × Bool × Bool × Bool :=
  (c.addr, c.dbusName, hasInternalState c.flags, configFile c.flags, c.store.isSome)

/-- The client was asked to save and has not reported the end of it. -/
structure Asked (task : Nat) (c : Client) : Prop where
  pendingTask : c.pendingTask = task
  taskType : c.taskType = if configFile c.flags then .saveFile else .saveDataSet
  stateful : hasInternalState c.flags = true
  progress : c.taskProgress ≤ 99

end Client

/-- The state of a project during a save that has begun with the task `task`; `evs` is what happened
since. -/
structure Round (task : Nat) (p : Project) (evs : List Event) : Prop where
  distinct : (p.clients.map Client.addr).Nodup
  asked : ∀ c ∈ p.clients, c.busy = true → c.Asked task
  pending : p.clientTasksPending = p.clients.countP Client.busy
  once : ∀ c ∈ p.clients, completions p.addr c.addr evs
    = if hasInternalState c.flags = true ∧ c.busy = false then 1 else 0
  others : ∀ x ∉ p.clients.map Client.addr, completions p.addr x evs = 0
  running : p.clientTasksPending ≠ 0 →
    p.taskType = .save ∧ announcements p.addr evs = 0
      ∧ p.clientTasksTotal = p.clients.countP (fun c => hasInternalState c.flags)
      ∧ p.clientTasksProgress = (p.clients.map Client.share).sum
      ∧ ∃ values, readings p.addr evs = 0 :: values
        ∧ Rising ((p.clients.map Client.share).sum / p.clientTasksTotal) values
  finished : p.clientTasksPending = 0 →
    p.taskType = .idle ∧ announcements p.addr evs = 1
      ∧ ∃ values, readings p.addr evs = 0 :: values ++ [100] ∧ Rising 99 values

/-! ## One client moves on -/

section

variable {task : Nat} {p p' : Project} {evs new : List Event} {c d : Client}

theorem Client.Asked.share (h : c.Asked task) (hb : c.busy = true) : c.share = c.taskProgress := by
  rw [Client.share, if_pos h.stateful, if_pos hb]

theorem Round.share_le (h : Round task p evs) : ∀ c ∈ p.clients,
    c.share ≤ 100 * (if hasInternalState c.flags = true then 1 else 0) := by
  intro c hc
  unfold Client.share
  split
  · split
    · next hb =>
        have := (h.asked c hc hb).progress
        omega
    · omega
  · omega

/-- The progress never exceeds 100 for each client that was asked. -/
theorem sum_share_le {l : List Client} (h : ∀ c ∈ l,
    c.share ≤ 100 * (if hasInternalState c.flags = true then 1 else 0)) :
    (l.map Client.share).sum ≤ 100 * l.countP (fun c => hasInternalState c.flags) := by
  induction l with
  | nil => simp
  | cons c l ih =>
      have hc := h c (by simp)
      have ih := ih (fun d hd => h d (List.mem_cons_of_mem _ hd))
      rw [List.map_cons, List.sum_cons, List.countP_cons]
      omega

/-- A client that has a task gets further: what the project shows. -/
theorem Round.progress (h : Round task p evs) (hp : p.clientTasksPending ≠ 0) (hc : c ∈ p.clients)
    (hb : c.busy = true) (haddr : d.addr = c.addr) (hd : hasInternalState d.flags = true)
    (hshare : c.taskProgress ≤ d.share ∧ d.share ≤ 100) :
    let sum := ((putClient d p.clients).map Client.share).sum
    p.clientTasksProgress - c.taskProgress + d.share = sum ∧ sum / p.clientTasksTotal ≤ 100
      ∧ (p.clients.map Client.share).sum ≤ sum := by
  intro sum
  have hasked := h.asked c hc hb
  obtain ⟨_, _, htotal, hprogress, _⟩ := h.running hp
  have hput : sum + c.share = (p.clients.map Client.share).sum + d.share :=
    Keyed.sum_map_put h.distinct hc haddr
  rw [hasked.share hb] at hput
  refine ⟨by omega, ?_, by omega⟩
  have hle : sum ≤ 100 * p.clientTasksTotal := by
    have hstate : (putClient d p.clients).countP (fun c => hasInternalState c.flags)
        = p.clients.countP (fun c => hasInternalState c.flags) := by
      have := Keyed.countP_put (q := fun c : Client => hasInternalState c.flags) h.distinct hc haddr
      rw [if_pos hasked.stateful, if_pos hd] at this
      exact Nat.add_right_cancel this
    rw [htotal, ← hstate]
    apply sum_share_le
    intro e he
    rcases Keyed.eq_or_mem_of_mem_put he with rfl | he
    · rw [if_pos hd]
      omega
    · exact h.share_le e he
  apply Nat.div_le_of_le_mul
  rw [Nat.mul_comm]
  exact hle

/-- What stays the same when one client is written back. -/
theorem Round.put_busy (h : Round task p evs) (hc : c ∈ p.clients) (haddr : d.addr = c.addr)
    (hd : d.busy = true → d.Asked task) :
    ((putClient d p.clients).map Client.addr).Nodup ∧
      (∀ e ∈ putClient d p.clients, e.busy = true → e.Asked task) ∧
      (putClient d p.clients).countP Client.busy + c.busy.toNat
        = p.clients.countP Client.busy + d.busy.toNat := by
  refine ⟨?_, ?_, ?_⟩
  · rw [putClient, Keyed.map_key_put]
    exact h.distinct
  · intro e he hb
    rcases Keyed.eq_or_mem_of_mem_put he with rfl | he
    · exact hd hb
    · exact h.asked e he hb
  · have := Keyed.countP_put (q := Client.busy) h.distinct hc haddr
    cases hbc : c.busy <;> cases hbd : d.busy <;> rw [hbc, hbd] at this <;> exact this

/-- Completions when at most `c` completed its task. -/
theorem Round.put_once (h : Round task p evs) (hc : c ∈ p.clients) (hb : c.busy = true)
    (haddr : d.addr = c.addr) (hstate : hasInternalState d.flags = true)
    (hnew : ∀ x, completions p.addr x new = if x = c.addr ∧ d.busy = false then 1 else 0) :
    (∀ e ∈ putClient d p.clients, completions p.addr e.addr (evs ++ new)
      = if hasInternalState e.flags = true ∧ e.busy = false then 1 else 0) ∧
      ∀ x ∉ (putClient d p.clients).map Client.addr, completions p.addr x (evs ++ new) = 0 := by
  constructor
  · intro e he
    rw [completions_append, hnew]
    rcases Keyed.mem_put.mp he with ⟨rfl, _⟩ | ⟨he, hne⟩
    · rw [haddr, h.once c hc, hb, hstate]
      simp
    · rw [h.once e he, if_neg (c := e.addr = c.addr ∧ _) (fun hx => hne (hx.1.trans haddr.symm))]
      rfl
  · intro x hx
    rw [putClient, Keyed.map_key_put] at hx
    have hne : x ≠ c.addr := by
      rintro rfl
      exact hx (List.mem_map_of_mem hc)
    rw [completions_append, h.others x hx, hnew, if_neg (fun hx => hne hx.1)]

/-- The project goes on with the save after a client got further or completed. -/
theorem Round.moves_on (h : Round task p evs) (hp : p.clientTasksPending ≠ 0) (hc : c ∈ p.clients)
    (hb : c.busy = true) (haddr : d.addr = c.addr) (hd : d.busy = true → d.Asked task)
    (hstate : hasInternalState d.flags = true)
    (hshare : c.taskProgress ≤ d.share ∧ d.share ≤ 100)
    (hnew : ∀ x, completions p.addr x new = if x = c.addr ∧ d.busy = false then 1 else 0)
    (hquiet : announcements p.addr new = 0)
    (hread : readings p.addr new = [if ((putClient d p.clients).map Client.share).sum
      / p.clientTasksTotal > 99 then 99 else ((putClient d p.clients).map Client.share).sum
      / p.clientTasksTotal])
    (hp'addr : p'.addr = p.addr) (hp'clients : p'.clients = putClient d p.clients)
    (hp'task : p'.taskType = p.taskType) (hp'total : p'.clientTasksTotal = p.clientTasksTotal)
    (hp'progress : p'.clientTasksProgress = p.clientTasksProgress - c.taskProgress + d.share)
    (hp'pending : p'.clientTasksPending + 1 = p.clientTasksPending + d.busy.toNat)
    (hp'pos : p'.clientTasksPending ≠ 0) : Round task p' (evs ++ new) := by
  obtain ⟨hdist, hasked, hbusy⟩ := h.put_busy hc haddr hd
  obtain ⟨honce, hothers⟩ := h.put_once hc hb haddr hstate hnew
  obtain ⟨hsum, _, hle⟩ := h.progress hp hc hb haddr hstate hshare
  obtain ⟨htask, hann, htotal, _, values, hvalues, hrising⟩ := h.running hp
  constructor
  case distinct => rwa [hp'clients]
  case asked => rwa [hp'clients]
  case pending =>
    rw [hb, Bool.toNat_true] at hbusy
    have := h.pending
    rw [hp'clients]
    omega
  case once => rwa [hp'clients, hp'addr]
  case others => rwa [hp'clients, hp'addr]
  case running =>
    intro _
    rw [hp'addr, hp'task, hp'total, hp'progress, hp'clients, announcements_append, readings_append]
    refine ⟨htask, by rw [hann, hquiet], ?_, hsum, values ++ _, by rw [hvalues, hread]; rfl, ?_⟩
    · have := Keyed.countP_put (q := fun c : Client => hasInternalState c.flags) h.distinct hc haddr
      rw [if_pos (h.asked c hc hb).stateful, if_pos hstate] at this
      rw [htotal]
      exact (Nat.add_right_cancel this).symm
    · exact hrising.concat (Nat.div_le_div_right hle)
  case finished => intro h0; exact absurd h0 hp'pos

end

/-! ## Reports -/

section

variable {task : Nat} {s s' : Session} {evs : List Event} {c d : Client}

theorem hasInternalState_saved (f : Flags) :
    hasInternalState (f ||| flagSaved) = hasInternalState f := by
  unfold hasInternalState
  have hother : flagSaved &&& (flagConfigDataSet ||| flagConfigFile) = 0#32 := by decide
  rw [BitVec.and_or_distrib_right, hother, BitVec.or_zero]

theorem configFile_saved (f : Flags) : configFile (f ||| flagSaved) = configFile f := by
  unfold configFile
  rw [BitVec.and_or_distrib_right, show flagSaved &&& flagConfigFile = 0#32 by decide,
    BitVec.or_zero]

/-- A client with a task is one that the project waits for. -/
theorem Round.pending_pos (h : Round task s.p evs) (hc : c ∈ s.p.clients) (hb : c.busy = true) :
    s.p.clientTasksPending ≠ 0 ∧ s.p.clientTasksTotal ≠ 0 := by
  have hpos : 0 < s.p.clients.countP Client.busy := List.countP_pos_iff.mpr ⟨c, hc, hb⟩
  have hp : s.p.clientTasksPending ≠ 0 := by
    rw [h.pending]
    omega
  refine ⟨hp, ?_⟩
  rw [(h.running hp).2.2.1]
  have : 0 < s.p.clients.countP (fun c => hasInternalState c.flags) :=
    List.countP_pos_iff.mpr ⟨c, hc, (h.asked c hc hb).stateful⟩
  omega

/-- What `project_client_progress` shows. -/
def shownProgress (s : Session) (c : Client) (n : Nat) : Nat :=
  let reading := (s.p.clientTasksProgress - c.taskProgress + n).toNat / s.p.clientTasksTotal % 256
  if reading > 99 then 99 else reading

theorem projectClientProgress_eq (h : s.p.clientTasksTotal ≠ 0) (n : Nat) :
    projectClientProgress s c n =
      ({ g := s.g.emit (.progress s.p.addr (shownProgress s c n))
         p := { s.p with
          clientTasksProgress := s.p.clientTasksProgress - c.taskProgress + n
          clients := putClient { c with taskProgress := n } s.p.clients } },
        { c with taskProgress := n }) := by
  unfold projectClientProgress
  exact if_neg h

/-- The value shown is the reading of the clients together. -/
theorem Round.shown (h : Round task s.p evs) (hc : c ∈ s.p.clients) (hb : c.busy = true)
    (haddr : d.addr = c.addr) (hstate : hasInternalState d.flags = true) {n : Nat}
    (hn : d.share = n) (hshare : c.taskProgress ≤ n ∧ n ≤ 100) :
    shownProgress s c n = if ((putClient d s.p.clients).map Client.share).sum
      / s.p.clientTasksTotal > 99 then 99 else ((putClient d s.p.clients).map Client.share).sum
      / s.p.clientTasksTotal := by
  obtain ⟨hp, _⟩ := h.pending_pos hc hb
  obtain ⟨hsum, hle, _⟩ := h.progress hp hc hb haddr hstate (by rw [hn]; exact hshare)
  rw [hn] at hsum
  unfold shownProgress
  rw [hsum, Int.toNat_natCast, Nat.mod_eq_of_lt (by omega)]

/-- A client reports some progress. -/
theorem Round.progressed (h : Round task s.p evs) (hc : c ∈ s.p.clients) (hb : c.busy = true)
    {n : Nat} (hn : c.taskProgress ≤ n ∧ n ≤ 99) :
    ∃ new, (projectClientProgress s c n).1.g.log = s.g.log ++ new ∧
      Round task (projectClientProgress s c n).1.p (evs ++ new) ∧
      ∀ x, completions s.p.addr x new = 0 := by
  obtain ⟨hp, htotal⟩ := h.pending_pos hc hb
  have hasked := h.asked c hc hb
  have hd : ({ c with taskProgress := n } : Client).Asked task :=
    ⟨hasked.pendingTask, hasked.taskType, hasked.stateful, hn.2⟩
  have hshare : ({ c with taskProgress := n } : Client).share = n := hd.share hb
  have hshown := h.shown (d := { c with taskProgress := n }) hc hb rfl hasked.stateful hshare
    ⟨by omega, by omega⟩
  rw [projectClientProgress_eq htotal]
  refine ⟨[.progress s.p.addr (shownProgress s c n)], rfl, ?_, by simp [completions]⟩
  refine h.moves_on (d := { c with taskProgress := n }) hp hc hb rfl (fun _ => hd) hasked.stateful
    (by rw [hshare]; omega) ?_ ?_ ?_ rfl rfl rfl rfl (by rw [hshare]) ?_ hp
  · intro x
    rw [if_neg (fun hx => absurd (hx.2.symm.trans hb) (by decide))]
    rfl
  · rfl
  · rw [← hshown]
    simp [readings]
  · show s.p.clientTasksPending + 1 = s.p.clientTasksPending + c.busy.toNat
    rw [hb]
    rfl

/-- A client's own part of a completion: its store may be written and it may count as saved now. The
task stays until the project has heard of it. -/
theorem clientFinishTask_profile {ok : Bool} (h : clientFinishTask s c ok = some (s', d)) :
    d.profile = c.profile ∧ d.id = c.id ∧ d.pendingTask = c.pendingTask ∧ d.taskType = c.taskType
      ∧ d.taskProgress = c.taskProgress ∧ s'.p.clients = s.p.clients := by
  have hflags : ∀ (store : Option Store), store.isSome = c.store.isSome →
      ({ c with store := store, flags := c.flags ||| flagSaved } : Client).profile = c.profile := by
    intro store hs
    simp only [Client.profile, hasInternalState_saved, configFile_saved, hs]
  unfold clientFinishTask at h
  split at h
  · split at h
    · split at h
      · exact absurd h (by simp)
      · next st hst =>
          generalize storeWrite st s.g.fs = r at h
          obtain ⟨written, st', fs⟩ := r
          obtain ⟨rfl, rfl⟩ := Prod.mk.inj (Option.some.inj h)
          refine ⟨?_, rfl, rfl, rfl, rfl, rfl⟩
          cases written with
          | true => exact hflags (some st') (by rw [hst]; rfl)
          | false => simp [Client.profile, hst]
    · obtain ⟨rfl, rfl⟩ := Prod.mk.inj (Option.some.inj h)
      exact ⟨hflags _ rfl, rfl, rfl, rfl, rfl, rfl⟩
    · obtain ⟨u, hu, he⟩ := Option.map_eq_some_iff.mp h
      obtain ⟨r, _, rfl⟩ := Option.map_eq_some_iff.mp hu
      obtain ⟨rfl, rfl⟩ := Prod.mk.inj he
      exact ⟨rfl, rfl, rfl, rfl, rfl, rfl⟩
    · obtain ⟨u, hu, he⟩ := Option.map_eq_some_iff.mp h
      obtain ⟨r, _, rfl⟩ := Option.map_eq_some_iff.mp hu
      obtain ⟨rfl, rfl⟩ := Prod.mk.inj he
      exact ⟨rfl, rfl, rfl, rfl, rfl, rfl⟩
    · obtain ⟨rfl, rfl⟩ := Prod.mk.inj (Option.some.inj h)
      exact ⟨rfl, rfl, rfl, rfl, rfl, rfl⟩
  · obtain ⟨rfl, rfl⟩ := Prod.mk.inj (Option.some.inj h)
    exact ⟨rfl, rfl, rfl, rfl, rfl, rfl⟩

/-- Announcing a save leaves the clients and the task alone. -/
theorem projectClientsSaveComplete_spec (s : Session) :
    let t := projectClientsSaveComplete s
    t.p.addr = s.p.addr ∧ t.p.clients = s.p.clients ∧ t.p.taskType = s.p.taskType
      ∧ t.p.clientTasksPending = s.p.clientTasksPending
      ∧ ∃ new, t.g.log = s.g.log ++ new ∧ (∀ x, completions s.p.addr x new = 0)
        ∧ announcements s.p.addr new = 1 ∧ readings s.p.addr new = [100] := by
  have hinfo : ∃ l, (projectWriteInfo s).2.g.log = s.g.log ++ l
      ∧ (l = [] ∨ l = [.infoWritten s.p.addr]) := by
    unfold projectWriteInfo
    dsimp only
    split
    · exact ⟨_, rfl, Or.inr rfl⟩
    · exact ⟨[], by simp [Session.setFs], Or.inl rfl⟩
  have hp : (projectWriteInfo s).2.p = { s.p with doc := some (projectCreateXml s.p) } := by
    unfold projectWriteInfo
    dsimp only
    split <;> rfl
  have hmodified : ∀ t : Session, ∃ l, (projectSetModifiedStatus t false).g.log = t.g.log ++ l
      ∧ (l = [] ∨ l = [.projectModifiedStatusChanged t.p.addr t.p.name false]) := by
    intro t
    unfold projectSetModifiedStatus
    split
    · exact ⟨[], by simp, Or.inl rfl⟩
    · exact ⟨_, rfl, Or.inr rfl⟩
  have hsame : ∀ t : Session, (projectSetModifiedStatus t false).p.addr = t.p.addr
      ∧ (projectSetModifiedStatus t false).p.clients = t.p.clients
      ∧ (projectSetModifiedStatus t false).p.taskType = t.p.taskType
      ∧ (projectSetModifiedStatus t false).p.clientTasksPending = t.p.clientTasksPending := by
    intro t
    unfold projectSetModifiedStatus
    split <;> exact ⟨rfl, rfl, rfl, rfl⟩
  intro t
  have ht : t = projectClientsSaveComplete s := rfl
  unfold projectClientsSaveComplete at ht
  dsimp only at ht
  obtain ⟨l₁, hl₁, h₁⟩ := hinfo
  generalize (projectWriteInfo s).2 = u at ht hl₁ hp
  generalize hw : (u.emit (.progress u.p.addr 100)).emit (.projectSaved u.p.addr u.p.name) = w at ht
  have hup : u.p.addr = s.p.addr := by rw [hp]
  have hwp : w.p = u.p := by rw [← hw]; rfl
  obtain ⟨haddr, hclients, htask, hpending⟩ := hsame w
  obtain ⟨l₂, hl₂, h₂⟩ := hmodified w
  rw [← ht] at haddr hclients htask hpending hl₂
  rw [hwp, hp] at haddr hclients htask hpending
  refine ⟨haddr, hclients, htask, hpending,
    l₁ ++ [.progress u.p.addr 100, .projectSaved u.p.addr u.p.name] ++ l₂, ?_, ?_⟩
  · rw [hl₂, ← hw]
    simp [Session.emit, Globals.emit, hl₁]
  · rw [hup]
    rcases h₁ with rfl | rfl <;> rcases h₂ with rfl | rfl <;>
      simp [completions, announcements, readings]

/-- What a completion that is counted does to the project of the client: the count goes down, and
after the last one the save is announced. -/
structure CountedDown (s s' : Session) (c : Client) : Prop where
  addr : s'.p.addr = s.p.addr
  clients : ∃ d : Client, d.profile = c.profile ∧ d.busy = false
    ∧ s'.p.clients = putClient d s.p.clients
  more : s.p.clientTasksPending ≠ 1 → s'.p.taskType = s.p.taskType
    ∧ s'.p.clientTasksTotal = s.p.clientTasksTotal
    ∧ s'.p.clientTasksPending = s.p.clientTasksPending - 1
    ∧ s'.p.clientTasksProgress = s.p.clientTasksProgress - c.taskProgress + 100
    ∧ ∃ ok, s'.g.log = s.g.log ++ [.taskCompleted s.p.addr c.addr c.pendingTask c.taskType ok,
      .progress s.p.addr (shownProgress s c 100)]
  last : s.p.clientTasksPending = 1 → s'.p.taskType = .idle ∧ s'.p.clientTasksPending = 0
    ∧ ∃ ok new, s'.g.log = s.g.log ++ .taskCompleted s.p.addr c.addr c.pendingTask c.taskType ok
        :: .progress s.p.addr (shownProgress s c 100) :: new
      ∧ (∀ x, completions s.p.addr x new = 0) ∧ announcements s.p.addr new = 1
      ∧ readings s.p.addr new = [100]

/-- `project_client_task_completed` brings the count of a save to zero. -/
theorem projectTaskFinished_save (htype : c.taskType.isSave = true) :
    let t := projectTaskFinished s c
    t.p.addr = s.p.addr ∧ t.p.clients = s.p.clients ∧ t.p.taskType = .idle
      ∧ t.p.clientTasksPending = s.p.clientTasksPending
      ∧ ∃ new, t.g.log = s.g.log ++ new ∧ (∀ x, completions s.p.addr x new = 0)
        ∧ announcements s.p.addr new = 1 ∧ readings s.p.addr new = [100] := by
  have hfinish : projectTaskFinished s c = projectClientsSaveComplete
      { s.emit (.taskFinished s.p.addr s.p.taskType) with
        p := { s.p with taskType := .idle, clientTasksTotal := 0, clientTasksProgress := 0 } } := by
    unfold projectTaskFinished
    cases hct : c.taskType <;> rw [hct] at htype <;> first | rfl | exact absurd htype (by decide)
  intro t
  rw [show t = _ from hfinish]
  generalize hu : ({ s.emit (.taskFinished s.p.addr s.p.taskType) with
    p := { s.p with taskType := .idle, clientTasksTotal := 0, clientTasksProgress := 0 } }
      : Session) = u
  have hup : u.p.addr = s.p.addr ∧ u.p.clients = s.p.clients ∧ u.p.taskType = .idle
      ∧ u.p.clientTasksPending = s.p.clientTasksPending
      ∧ u.g.log = s.g.log ++ [.taskFinished s.p.addr s.p.taskType] := by
    rw [← hu]
    exact ⟨rfl, rfl, rfl, rfl, rfl⟩
  obtain ⟨huaddr, huclients, hutask, hupending, hulog⟩ := hup
  obtain ⟨haddr, hclients, htask, hpending, new, hlog, hcomp, hann, hread⟩ :=
    projectClientsSaveComplete_spec u
  rw [huaddr] at haddr hcomp hann hread
  refine ⟨haddr, hclients.trans huclients, htask.trans hutask, hpending.trans hupending,
    .taskFinished s.p.addr s.p.taskType :: new, ?_, ?_, ?_, ?_⟩
  · rw [hlog, hulog, List.append_assoc]
    rfl
  · exact fun x => hcomp x
  · exact hann
  · exact hread

/-- `client_task_completed` for a client that was asked to save. -/
theorem clientTaskCompleted_counts {ok : Bool} (htype : c.taskType.isSave = true)
    (htotal : s.p.clientTasksTotal ≠ 0) (hpending : s.p.clientTasksPending ≠ 0)
    (h : clientTaskCompleted s c ok = some s') : CountedDown s s' c := by
  unfold clientTaskCompleted at h
  rw [if_neg (by rintro he; rw [he] at htype; exact absurd htype (by decide))] at h
  obtain ⟨⟨u, d⟩, hfin, hs'⟩ := Option.map_eq_some_iff.mp h
  -- the client's own part
  obtain ⟨hprofile, _, hdp, hdt, hdprog, _⟩ := clientFinishTask_profile hfin
  have hdaddr : d.addr = c.addr := congrArg Prod.fst hprofile
  have hu : u.p = s.p ∧ u.g.log = s.g.log
      ++ [.taskCompleted s.p.addr c.addr c.pendingTask c.taskType ok] := by
    cases ok with
    | true =>
        obtain ⟨fs, flags, rfl, _⟩ := clientFinishTask_save htype hfin
        exact ⟨rfl, rfl⟩
    | false =>
        unfold clientFinishTask at hfin
        rw [if_neg (by decide)] at hfin
        obtain ⟨rfl, _⟩ := Prod.mk.inj (Option.some.inj hfin)
        exact ⟨rfl, rfl⟩
  obtain ⟨hup, hulog⟩ := hu
  -- the project hears of it
  rw [← hup] at htotal hpending
  have hshown : shownProgress u d 100 = shownProgress s c 100 := by
    unfold shownProgress
    rw [hup, hdprog]
  simp only [projectClientTaskCompleted, projectClientProgress_eq htotal] at hs'
  generalize hv : ({ g := u.g.emit (.progress u.p.addr (shownProgress u d 100))
                     p := { u.p with
                      clientTasksProgress := u.p.clientTasksProgress - d.taskProgress + (100 : Nat)
                      clients := putClient { d with taskProgress := 100 } u.p.clients } }
      : Session) = v at hs'
  generalize he : ({ d with taskProgress := 100 } : Client) = e at hs' hv
  have headdr : e.addr = d.addr := by rw [← he]
  have hetype : e.taskType.isSave = true := by
    rw [← he]
    exact hdt ▸ htype
  have hclear : e.clearTask.profile = c.profile ∧ e.clearTask.busy = false := by
    rw [← he]
    exact ⟨hprofile, rfl⟩
  have hvp : v.p = { s.p with
      clientTasksProgress := s.p.clientTasksProgress - c.taskProgress + 100
      clients := putClient e s.p.clients } := by
    rw [← hv, hup, hdprog]
    rfl
  have hvlog : v.g.log = s.g.log ++ [.taskCompleted s.p.addr c.addr c.pendingTask c.taskType ok,
      .progress s.p.addr (shownProgress s c 100)] := by
    rw [← hv, ← hshown, ← hup]
    show u.g.log ++ _ = _
    rw [hulog, hup]
    simp
  have hputput : ∀ p : Project, p.clients = putClient e s.p.clients →
      (p.put e.clearTask).clients = putClient e.clearTask s.p.clients := by
    intro p hp
    show putClient e.clearTask p.clients = _
    rw [hp]
    exact Keyed.put_put rfl
  rw [hup] at hpending
  unfold projectCountDown at hs'
  rw [if_neg (by rw [hvp]; exact hpending)] at hs'
  dsimp only at hs'
  by_cases h1 : s.p.clientTasksPending = 1
  · rw [if_pos (by rw [hvp]; show s.p.clientTasksPending - 1 = 0; omega)] at hs'
    generalize hw : ({ v with p := { v.p with
      clientTasksPending := v.p.clientTasksPending - 1 } } : Session) = w at hs'
    have hwp : w.p.addr = s.p.addr ∧ w.p.clients = putClient e s.p.clients
        ∧ w.p.clientTasksPending = 0 ∧ w.g.log = v.g.log := by
      rw [← hw]
      refine ⟨by rw [hvp], by rw [hvp], ?_, rfl⟩
      rw [hvp]
      show s.p.clientTasksPending - 1 = 0
      omega
    obtain ⟨hwaddr, hwclients, hwpending, hwlog⟩ := hwp
    obtain ⟨haddr, hclients, htask, hpend, new, hlog, hcomp, hann, hread⟩ :=
      projectTaskFinished_save (s := w) hetype
    rw [hwaddr] at haddr hcomp hann hread
    rw [← hs']
    constructor
    case addr => exact haddr
    case clients =>
      exact ⟨e.clearTask, hclear.1, hclear.2, hputput _ (hclients.trans hwclients)⟩
    case more => intro hne; exact absurd h1 hne
    case last =>
      intro _
      refine ⟨htask, hpend.trans hwpending, ok, new, ?_, hcomp, hann, hread⟩
      show (projectTaskFinished w e).g.log = _
      rw [hlog, hwlog, hvlog]
      simp
  · rw [if_neg (by rw [hvp]; show ¬ s.p.clientTasksPending - 1 = 0; omega)] at hs'
    rw [← hs']
    constructor
    case addr => show v.p.addr = _; rw [hvp]
    case clients =>
      exact ⟨e.clearTask, hclear.1, hclear.2, hputput _ (by rw [hvp])⟩
    case more =>
      intro _
      refine ⟨?_, ?_, ?_, ?_, ok, hvlog⟩
      · show v.p.taskType = _
        rw [hvp]
      · show v.p.clientTasksTotal = _
        rw [hvp]
      · show v.p.clientTasksPending - 1 = _
        rw [hvp]
      · show v.p.clientTasksProgress = _
        rw [hvp]
    case last => intro h; exact absurd h h1

theorem projectCountDown_clients (s : Session) (c : Client) :
    (projectCountDown s c).p.clients = s.p.clients := by
  have hmodified : ∀ t : Session, (projectSetModifiedStatus t false).p.clients = t.p.clients := by
    intro t
    unfold projectSetModifiedStatus
    split <;> rfl
  unfold projectCountDown
  split
  · rfl
  · dsimp only
    split
    · unfold projectTaskFinished
      cases c.taskType with
      | saveFile | saveDataSet => exact (projectClientsSaveComplete_spec _).2.1
      | restoreFile | restoreDataSet => exact hmodified _
      | unknown => rfl
    · rfl

theorem projectClientProgress_clients (s : Session) (c : Client) (n : Nat) :
    (projectClientProgress s c n).1.p.clients
        = putClient (projectClientProgress s c n).2 s.p.clients
      ∧ (projectClientProgress s c n).2.profile = c.profile
      ∧ (projectClientProgress s c n).2.id = c.id := by
  unfold projectClientProgress
  dsimp only
  split <;> exact ⟨rfl, rfl, rfl⟩

/-- Whatever a client completes, the others are left alone. -/
theorem clientTaskCompleted_clients {ok : Bool} (h : clientTaskCompleted s c ok = some s') :
    ∃ d : Client, d.profile = c.profile ∧ d.id = c.id ∧ d.pendingTask = 0
      ∧ s'.p.clients = putClient d s.p.clients := by
  unfold clientTaskCompleted at h
  dsimp only at h
  split at h
  · rw [← Option.some.inj h]
    exact ⟨c.clearTask, rfl, rfl, rfl, rfl⟩
  · obtain ⟨⟨u, d⟩, hfin, rfl⟩ := Option.map_eq_some_iff.mp h
    obtain ⟨hprofile, hid, _, _, _, hclients⟩ := clientFinishTask_profile hfin
    obtain ⟨hput, hsame, hkept⟩ := projectClientProgress_clients u d 100
    refine ⟨(projectClientProgress u d 100).2.clearTask, hsame.trans hprofile, hkept.trans hid,
      rfl, ?_⟩
    have hclear : (projectCountDown (projectClientProgress u d 100).1
        (projectClientProgress u d 100).2).p.clients
        = putClient (projectClientProgress u d 100).2 s.p.clients := by
      rw [projectCountDown_clients, hput, hclients]
      rfl
    exact (congrArg (putClient _) hclear).trans (Keyed.put_put rfl)

/-- What happens to other projects does not matter. -/
theorem Round.silent (h : Round task p evs) {es : List Event} (hes : ∀ e ∈ es, e.project ≠ p.addr) :
    Round task p (evs ++ es) := by
  obtain ⟨hcomp, hann, hread⟩ := silent_of_project_ne hes
  constructor
  case distinct => exact h.distinct
  case asked => exact h.asked
  case pending => exact h.pending
  case once =>
    intro c hc
    rw [completions_append, hcomp]
    exact h.once c hc
  case others =>
    intro x hx
    rw [completions_append, hcomp]
    exact h.others x hx
  case running =>
    intro hp
    rw [announcements_append, hann, readings_append, hread, List.append_nil]
    exact h.running hp
  case finished =>
    intro hp
    rw [announcements_append, hann, readings_append, hread, List.append_nil]
    exact h.finished hp

/-- A client with the same task is written back. -/
theorem Round.put_same (h : Round task s.p evs) (hc : c ∈ s.p.clients)
    (hprofile : d.profile = c.profile)
    (hpend : d.pendingTask = c.pendingTask) (htype : d.taskType = c.taskType)
    (hprog : d.taskProgress = c.taskProgress) : Round task (s.p.put d) evs := by
  have haddr : d.addr = c.addr := congrArg Prod.fst hprofile
  have hstate : hasInternalState d.flags = hasInternalState c.flags :=
    congrArg (fun r : Addr × Option CStr × Bool × Bool × Bool => r.2.2.1) hprofile
  have hfile : configFile d.flags = configFile c.flags :=
    congrArg (fun r : Addr × Option CStr × Bool × Bool × Bool => r.2.2.2.1) hprofile
  have hbusy : d.busy = c.busy := by rw [Client.busy, Client.busy, hpend]
  have hasked : d.busy = true → d.Asked task := by
    intro hb
    obtain ⟨h1, h2, h3, h4⟩ := h.asked c hc (hbusy ▸ hb)
    exact ⟨hpend.trans h1, by rw [htype, h2, hfile], hstate.trans h3, hprog ▸ h4⟩
  obtain ⟨hdist, hall, hcount⟩ := h.put_busy hc haddr hasked
  have hsum : ((putClient d s.p.clients).map Client.share).sum =
      (s.p.clients.map Client.share).sum := by
    have hshare : d.share = c.share := by rw [Client.share, Client.share, hstate, hbusy, hprog]
    have := Keyed.sum_map_put (f := Client.share) h.distinct hc haddr
    rw [hshare] at this
    exact Nat.add_right_cancel this
  have hstates : (putClient d s.p.clients).countP (fun c => hasInternalState c.flags)
      = s.p.clients.countP (fun c => hasInternalState c.flags) := by
    have := Keyed.countP_put (q := fun c : Client => hasInternalState c.flags) h.distinct hc haddr
    rw [hstate] at this
    exact Nat.add_right_cancel this
  constructor
  case distinct => exact hdist
  case asked => exact hall
  case pending =>
    rw [hbusy] at hcount
    exact h.pending.trans (Nat.add_right_cancel hcount).symm
  case once =>
    intro e he
    rcases Keyed.mem_put.mp he with ⟨rfl, _⟩ | ⟨he, _⟩
    · rw [haddr, hstate, hbusy]
      exact h.once c hc
    · exact h.once e he
  case others =>
    intro x hx
    refine h.others x ?_
    rwa [show (s.p.put d).clients = putClient d s.p.clients from rfl, putClient,
      Keyed.map_key_put] at hx
  case running =>
    intro hp
    obtain ⟨h1, h2, h3, h4, values, h5, h6⟩ := h.running hp
    refine ⟨h1, h2, h3.trans hstates.symm, ?_, values, h5, ?_⟩
    · exact h4.trans (congrArg Nat.cast hsum.symm)
    · rw [show ((s.p.put d).clients.map Client.share).sum = _ from hsum]
      exact h6
  case finished => exact h.finished

/-- A client reports the end of its save. -/
theorem Round.completed {ok : Bool} (h : Round task s.p evs) (hc : c ∈ s.p.clients)
    (hb : c.busy = true) (hdone : clientTaskCompleted s c ok = some s') :
    ∃ new, s'.g.log = s.g.log ++ new ∧ Round task s'.p (evs ++ new) ∧
      ∀ x, completions s.p.addr x new = if x = c.addr then 1 else 0 := by
  obtain ⟨hp, htotal⟩ := h.pending_pos hc hb
  have hasked := h.asked c hc hb
  have htype : c.taskType.isSave = true := by
    rw [hasked.taskType]
    split <;> rfl
  obtain ⟨haddr, ⟨d, hprofile, hdb, hclients⟩, hmore, hlast⟩ :=
    clientTaskCompleted_counts htype htotal hp hdone
  have hdaddr : d.addr = c.addr := congrArg Prod.fst hprofile
  have hdstate : hasInternalState d.flags = true := by
    have : hasInternalState d.flags = hasInternalState c.flags :=
      congrArg (fun r : Addr × Option CStr × Bool × Bool × Bool => r.2.2.1) hprofile
    rw [this]
    exact hasked.stateful
  have hdshare : d.share = 100 := by
    rw [Client.share, if_pos hdstate, if_neg (by rw [hdb]; decide)]
  have hle := hasked.progress
  have hshare : c.taskProgress ≤ d.share ∧ d.share ≤ 100 := by omega
  have hshown := h.shown hc hb hdaddr hdstate hdshare ⟨by omega, by omega⟩
  have hnotbusy : d.busy = true → d.Asked task := fun hb' => by
    rw [hdb] at hb'
    exact absurd hb' (by decide)
  by_cases h1 : s.p.clientTasksPending = 1
  · -- the last one
    obtain ⟨htask, hpend, ok', new, hlog, hcomp, hann, hread⟩ := hlast h1
    obtain ⟨hdist, hasked', hbusy⟩ := h.put_busy hc hdaddr hnotbusy
    have hnew : ∀ x, completions s.p.addr x
        (.taskCompleted s.p.addr c.addr c.pendingTask c.taskType ok'
          :: .progress s.p.addr (shownProgress s c 100) :: new) = if x = c.addr then 1 else 0 := by
      intro x
      have hx := hcomp x
      simp only [completions, List.countP_cons] at hx ⊢
      rw [hx]
      by_cases hx : x = c.addr
      · simp [hx]
      · simp [hx, Ne.symm hx]
    have hif : ∀ x, (if x = c.addr then 1 else 0) = if x = c.addr ∧
        d.busy = false then 1 else 0 := by
      simp [hdb]
    obtain ⟨honce, hothers⟩ := h.put_once hc hb hdaddr hdstate (fun x => (hnew x).trans (hif x))
    obtain ⟨_, hann', _, _, values, hvalues, hrising⟩ := h.running hp
    obtain ⟨_, _, hsum⟩ := h.progress hp hc hb hdaddr hdstate hshare
    refine ⟨_, hlog, ?_, hnew⟩
    constructor
    case distinct => rwa [hclients]
    case asked => rwa [hclients]
    case pending =>
      rw [hb, hdb, ← h.pending, h1] at hbusy
      rw [hclients, hpend]
      exact (Nat.add_right_cancel hbusy).symm
    case once => rwa [hclients, haddr]
    case others => rwa [hclients, haddr]
    case running => intro hne; exact absurd hpend hne
    case finished =>
      intro _
      refine ⟨htask, ?_, values ++ [shownProgress s c 100], ?_, ?_⟩
      · rw [haddr, announcements_append, hann']
        exact (Nat.zero_add _).trans hann
      · rw [haddr, readings_append, hvalues]
        have : readings s.p.addr (.taskCompleted s.p.addr c.addr c.pendingTask c.taskType ok'
            :: .progress s.p.addr (shownProgress s c 100) :: new)
            = shownProgress s c 100 :: readings s.p.addr new := by
          simp [readings]
        rw [this, hread]
        simp
      · rw [hshown]
        exact (hrising.concat (Nat.div_le_div_right hsum)).done
  · obtain ⟨htask, htot, hpend, hprog, ok', hlog⟩ := hmore h1
    have hnew : ∀ x, completions s.p.addr x
        [.taskCompleted s.p.addr c.addr c.pendingTask c.taskType ok',
          .progress s.p.addr (shownProgress s c 100)] = if x = c.addr then 1 else 0 := by
      intro x
      simp only [completions, List.countP_cons, List.countP_nil]
      by_cases hx : x = c.addr
      · simp [hx]
      · simp [hx, Ne.symm hx]
    refine ⟨_, hlog, ?_, hnew⟩
    refine h.moves_on hp hc hb hdaddr hnotbusy hdstate hshare ?_ rfl ?_ haddr hclients htask htot
      (by rw [hdshare]; exact hprog) ?_ ?_
    · intro x
      rw [hnew]
      simp [hdb]
    · rw [← hshown]
      simp [readings]
    · rw [hpend, hdb, Bool.toNat_false]
      omega
    · omega

/-! ## The beginning -/

theorem Client.ask_profile (n : Nat) (c : Client) : (c.ask n).profile = c.profile := by
  unfold Client.ask
  split <;> rfl

theorem projectSaveNotes_log (s : Session) : (projectSaveNotes s).2.g.log = s.g.log := by
  unfold projectSaveNotes
  dsimp only
  split
  · rfl
  · split <;> rfl

/-- `project_save` up to the question whether it is complete, if nobody has a task. -/
theorem projectSaveStart_round (h : ∀ c ∈ s.p.clients, c.pendingTask = 0) :
    let t := projectSaveStart s
    let total := s.p.stateful.length
    t.p.addr = s.p.addr ∧ t.p.clients = s.p.clients.map (Client.ask (s.g.taskIter + 1))
      ∧ t.p.taskType = (if total = 0 then .idle else .save) ∧ t.p.clientTasksTotal = total
      ∧ t.p.clientTasksPending = total ∧ t.p.clientTasksProgress = 0
      ∧ ∃ new, t.g.log = s.g.log ++ new ∧ (∀ x, completions s.p.addr x new = 0)
        ∧ announcements s.p.addr new = 0 ∧ readings s.p.addr new = [0] := by
  unfold projectSaveStart
  dsimp only
  generalize hu : Session.setFs _ _ = u
  have hup : u.p = s.p ∧ u.g.taskIter = s.g.taskIter ∧ u.g.log = s.g.log
      ++ [.saveBegun s.p.addr (s.p.stateful.map Client.addr), .progress s.p.addr 0] := by
    rw [← hu]
    exact ⟨rfl, rfl, by simp [Session.setFs, Session.emit, Globals.emit]⟩
  obtain ⟨hp, hiter, hlog⟩ := hup
  have hany : ¬ u.p.clients.any (fun c => c.pendingTask ≠ 0) = true := by
    rw [List.any_eq_true, hp]
    rintro ⟨c, hc, hpend⟩
    simp [h c hc] at hpend
  have hsave : projectSaveClients u = _ := if_neg hany
  have hnotes := projectSaveNotes_p (projectSaveClients u)
  have hnoteslog := projectSaveNotes_log (projectSaveClients u)
  generalize (projectSaveNotes (projectSaveClients u)).2 = w at hnotes hnoteslog ⊢
  have hclear : (projectClearLostClients w).p = { w.p with lostClients := [] } := rfl
  have hclearlog : (projectClearLostClients w).g.log = w.g.log := rfl
  rw [hsave, hp] at hnotes
  rw [hclear, hclearlog, hnotes, hnoteslog, ← hiter]
  refine ⟨rfl, rfl, rfl, rfl, rfl, rfl, [.saveBegun s.p.addr (s.p.stateful.map Client.addr),
    .progress s.p.addr 0, .save s.p.addr s.p.name (u.g.taskIter + 1)]
      ++ s.p.stateful.map (fun c => .taskGiven s.p.addr c.addr (u.g.taskIter + 1)), ?_, ?_⟩
  · rw [hsave]
    simp [Globals.emit, Globals.nextTask, hlog, hp]
  · simp [completions, announcements, readings, List.countP_map, List.filterMap_map,
      Function.comp_def]

theorem Client.ask_busy {n : Nat} {c : Client} (hn : n ≠ 0) (h : c.pendingTask = 0) :
    (c.ask n).busy = hasInternalState c.flags := by
  unfold Client.ask
  by_cases hs : hasInternalState c.flags = true
  · rw [if_pos hs, hs]
    simp [Client.busy, hn]
  · rw [if_neg hs, Bool.eq_false_iff.mpr hs]
    simp [Client.busy, h]

theorem Client.ask_flags (n : Nat) (c : Client) : (c.ask n).flags = c.flags := by
  unfold Client.ask
  split <;> rfl

theorem Client.ask_asked {n : Nat} {c : Client} (hs : hasInternalState c.flags = true) :
    (c.ask n).Asked n := by
  unfold Client.ask
  rw [if_pos hs]
  exact ⟨rfl, rfl, hs, Nat.zero_le _⟩

theorem Client.ask_share {n : Nat} {c : Client} (hn : n ≠ 0) (h : c.pendingTask = 0) :
    (c.ask n).share = 0 := by
  rw [Client.share, Client.ask_busy hn h, Client.ask_flags]
  by_cases hs : hasInternalState c.flags = true
  · rw [if_pos hs, if_pos hs, Client.ask, if_pos hs]
  · rw [if_neg hs]

/-- A save begins: everybody who has something to save is asked. -/
theorem Round.begins (hdist : (s.p.clients.map Client.addr).Nodup) (hidle : s.p.taskType = .idle)
    (h : ∀ c ∈ s.p.clients, c.pendingTask = 0) :
    ∃ new, (projectSave s).g.log = s.g.log ++ new ∧ Round (s.g.taskIter + 1) (projectSave s).p new
      ∧ (projectSave s).p.addr = s.p.addr
      ∧ (projectSave s).p.clients.map Client.profile = s.p.clients.map Client.profile
      ∧ ∀ c ∈ (projectSave s).p.clients, c.busy = hasInternalState c.flags := by
  have hn : s.g.taskIter + 1 ≠ 0 := Nat.succ_ne_zero _
  obtain ⟨haddr, hclients, htask, htotal, hpending, hprogress, new, hlog, hcomp, hann, hread⟩ :=
    projectSaveStart_round h
  have hsave : projectSave s = if (projectSaveStart s).p.clientTasksTotal = 0
      then projectClientsSaveComplete (projectSaveStart s) else projectSaveStart s := by
    unfold projectSave
    rw [if_neg (fun hne => hne hidle)]
  generalize projectSaveStart s = t at haddr hclients htask htotal hpending hprogress hlog hsave
  have hprofile : t.p.clients.map Client.profile = s.p.clients.map Client.profile := by
    rw [hclients, List.map_map]
    exact List.map_congr_left (fun c _ => Client.ask_profile _ c)
  have haddrs : t.p.clients.map Client.addr = s.p.clients.map Client.addr := by
    have := congrArg (List.map Prod.fst) hprofile
    rwa [List.map_map, List.map_map] at this
  have hmem : ∀ c ∈ t.p.clients, ∃ d ∈ s.p.clients, c = d.ask (s.g.taskIter + 1) := by
    intro c hc
    rw [hclients] at hc
    obtain ⟨d, hd, he⟩ := List.mem_map.mp hc
    exact ⟨d, hd, he.symm⟩
  have hstate : t.p.clients.countP Client.busy = s.p.stateful.length ∧
      t.p.clients.countP (fun c => hasInternalState c.flags) = s.p.stateful.length := by
    rw [hclients, List.countP_map, List.countP_map, Project.stateful,
      ← List.countP_eq_length_filter]
    constructor
    · apply List.countP_congr
      intro c hc
      rw [Function.comp, Client.ask_busy hn (h c hc)]
    · apply List.countP_congr
      intro c _
      rw [Function.comp, Client.ask_flags]
  have hasked : ∀ c ∈ t.p.clients, c.busy = true → c.Asked (s.g.taskIter + 1) := by
    intro c hc hb
    obtain ⟨d, hd, rfl⟩ := hmem c hc
    rw [Client.ask_busy hn (h d hd)] at hb
    exact Client.ask_asked hb
  have hbusy : ∀ c ∈ t.p.clients, c.busy = hasInternalState c.flags := by
    intro c hc
    obtain ⟨d, hd, rfl⟩ := hmem c hc
    rw [Client.ask_busy hn (h d hd), Client.ask_flags]
  have honce : ∀ c ∈ t.p.clients, ¬ (hasInternalState c.flags = true ∧ c.busy = false) := by
    rintro c hc ⟨hs, hb⟩
    rw [hbusy c hc, hs] at hb
    exact absurd hb (by decide)
  by_cases h0 : t.p.clientTasksTotal = 0
  · -- nobody has anything to save
    rw [if_pos h0] at hsave
    obtain ⟨haddr', hclients', htask', hpending', new', hlog', hcomp', hann', hread'⟩ :=
      projectClientsSaveComplete_spec t
    rw [← hsave] at haddr' hclients' htask' hpending' hlog'
    rw [haddr] at haddr' hcomp' hann' hread'
    rw [htotal] at h0
    refine ⟨new ++ new', by rw [hlog', hlog, List.append_assoc], ?_, haddr',
      by rw [hclients', hprofile], by rwa [hclients']⟩
    constructor
    case distinct => rwa [hclients', haddrs]
    case asked => rwa [hclients']
    case pending => rw [hpending', hpending, hclients', hstate.1]
    case once =>
      intro c hc
      rw [hclients'] at hc
      rw [haddr', if_neg (honce c hc), completions_append, hcomp, hcomp']
    case others =>
      intro x _
      rw [haddr', completions_append, hcomp, hcomp']
    case running =>
      intro hne
      exact absurd (hpending'.trans (hpending.trans h0)) hne
    case finished =>
      intro _
      refine ⟨by rw [htask', htask, if_pos h0], ?_, [], ?_, .nil _⟩
      · rw [haddr', announcements_append, hann, hann']
      · rw [haddr', readings_append, hread, hread']
  · rw [if_neg h0] at hsave
    rw [hsave]
    refine ⟨new, hlog, ?_, haddr, hprofile, hbusy⟩
    rw [htotal] at h0
    constructor
    case distinct => rwa [haddrs]
    case asked => exact hasked
    case pending => rw [hpending, hstate.1]
    case once =>
      intro c hc
      rw [haddr, if_neg (honce c hc), hcomp]
    case others =>
      intro x _
      rw [haddr, hcomp]
    case running =>
      intro _
      refine ⟨by rw [htask, if_neg h0], by rw [haddr, hann], by rw [htotal, hstate.2], ?_, [],
        by rw [haddr, hread], .nil _⟩
      rw [hprogress, hclients, List.map_map]
      have hzero : s.p.clients.map (Client.share ∘ Client.ask (s.g.taskIter + 1))
          = s.p.clients.map (fun _ => 0) :=
        List.map_congr_left (fun c hc => Client.ask_share hn (h c hc))
      rw [hzero]
      simp
    case finished => intro he; exact absurd (hpending.symm.trans he) h0

end

end Lash
