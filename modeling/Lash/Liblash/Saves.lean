import Lash.Liblash.Config
import Lash.Liblash.Methods
import Lash.Liblash.Signals
import Mathlib.Data.Bool.Basic

/-!
# The client library: saves and the old API

`lash_server_signal_handler` of `liblash/lash.c` with the task of saving a data set, and what an
application calls by itself: the functions that set callbacks, `lash_notify_progress`, and the
functions of the old API, which hands out events and gets them back (`liblash/lash.c`,
`liblash/event.c`).

Of the messages that the library sends to the daemon only those about tasks are kept, `Progress` and
`CommitDataSet`.
-/

namespace Lash

/-! ## Processes -/

/-- The types of events. -/
inductive LashEventType where
  | unknown
  | clientName
  | jackClientName
  | alsaClientId
  | saveFile
  | restoreFile
  | saveDataSet
  | restoreDataSet
  | save
  | quit
  | serverLost
  | projectAdd
  | projectRemove
  | projectDir
  | projectName
  | clientAdd
  | clientRemove
  | percentage
  deriving DecidableEq

/-- `LASHEventConstructor`: the functions behind events that an application may send. -/
inductive LashEventConstructor where
  | clientName
  | jackClientName
  | alsaClientId
  | taskDone
  | saveDataSet
  | save
  | quit
  deriving DecidableEq

/-- `g_lash_event_ctors` -/
def lashEventCtors : LashEventType → Option LashEventConstructor
  | .clientName => some .clientName
  | .jackClientName => some .jackClientName
  | .alsaClientId => some .alsaClientId
  | .saveFile | .restoreFile | .restoreDataSet => some .taskDone
  | .saveDataSet => some .saveDataSet
  | .save => some .save
  | .quit => some .quit
  | _ => none

/-- An event that the application sends: `lash_event_set_alsa_client_id` changes the type and
leaves the constructor. -/
structure SentEvent where
  type : LashEventType
  ctor : Option LashEventConstructor
  deriving DecidableEq

/-- `lash_event_new_with_type` -/
def lashEventNewWithType (type : LashEventType) : SentEvent := ⟨type, lashEventCtors type⟩

def LashEvent.type : LashEvent → LashEventType
  | .saveFile _ => .saveFile
  | .restoreFile _ => .restoreFile
  | .saveDataSet => .saveDataSet
  | .restoreDataSet => .restoreDataSet
  | .quit => .quit

/-- A `CommitDataSet` call: the task and the configs in its array. -/
structure DataSetCall where
  task : Nat
  configs : List ArrayElem

/-- A process with a client. `unsent` is `unsent_configs` of the client, with its array still open,
`pendingEvent` is `g_pending_event`. -/
structure App where
  client : LashClient
  unsent : Option DataSetCall
  pendingEvent : Option SentEvent

/-- A call to the daemon that is about a task. -/
inductive Report where
  | progress (task : Nat) (x : UInt8)
  | commitDataSet (task : Nat) (configs : List ArrayElem)

def SentCall.report : SentCall → Option Report
  | .progress task x => some (.progress task x)
  | .waitForSave | .commitPathChange => none

/-- What is left of a process after some function of the library, and the data set that the function
sent last. -/
abbrev Served := App × Option DataSetCall

namespace App

def setClient (p : App) (c : LashClient) : App := { p with client := c }

/-- Nothing was sent but what is in `sent` of the client. -/
def served (p : App) : Served := (p, none)

end App

namespace Served

/-- What was sent, in order. -/
def reports (r : Served) : List Report :=
  r.1.client.api.sent.filterMap SentCall.report ++
    r.2.toList.map (fun d => .commitDataSet d.task d.configs)

/-- The process after its messages have left. -/
def rest (r : Served) : App := { r.1 with client.api.sent := [] }

end Served

/-! ## Saving -/

/-- What else an application decides: a callback that writes a data set. -/
structure SavesEnv extends LiblashEnv where
  saveDataSet : FunPtr → LashClient → Option (Bool × List Entry × ClientApi)

/-- `lash_new_save_data_set_task`. In the old API the call that is made up is that of the client;
the callback's is sent or dropped at the end. -/
def lashNewSaveDataSetTask (env : SavesEnv) (p : App) (task : Nat) : Option Served :=
  let c := p.client.beginTask task
  match c.api.cb.saveDataSet with
  | some f =>
    match env.saveDataSet f c with
    | none => none
    | some (ok, entries, api) =>
      let c := c.withApi api
      if ok then
        some ({ p with client := c.setPendingTask 0, unsent := none },
          some ⟨task, entries.map Entry.elem⟩)
      else
        some ({ p with
          client := (reportSuccessOrFailure c false).setPendingTask 0, unsent := none }, none)
  | none =>
    if env.oldApi then
      some ({ p with client := c.addEvent .saveDataSet, unsent := some ⟨task, []⟩ }, none)
    else some ((p.setClient ((reportSuccessOrFailure c false).setPendingTask 0)).served)

/-- `lash_server_signal_handler` -/
def lashServerSignalHandler (env : SavesEnv) (p : App) (m : SignalMessage) : Option Served :=
  if m.member = cstr "Save" then
    match m.args with
    | .string project :: .uint64 task :: _ =>
      if p.client.projectName ≠ some project.1 then some p.served
      else if p.client.api.pendingTask ≠ 0 then some p.served
      else if configDataSet p.client.flags then lashNewSaveDataSetTask env p task
      else if configFile p.client.flags then
        (lashNewSaveTask env.toLiblashEnv p.client task).map (fun c => (p.setClient c).served)
      else some p.served
    | _ => some p.served
  else if m.member = cstr "Quit" then
    match m.args with
    | .string project :: _ =>
      if p.client.projectName ≠ none ∧ p.client.projectName ≠ some project.1 then some p.served
      else (lashNewQuitTask env.toLiblashEnv p.client).map (fun c => (p.setClient c).served)
    | _ => some p.served
  else some p.served

/-! ## Loading -/

/-- The call `Load`. -/
def loadCall (task : Nat) (path : DbusString) : CallMessage where
  sender := none
  interface := some (cstr "org.nongnu.LASH.Client")
  member := cstr "Load"
  signature := cstr "ts"
  args := [.uint64 task, .string path]

/-- The call `LoadDataSet`. -/
def loadDataSetCall (task : Nat) (configs : List Entry) : CallMessage where
  sender := none
  interface := some (cstr "org.nongnu.LASH.Client")
  member := cstr "LoadDataSet"
  signature := cstr "ta{sv}"
  args := [.uint64 task, .array (configs.map Entry.elem)]

/-- A method is called: the process goes on unless the application ended it. -/
def App.answers (p : App) (handler : Handler LashClient) (m : CallMessage) :
    Option Served :=
  match handler (.fresh p.client m) with
  | .ok call => some (p.setClient call.state).served
  | .error _ => none

/-! ## Callbacks -/

/-- The functions that set a callback, for a client that is not NULL. -/
def lashSetCallback (c : LashClient) (f : Option FunPtr) (set : Callbacks → Callbacks) :
    Bool × LashClient :=
  if f = none then (false, c)
  else if ¬ c.serverConnected then (false, c)
  else (true, { c with api.cb := set c.api.cb })

def lashSetSaveCallback (c : LashClient) (f : Option FunPtr) : Bool × LashClient :=
  lashSetCallback c f (fun cb => { cb with save := f })

def lashSetLoadCallback (c : LashClient) (f : Option FunPtr) : Bool × LashClient :=
  lashSetCallback c f (fun cb => { cb with load := f })

def lashSetSaveDataSetCallback (c : LashClient) (f : Option FunPtr) : Bool × LashClient :=
  lashSetCallback c f (fun cb => { cb with saveDataSet := f })

def lashSetLoadDataSetCallback (c : LashClient) (f : Option FunPtr) : Bool × LashClient :=
  lashSetCallback c f (fun cb => { cb with loadDataSet := f })

def lashSetQuitCallback (c : LashClient) (f : Option FunPtr) : Bool × LashClient :=
  lashSetCallback c f (fun cb => { cb with quit := f })

def lashSetNameChangeCallback (c : LashClient) (f : Option FunPtr) : Bool × LashClient :=
  lashSetCallback c f (fun cb => { cb with name := f })

def lashSetProjectChangeCallback (c : LashClient) (f : Option FunPtr) : Bool × LashClient :=
  lashSetCallback c f (fun cb => { cb with proj := f })

def lashSetPathChangeCallback (c : LashClient) (f : Option FunPtr) : Bool × LashClient :=
  lashSetCallback c f (fun cb => { cb with path := f })

/-- `lash_set_control_callback`, which a controller calls that is not connected to the server. -/
def lashSetControlCallback (c : LashClient) (f : Option FunPtr) : Bool × LashClient :=
  if f = none then (false, c) else (true, { c with api.cb.control := f })

inductive CallbackKind where
  | save
  | load
  | saveDataSet
  | loadDataSet
  | quit
  | name
  | proj
  | path
  | control
  deriving DecidableEq

/-- The function that sets a callback. -/
def CallbackKind.setter : CallbackKind → LashClient → Option FunPtr → Bool × LashClient
  | .save => lashSetSaveCallback
  | .load => lashSetLoadCallback
  | .saveDataSet => lashSetSaveDataSetCallback
  | .loadDataSet => lashSetLoadDataSetCallback
  | .quit => lashSetQuitCallback
  | .name => lashSetNameChangeCallback
  | .proj => lashSetProjectChangeCallback
  | .path => lashSetPathChangeCallback
  | .control => lashSetControlCallback

/-! ## Progress -/

/-- `lash_notify_progress` -/
def lashNotifyProgress (c : LashClient) (percentage : UInt8) : LashClient :=
  if c.api.pendingTask = 0 ∨ percentage = 0 then c
  else c.send (.progress c.api.pendingTask (if percentage > 99 then 99 else percentage))

/-! ## The old API -/

/-- `_lash_task_done` -/
def lashTaskDone (p : App) : Served :=
  if p.client.api.pendingTask = 0 then p.served
  else (p.setClient
    ((p.client.send (.progress p.client.api.pendingTask 255)).setPendingTask 0)).served

/-- `_lash_save_data_set` -/
def lashSaveDataSet (p : App) : Served :=
  if p.client.api.pendingTask = 0 then p.served
  else ({ p with client := p.client.setPendingTask 0, unsent := none }, p.unsent)

/-- The constructor of an event is called: those that are not about tasks send other messages. -/
def LashEventConstructor.call : LashEventConstructor → App → Served
  | .taskDone, p => lashTaskDone p
  | .saveDataSet, p => lashSaveDataSet p
  | .clientName, p | .jackClientName, p | .alsaClientId, p | .save, p | .quit, p => p.served

/-- `lash_send_event`, for a client and an event that are not NULL. -/
def lashSendEvent (p : App) (e : SentEvent) : Served :=
  let p := if p.pendingEvent.any (fun x => x.type = e.type) then { p with pendingEvent := none }
    else p
  if p.client.serverConnected then
    match e.ctor with
    | none => p.served
    | some ctor => ctor.call p
  else p.served

/-- `lash_handle_pending_event`: the last event is sent back if the application did not. -/
def lashHandlePendingEvent (p : App) : Served :=
  match p.pendingEvent with
  | none => p.served
  | some e => lashSendEvent p e

/-- An event that says that there is a task. -/
def LashEventType.isTask : LashEventType → Bool
  | .saveFile | .restoreFile | .saveDataSet | .restoreDataSet => true
  | _ => false

/-- `lash_get_event` after it has dispatched: the event that is handed out. -/
def lashTakeEvent (p : App) : Option LashEvent × App :=
  match p.client.api.eventsIn with
  | [] => (none, p)
  | e :: es =>
    let p := { p with client.api.eventsIn := es }
    (some e, if e.type.isTask then { p with pendingEvent := some (lashEventNewWithType e.type) }
      else p)

/-- `lash_get_config` after it has dispatched. -/
def lashTakeConfig (p : App) : Option LashConfig × App :=
  match p.client.api.configsIn with
  | [] => (none, p)
  | g :: gs => (some g, { p with client.api.configsIn := gs })

/-- `lash_send_config`: a config that cannot be written is dropped. -/
def lashSendConfig (p : App) (g : LashConfig) : App :=
  match p.unsent with
  | none => p
  | some d =>
    match lashConfigWriteRaw ⟨false, d.configs⟩ g.key g.value with
    | none => p
    | some handle => { p with unsent := some { d with configs := handle.iter } }

/-- What an application does through the library, without dispatching. -/
inductive AppCall where
  | setCallback (kind : CallbackKind) (f : Option FunPtr)
  | notifyProgress (percentage : UInt8)
  /-- The beginning of `lash_get_event` and `lash_get_pending_event_count`. -/
  | handlePendingEvent
  /-- The end of `lash_get_event`. -/
  | takeEvent
  | takeConfig
  | sendEvent (e : SentEvent)
  | sendConfig (g : LashConfig)

/-- A call of the old API. -/
def AppCall.isOld : AppCall → Bool
  | .setCallback .. | .notifyProgress _ => false
  | _ => true

def App.call (p : App) : AppCall → Served
  | .setCallback kind f => (p.setClient (kind.setter p.client f).2).served
  | .notifyProgress x => (p.setClient (lashNotifyProgress p.client x)).served
  | .handlePendingEvent => lashHandlePendingEvent p
  | .takeEvent => (lashTakeEvent p).2.served
  | .takeConfig => (lashTakeConfig p).2.served
  | .sendEvent e => lashSendEvent p e
  | .sendConfig g => (lashSendConfig p g).served

/-! ## What becomes of a task -/

/-- A client has something to save if it has a data set or a file. -/
theorem hasInternalState_eq (f : Flags) :
    hasInternalState f = (configDataSet f || configFile f) := by
  rw [Bool.eq_iff_iff, Bool.or_eq_true]
  unfold hasInternalState configDataSet configFile
  rw [BitVec.and_or_distrib_left]
  simp only [bne_iff_ne, ne_eq]
  rw [BitVec.ofNat_eq_ofNat, BitVec.or_eq_zero_iff, not_and_or]

/-- The task that a call ends. -/
def Report.ends : Report → Option Nat
  | .progress task x => if x = 0 ∨ x = 255 then some task else none
  | .commitDataSet task _ => some task

namespace LashClient

/-- The task that a client is at. -/
def working (c : LashClient) : List Nat :=
  if c.api.pendingTask = 0 then [] else [c.api.pendingTask]

/-- The tasks whose end the client has reported. -/
def ended (c : LashClient) : List Nat :=
  c.api.sent.filterMap (fun m => m.report.bind Report.ends)

/-- A callback came back with the task it was called at, and reported no more than progress. -/
def Plain (c : LashClient) (api : ClientApi) : Prop :=
  api.pendingTask = c.api.pendingTask ∧
    ∃ more, api.sent = c.api.sent ++ more ∧ ∀ m ∈ more, m.report.bind Report.ends = none

end LashClient

/-- The callbacks of an application neither end their task nor start another; a data set that they
write is not empty. -/
structure SavesEnv.Plain (env : SavesEnv) : Prop where
  event : ∀ f c r, env.event f c = some r → c.Plain r.2
  config : ∀ f elems c r, env.config f elems c = some r → c.Plain r.2
  saveDataSet : ∀ f c r, env.saveDataSet f c = some r → c.Plain r.2.2 ∧ r.2.1 ≠ []

/-- The tasks that a process is at or has just ended. -/
def Served.tasks (r : Served) : List Nat :=
  r.1.client.working ++ (r.1.client.ended ++ r.2.toList.map DataSetCall.task)

theorem Served.tasks_eq (r : Served) :
    r.tasks = r.rest.client.working ++ r.reports.filterMap Report.ends := by
  have hsent : ∀ l : List SentCall, (l.filterMap SentCall.report).filterMap Report.ends =
      l.filterMap (fun m => m.report.bind Report.ends) := fun l => List.filterMap_filterMap
  unfold Served.tasks Served.reports Served.rest LashClient.ended
  rw [List.filterMap_append, hsent]
  cases r.2 <;> rfl

section

variable {env : SavesEnv} {c c' : LashClient} {p : App} {r : Served} {task : Nat}

theorem LashClient.working_of_ne (h : c.api.pendingTask ≠ 0) :
    c.working = [c.api.pendingTask] := if_neg h

theorem LashClient.working_of_eq (h : c.api.pendingTask = 0) : c.working = [] := if_pos h

/-- What decides which messages are meant for a client has not changed. -/
def LashClient.SameEars (c c' : LashClient) : Prop :=
  c'.projectName = c.projectName ∧ c'.flags = c.flags ∧ c'.isController = c.isController

theorem LashClient.SameEars.trans {c c' c'' : LashClient} (h : c.SameEars c')
    (h' : c'.SameEars c'') : c.SameEars c'' :=
  ⟨h'.1.trans h.1, h'.2.1.trans h.2.1, h'.2.2.trans h.2.2⟩

/-- A task is reported when the callback is back. -/
theorem reportSuccessOrFailure_ends (hc : c.api.pendingTask = task) (htask : task ≠ 0)
    {api : ClientApi} (hapi : c.Plain api) (ok : Bool) :
    ((reportSuccessOrFailure (c.withApi api) ok).setPendingTask 0).working = [] ∧
      ((reportSuccessOrFailure (c.withApi api) ok).setPendingTask 0).ended =
        c.ended ++ [task] := by
  obtain ⟨hpend, more, hsent, hmore⟩ := hapi
  refine ⟨rfl, ?_⟩
  have hne : ¬ (c.withApi api).api.pendingTask = 0 := by
    show ¬ api.pendingTask = 0
    rw [hpend, hc]
    exact htask
  unfold reportSuccessOrFailure
  rw [if_neg hne]
  show (api.sent ++ [_]).filterMap (fun m : SentCall => m.report.bind Report.ends) = _
  have hnone : more.filterMap (fun m => m.report.bind Report.ends) = [] :=
    List.filterMap_eq_nil_iff.mpr hmore
  have hlast : ((SentCall.progress api.pendingTask (if ok then 255 else 0)).report).bind
      Report.ends = some task := by
    show (if _ then some api.pendingTask else none) = _
    rw [hpend, hc]
    cases ok <;> rfl
  rw [hsent, List.filterMap_append, List.filterMap_append, hnone, List.append_nil]
  congr 1
  exact List.filterMap_cons_some hlast

theorem taskCalled_spec (hc : c.api.pendingTask = task) (htask : task ≠ 0)
    {res : Option (Bool × ClientApi)} (hres : ∀ r, res = some r → c.Plain r.2)
    (h : taskCalled c res = some c') :
    c'.working = [] ∧ c'.ended = c.ended ++ [task] ∧ c.SameEars c' := by
  cases res with
  | none => exact absurd h (by simp [taskCalled])
  | some r =>
      obtain ⟨ok, api⟩ := r
      cases Option.some.inj h
      obtain ⟨hwork, hended⟩ := reportSuccessOrFailure_ends hc htask (hres _ rfl) ok
      refine ⟨hwork, hended, ?_⟩
      unfold reportSuccessOrFailure
      split <;> exact ⟨rfl, rfl, rfl⟩

/-- A process is between two messages: what it sent is away, and a call that it made up is for a
data set. -/
structure App.Sound (p : App) : Prop where
  sent : p.client.api.sent = []
  unsent : p.unsent ≠ none → configDataSet p.client.flags = true

/-- What a function made of a process: the tasks it is at or has ended are `ts`, it has the same
project, and no data set is sent that the daemon has no store for. -/
structure Served.Good (p : App) (r : Served) (ts : List Nat) : Prop where
  tasks : r.tasks = ts
  ears : p.client.SameEars r.1.client
  unsent : r.1.unsent ≠ none → configDataSet p.client.flags = true
  commit : ∀ d ∈ r.2, d.configs ≠ [] ∧ configDataSet p.client.flags = true

/-- A function that is about the client only. -/
theorem App.Sound.good (hp : p.Sound) {ts : List Nat} (htasks : c.working ++ c.ended = ts)
    (hears : p.client.SameEars c) : (p.setClient c).served.Good p ts where
  tasks := by
    show c.working ++ (c.ended ++ []) = ts
    rw [List.append_nil, htasks]
  ears := hears
  unsent := hp.unsent
  commit := fun d hd => absurd hd (by simp [App.served])

/-- Nothing happens. -/
theorem App.Sound.idle (hp : p.Sound) : p.served.Good p p.client.working := by
  refine hp.good (c := p.client) ?_ ⟨rfl, rfl, rfl⟩
  unfold LashClient.ended
  rw [hp.sent]
  exact List.append_nil _

theorem LashClient.ended_of_sent (h : c.api.sent = []) : c.ended = [] := by
  unfold LashClient.ended
  rw [h]
  rfl

theorem lashNewSaveTask_good (hp : p.Sound) (henv : env.Plain) (htask : task ≠ 0)
    (h : lashNewSaveTask env.toLiblashEnv p.client task = some c') :
    (p.setClient c').served.Good p [task] := by
  have hended : (p.client.beginTask task).ended = [] := LashClient.ended_of_sent hp.sent
  unfold lashNewSaveTask at h
  dsimp only at h
  split at h
  · obtain ⟨hwork, hend, hears⟩ := taskCalled_spec rfl htask (henv.event _ _) h
    refine hp.good ?_ hears
    rw [hwork, hend, hended]
    rfl
  · rw [← Option.some.inj h]
    split
    · refine hp.good ?_ ⟨rfl, rfl, rfl⟩
      show LashClient.working (p.client.beginTask task) ++ (p.client.beginTask task).ended = _
      rw [hended, LashClient.working_of_ne htask]
      rfl
    · refine hp.good ?_ ⟨rfl, rfl, rfl⟩
      rw [hended, LashClient.working_of_ne htask]
      rfl

theorem lashNewSaveDataSetTask_good (hp : p.Sound) (henv : env.Plain) (htask : task ≠ 0)
    (hset : configDataSet p.client.flags = true)
    (h : lashNewSaveDataSetTask env p task = some r) : r.Good p [task] := by
  have hended : (p.client.beginTask task).ended = [] := LashClient.ended_of_sent hp.sent
  unfold lashNewSaveDataSetTask at h
  dsimp only at h
  split at h
  · split at h
    · exact absurd h (by simp)
    · next ok entries api hcall =>
        obtain ⟨hplain, hne⟩ := henv.saveDataSet _ _ _ hcall
        split at h
        · rw [← Option.some.inj h]
          refine ⟨?_, ⟨rfl, rfl, rfl⟩, fun h => absurd rfl h, ?_⟩
          · obtain ⟨-, more, hsent, hmore⟩ := hplain
            have hnone : LashClient.ended (((p.client.beginTask task).withApi api).setPendingTask 0)
                = [] := by
              show api.sent.filterMap _ = []
              rw [hsent, List.filterMap_append, List.filterMap_eq_nil_iff.mpr hmore,
                List.append_nil]
              exact hended
            show [] ++ (LashClient.ended _ ++ [task]) = [task]
            rw [hnone]
            rfl
          · intro d hd
            rw [← Option.some.inj hd]
            exact ⟨by simpa using hne, hset⟩
        · rw [← Option.some.inj h]
          obtain ⟨hwork, hend⟩ := reportSuccessOrFailure_ends (c := p.client.beginTask task) rfl
            htask hplain false
          refine ⟨?_, ?_, fun h => absurd rfl h, fun d hd => absurd hd (by simp)⟩
          · show LashClient.working _ ++ (LashClient.ended _ ++ []) = [task]
            rw [hwork, hend, hended]
            rfl
          · unfold reportSuccessOrFailure
            split <;> exact ⟨rfl, rfl, rfl⟩
  · split at h
    · rw [← Option.some.inj h]
      refine ⟨?_, ⟨rfl, rfl, rfl⟩, fun _ => hset, fun d hd => absurd hd (by simp)⟩
      show LashClient.working (p.client.beginTask task) ++
        ((p.client.beginTask task).ended ++ []) = [task]
      rw [hended, LashClient.working_of_ne htask]
      rfl
    · rw [← Option.some.inj h]
      have hplain : (p.client.beginTask task).Plain (p.client.beginTask task).api :=
        ⟨rfl, [], (List.append_nil _).symm, fun m hm => absurd hm List.not_mem_nil⟩
      obtain ⟨hwork, hend⟩ := reportSuccessOrFailure_ends (c := p.client.beginTask task) rfl
        htask hplain false
      refine hp.good ?_ ?_
      · rw [show (p.client.beginTask task).withApi (p.client.beginTask task).api =
          p.client.beginTask task from rfl] at hwork hend
        rw [hwork, hend, hended]
        rfl
      · unfold reportSuccessOrFailure
        split <;> exact ⟨rfl, rfl, rfl⟩

/-- **What a client makes of a `Save` signal** that finds it without a task: the task is taken up if
it is meant for the client. -/
theorem lashServerSignalHandler_good (hp : p.Sound) (henv : env.Plain) {name : DbusString}
    (hfree : p.client.projectName = some name.1 → hasInternalState p.client.flags = true →
      p.client.api.pendingTask = 0 ∧ task ≠ 0)
    (h : lashServerSignalHandler env p ⟨cstr "Save", [.string name, .uint64 task]⟩ = some r) :
    r.Good p (if p.client.projectName = some name.1 ∧ hasInternalState p.client.flags = true
      then [task] else p.client.working) := by
  unfold lashServerSignalHandler at h
  rw [if_pos rfl] at h
  dsimp only at h
  by_cases hname : p.client.projectName = some name.1
  · rw [if_neg (not_not.mpr hname)] at h
    by_cases hstate : hasInternalState p.client.flags = true
    · obtain ⟨hpend, htask⟩ := hfree hname hstate
      rw [if_neg (not_not.mpr hpend)] at h
      rw [if_pos ⟨hname, hstate⟩]
      split at h
      · next hset => exact lashNewSaveDataSetTask_good hp henv htask hset h
      · next hset =>
          split at h
          · obtain ⟨c, hc, rfl⟩ := Option.map_eq_some_iff.mp h
            exact lashNewSaveTask_good hp henv htask hc
          · next hfile =>
              rw [hasInternalState_eq, Bool.or_eq_true] at hstate
              exact absurd hstate (not_or.mpr ⟨hset, hfile⟩)
    · rw [if_neg (fun hboth => hstate hboth.2)]
      rw [hasInternalState_eq, Bool.or_eq_true, not_or] at hstate
      rw [if_neg hstate.1, if_neg hstate.2, ite_self] at h
      rw [← Option.some.inj h]
      exact hp.idle
  · rw [if_pos hname] at h
    rw [if_neg (fun hboth => hname hboth.1), ← Option.some.inj h]
    exact hp.idle

/-- `Load` for a client without a task. -/
theorem answers_load (hfree : p.client.api.pendingTask = 0) (path : DbusString) :
    p.answers (lashDbusLoad env.toLiblashEnv) (loadCall task path) =
      let c := { p.client with dataPath := some path.1 }.beginTask task
      match p.client.api.cb.load with
      | some f => (taskCalled c (env.event f c)).map (fun c => (p.setClient c).served)
      | none => some (p.setClient (if env.oldApi then c.addEvent (.restoreFile c.dataPath)
          else c.setPendingTask 0)).served := by
  have hid : getTaskId (.fresh p.client (loadCall task path)) = .ok (task, [.string path]) := by
    show (if p.client.api.pendingTask ≠ 0 then _ else _) = _
    rw [if_neg (not_not.mpr hfree)]
  unfold App.answers lashDbusLoad
  rw [hid]
  unfold MethodCall.fresh
  dsimp only
  have hcb : (({ p.client with dataPath := some path.1 }).beginTask task).api.cb.load =
      p.client.api.cb.load := rfl
  rw [hcb]
  cases p.client.api.cb.load with
  | some f =>
      dsimp only
      cases taskCalled _ _ <;> rfl
  | none =>
      dsimp only
      cases env.oldApi <;> rfl

/-- `LoadDataSet` for a client without a task. -/
theorem answers_loadDataSet (hfree : p.client.api.pendingTask = 0) (configs : List Entry) :
    p.answers (lashDbusLoadDataSet env.toLiblashEnv) (loadDataSetCall task configs) =
      let c := p.client.beginTask task
      match p.client.api.cb.loadDataSet with
      | some f => (taskCalled c (env.config f (configs.map Entry.elem) c)).map
          (fun c => (p.setClient c).served)
      | none => some (p.setClient (if env.oldApi then
            (readConfigs (c.addEvent .restoreDataSet) (configs.map Entry.elem)).2
          else c.setPendingTask 0)).served := by
  have hid : getTaskId (.fresh p.client (loadDataSetCall task configs)) =
      .ok (task, [.array (configs.map Entry.elem)]) := by
    show (if p.client.api.pendingTask ≠ 0 then _ else _) = _
    rw [if_neg (not_not.mpr hfree)]
  unfold App.answers lashDbusLoadDataSet
  rw [hid]
  unfold MethodCall.fresh
  dsimp only [List.head?_cons, Option.bind_some, Value.elems]
  have hcb : (p.client.beginTask task).api.cb.loadDataSet = p.client.api.cb.loadDataSet := rfl
  rw [hcb]
  cases p.client.api.cb.loadDataSet with
  | some f =>
      dsimp only
      cases taskCalled _ _ <;> rfl
  | none =>
      dsimp only
      cases env.oldApi with
      | false => rfl
      | true =>
          rw [if_pos rfl, if_pos rfl]
          generalize readConfigs _ _ = res
          obtain ⟨ok, c⟩ := res
          cases ok <;> rfl

/-- Reading configs has nothing to do with tasks. -/
theorem readConfigs_same (c : LashClient) (elems : List ArrayElem) :
    (readConfigs c elems).2.api.pendingTask = c.api.pendingTask ∧
      (readConfigs c elems).2.api.sent = c.api.sent ∧ c.SameEars (readConfigs c elems).2 := by
  induction elems generalizing c with
  | nil => exact ⟨rfl, rfl, rfl, rfl, rfl⟩
  | cons elem elems ih =>
      rw [readConfigs]
      split
      · exact ⟨rfl, rfl, rfl, rfl, rfl⟩
      · split
        · exact ⟨rfl, rfl, rfl, rfl, rfl⟩
        · exact ih _

/-- A client that is at a task and has sent nothing. -/
theorem App.Sound.begun (hp : p.Sound) (htask : task ≠ 0) (hpend : c.api.pendingTask = task)
    (hsent : c.api.sent = p.client.api.sent) (hears : p.client.SameEars c) :
    (p.setClient c).served.Good p [task] := by
  refine hp.good ?_ hears
  rw [LashClient.ended_of_sent (hsent.trans hp.sent), LashClient.working_of_ne (hpend ▸ htask),
    hpend]
  rfl

/-- A callback was called for a task that has just begun. -/
theorem App.Sound.called (hp : p.Sound) (htask : task ≠ 0) (hpend : c.api.pendingTask = task)
    (hsent : c.api.sent = p.client.api.sent) (hears : p.client.SameEars c)
    {res : Option (Bool × ClientApi)} (hres : ∀ r, res = some r → c.Plain r.2)
    (h : (taskCalled c res).map (fun c => (p.setClient c).served) = some r) :
    r.Good p [task] := by
  obtain ⟨d, hd, rfl⟩ := Option.map_eq_some_iff.mp h
  obtain ⟨hwork, hend, hsame⟩ := taskCalled_spec hpend htask hres hd
  refine hp.good ?_ (hears.trans hsame)
  rw [hwork, hend, LashClient.ended_of_sent (hsent.trans hp.sent)]
  rfl

/-- **A client that can load takes up the task** of a `Load` call that finds it without one. -/
theorem lashDbusLoad_good (hp : p.Sound) (henv : env.Plain) (htask : task ≠ 0)
    (hfree : p.client.api.pendingTask = 0)
    (hload : p.client.api.cb.load ≠ none ∨ env.oldApi = true) {path : DbusString}
    (h : p.answers (lashDbusLoad env.toLiblashEnv) (loadCall task path) = some r) :
    r.Good p [task] := by
  rw [answers_load hfree] at h
  dsimp only at h
  split at h
  · refine hp.called htask ?_ ?_ ?_ (henv.event _ _) h
    · rfl
    · rfl
    · exact ⟨rfl, rfl, rfl⟩
  · next hnone =>
      rw [if_pos (hload.resolve_left (not_not.mpr hnone))] at h
      rw [← Option.some.inj h]
      exact hp.begun htask rfl rfl ⟨rfl, rfl, rfl⟩

theorem lashDbusLoadDataSet_good (hp : p.Sound) (henv : env.Plain) (htask : task ≠ 0)
    (hfree : p.client.api.pendingTask = 0)
    (hload : p.client.api.cb.loadDataSet ≠ none ∨ env.oldApi = true) {configs : List Entry}
    (h : p.answers (lashDbusLoadDataSet env.toLiblashEnv) (loadDataSetCall task configs) =
      some r) : r.Good p [task] := by
  rw [answers_loadDataSet hfree] at h
  dsimp only at h
  split at h
  · refine hp.called htask ?_ ?_ ?_ (henv.config _ _ _) h
    · rfl
    · rfl
    · exact ⟨rfl, rfl, rfl⟩
  · next hnone =>
      rw [if_pos (hload.resolve_left (not_not.mpr hnone))] at h
      rw [← Option.some.inj h]
      obtain ⟨hpend, hsent, hears⟩ := readConfigs_same
        ((p.client.beginTask task).addEvent .restoreDataSet) (configs.map Entry.elem)
      exact hp.begun htask hpend hsent hears

/-- A new name of a project has nothing to do with tasks. -/
theorem lashProjectNameChangedHandler_tasks (hp : p.Sound) (henv : env.Plain) {m : SignalMessage}
    (h : lashProjectNameChangedHandler env.toLiblashEnv p.client m = some c) :
    c.working ++ c.ended = p.client.working ∧ c.flags = p.client.flags ∧
      c.isController = p.client.isController := by
  have hsame : p.client.working ++ p.client.ended = p.client.working := by
    rw [LashClient.ended_of_sent hp.sent, List.append_nil]
  unfold lashProjectNameChangedHandler at h
  split at h
  · rw [← Option.some.inj h]
    exact ⟨hsame, rfl, rfl⟩
  · split at h
    · unfold notify at h
      split at h
      · rw [← Option.some.inj h]
        exact ⟨hsame, rfl, rfl⟩
      · obtain ⟨res, hres, rfl⟩ := Option.map_eq_some_iff.mp h
        obtain ⟨hpend, more, hsent, hmore⟩ := henv.event _ _ _ hres
        refine ⟨?_, rfl, rfl⟩
        have hended : LashClient.ended (p.client.withApi res.2) = [] := by
          show res.2.sent.filterMap _ = []
          rw [hsent, List.filterMap_append, List.filterMap_eq_nil_iff.mpr hmore, List.append_nil]
          exact LashClient.ended_of_sent hp.sent
        have hwork : LashClient.working (p.client.withApi res.2) = p.client.working := by
          unfold LashClient.working
          show (if res.2.pendingTask = 0 then _ else [res.2.pendingTask]) = _
          rw [hpend]
        exact (congrArg₂ (· ++ ·) hwork hended).trans (List.append_nil _)
    · rw [← Option.some.inj h]
      exact ⟨hsame, rfl, rfl⟩

end

/-! ## What an application does -/

/-- The constructor that is called when an event is sent. -/
def AppCall.sends (p : App) : AppCall → Option LashEventConstructor
  | .sendEvent e => e.ctor
  | .handlePendingEvent => p.pendingEvent.bind SentEvent.ctor
  | _ => none

/-- Who sends back that a data set is complete was asked for it and has written something. -/
def AppCall.Fits (p : App) (a : AppCall) : Prop :=
  a.sends p = some .saveDataSet → p.client.api.pendingTask ≠ 0 →
    ∃ d ∈ p.unsent, d.task = p.client.api.pendingTask ∧ d.configs ≠ []

instance (p : App) (a : AppCall) : Decidable (a.Fits p) :=
  inferInstanceAs (Decidable (_ → _ → ∃ d ∈ p.unsent, _))

section

variable {p : App}

theorem lashTaskDone_good (hp : p.Sound) : (lashTaskDone p).Good p p.client.working := by
  unfold lashTaskDone
  split
  · exact hp.idle
  · next hpend =>
      refine hp.good ?_ ⟨rfl, rfl, rfl⟩
      rw [LashClient.working_of_ne hpend]
      show [] ++ (p.client.api.sent ++ [_]).filterMap
        (fun m : SentCall => m.report.bind Report.ends) = _
      rw [hp.sent]
      rfl

theorem lashSaveDataSet_good (hp : p.Sound) (hfit : p.client.api.pendingTask ≠ 0 →
    ∃ d ∈ p.unsent, d.task = p.client.api.pendingTask ∧ d.configs ≠ []) :
    (lashSaveDataSet p).Good p p.client.working := by
  unfold lashSaveDataSet
  split
  · exact hp.idle
  · next hpend =>
      obtain ⟨d, hd, htask, hne⟩ := hfit hpend
      have hunsent : p.unsent = some d := hd
      refine ⟨?_, ⟨rfl, rfl, rfl⟩, fun h => absurd rfl h, ?_⟩
      · rw [LashClient.working_of_ne hpend, ← htask]
        show [] ++ (LashClient.ended (p.client.setPendingTask 0) ++
          p.unsent.toList.map DataSetCall.task) = _
        rw [LashClient.ended_of_sent (c := p.client.setPendingTask 0) hp.sent, hunsent]
        rfl
      · intro x hx
        have hxd : x = d := Option.some.inj (Eq.symm hx |>.trans hunsent)
        rw [hxd]
        refine ⟨hne, hp.unsent ?_⟩
        rw [hunsent]
        exact Option.some_ne_none d

/-- To send an event back ends the task that the process is at, if it is an event about a task. -/
theorem lashSendEvent_good (hp : p.Sound) {e : SentEvent} (hfit : (AppCall.sendEvent e).Fits p) :
    (lashSendEvent p e).Good p p.client.working := by
  unfold lashSendEvent
  dsimp only
  generalize hq : (if p.pendingEvent.any (fun x => x.type = e.type) then
    { p with pendingEvent := none } else p) = q
  have hsame : q.client = p.client ∧ q.unsent = p.unsent := by
    rw [← hq]
    split <;> exact ⟨rfl, rfl⟩
  obtain ⟨hclient, hunsent⟩ := hsame
  have hsound : q.Sound := ⟨hclient ▸ hp.sent, by rw [hclient, hunsent]; exact hp.unsent⟩
  have hback : ∀ {r : Served}, r.Good q q.client.working → r.Good p p.client.working := by
    intro r hr
    obtain ⟨htasks, hears, hun, hcommit⟩ := hr
    rw [hclient] at htasks hears hun hcommit
    exact ⟨htasks, hears, hun, hcommit⟩
  split
  · split
    · exact hback hsound.idle
    · next ctor hctor =>
        cases ctor with
        | taskDone => exact hback (lashTaskDone_good hsound)
        | saveDataSet =>
            refine hback (lashSaveDataSet_good hsound ?_)
            rw [hclient, hunsent]
            exact hfit hctor
        | clientName | jackClientName | alsaClientId | save | quit => exact hback hsound.idle
  · exact hback hsound.idle

/-- Progress on the way is no end. -/
theorem lashNotifyProgress_ended (c : LashClient) (x : UInt8) :
    (lashNotifyProgress c x).ended = c.ended := by
  unfold lashNotifyProgress
  split
  · rfl
  · next hnot =>
      have hx : ¬ x = 0 := fun h => hnot (Or.inr h)
      have hends : (SentCall.progress c.api.pendingTask (if x > 99 then 99 else x)).report.bind
          Report.ends = none := by
        show (if _ then some _ else none) = none
        refine if_neg ?_
        split
        · decide
        · next hle =>
            rintro (hzero | hmax)
            · exact hx hzero
            · exact hle (hmax ▸ (by decide))
      show (c.api.sent ++ [_]).filterMap (fun m : SentCall => m.report.bind Report.ends) = _
      rw [List.filterMap_append]
      refine Eq.trans (congrArg _ ?_) (List.append_nil _)
      exact List.filterMap_cons_none hends

/-- Nothing changes that is about tasks. -/
theorem App.Sound.same (hp : p.Sound) {q : App}
    (hpend : q.client.api.pendingTask = p.client.api.pendingTask) (hended : q.client.ended = [])
    (hears : p.client.SameEars q.client) (hunsent : q.unsent ≠ none → p.unsent ≠ none) :
    q.served.Good p p.client.working where
  tasks := by
    show q.client.working ++ (q.client.ended ++ []) = _
    rw [hended, List.append_nil]
    show LashClient.working _ ++ [] = _
    rw [List.append_nil]
    unfold LashClient.working
    rw [hpend]
  ears := hears
  unsent := fun h => hp.unsent (hunsent h)
  commit := fun d hd => absurd hd (by simp [App.served])

/-- **What an application does** may end the task that the process is at, and does nothing else to
the tasks. -/
theorem App.call_good (hp : p.Sound) {a : AppCall} (hfit : a.Fits p) :
    (p.call a).Good p p.client.working := by
  have hnone := LashClient.ended_of_sent hp.sent
  cases a with
  | setCallback kind f =>
      have hset : ∀ set : Callbacks → Callbacks,
          (p.setClient (lashSetCallback p.client f set).2).served.Good p p.client.working := by
        intro set
        unfold lashSetCallback
        split_ifs <;> exact hp.same rfl hnone ⟨rfl, rfl, rfl⟩ id
      show (p.setClient (kind.setter p.client f).2).served.Good p p.client.working
      cases kind with
      | control =>
          show (p.setClient (lashSetControlCallback p.client f).2).served.Good p p.client.working
          unfold lashSetControlCallback
          split <;> exact hp.same rfl hnone ⟨rfl, rfl, rfl⟩ id
      | save | load | saveDataSet | loadDataSet | quit | name | proj | path => exact hset _
  | notifyProgress x =>
      have hsame : (lashNotifyProgress p.client x).api.pendingTask = p.client.api.pendingTask ∧
          p.client.SameEars (lashNotifyProgress p.client x) := by
        unfold lashNotifyProgress
        split <;> exact ⟨rfl, rfl, rfl, rfl⟩
      exact hp.same hsame.1 ((lashNotifyProgress_ended p.client x).trans hnone) hsame.2 id
  | handlePendingEvent =>
      show (lashHandlePendingEvent p).Good p p.client.working
      unfold lashHandlePendingEvent
      split
      · exact hp.idle
      · next e he =>
          apply lashSendEvent_good hp
          intro hctor
          apply hfit
          show p.pendingEvent.bind SentEvent.ctor = _
          rw [he]
          exact hctor
  | takeEvent =>
      show (lashTakeEvent p).2.served.Good p p.client.working
      unfold lashTakeEvent
      split
      · exact hp.idle
      · dsimp only
        split <;> exact hp.same rfl hnone ⟨rfl, rfl, rfl⟩ id
  | takeConfig =>
      show (lashTakeConfig p).2.served.Good p p.client.working
      unfold lashTakeConfig
      split
      · exact hp.idle
      · exact hp.same rfl hnone ⟨rfl, rfl, rfl⟩ id
  | sendEvent e => exact lashSendEvent_good hp hfit
  | sendConfig g =>
      show (lashSendConfig p g).served.Good p p.client.working
      unfold lashSendConfig
      split
      · exact hp.idle
      · next d hd =>
          split
          · exact hp.idle
          · refine hp.same rfl hnone ⟨rfl, rfl, rfl⟩ ?_
            intro _
            rw [hd]
            exact Option.some_ne_none d

end

end Lash
