import Lash.Letters
import Lash.Lib.Reader
import Lash.Lib.Runs
import Lash.Liblash.Saves

/-!
# The daemon and the processes of its clients

`Network` puts the daemon together with any number of processes that use the client library, and the
bus between them. The bus delivers what one party sends in the order in which it was sent, and a
signal to those whose match rule is in place when it gets to it; of two parties whose messages are
on their way, either may be faster.

A process opens its client as `lash_client_open` does: it sends `Connect`, waits for the reply, adds
two match rules one after the other and then dispatches what the bus has for it. Only plain clients
are considered, and of the messages of the daemon those of `Event.isMail`.
-/

namespace Lash

/-! ## Messages -/

/-- What the daemon sends to the processes. -/
inductive Letter where
  /-- The signal `Save`. -/
  | save (project : DbusString) (task : Nat)
  /-- The signal `ProjectNameChanged`. -/
  | renamed (old new : DbusString)
  | load (dest : CStr) (task : Nat) (path : DbusString)
  | loadDataSet (dest : CStr) (task : Nat) (configs : List Entry)
  /-- The reply to `Connect`. -/
  | reply (dest : CStr) (r : ConnectReply)

/-- The process that a message is for, unless it is a signal. -/
def Letter.dest : Letter → Option CStr
  | .save .. | .renamed .. => none
  | .load dest .. | .loadDataSet dest .. | .reply dest _ => some dest

/-- The task that a message asks for. -/
def Letter.task : Letter → Option Nat
  | .save _ task | .load _ task _ | .loadDataSet _ task _ => some task
  | .renamed .. | .reply .. => none

def Letter.replyOf : Letter → Option ConnectReply
  | .reply _ r => some r
  | _ => none

/-- The message that is sent in an event, if the bus accepts its strings. -/
def Event.letter : Event → Option Letter
  | .save _ name task => (toDbusString name).map (fun n => .save n task)
  | .projectNameChanged _ old new => do
    some (.renamed (← toDbusString old) (← toDbusString new))
  | .load _ _ dest task path => (toDbusString path).map (fun p => .load dest task p)
  | .loadDataSet _ _ dest task configs => some (.loadDataSet dest task configs)
  | _ => none

/-- The reply to `Connect`, if the bus accepts its strings. -/
def Reply.connectReply : Reply → Option ConnectReply
  | .client id name project path flags wd => do
    some ⟨← toDbusString id, ← toDbusString name, ← toDbusString project, ← toDbusString path,
      flags, ← toDbusString wd⟩
  | _ => none

/-- The reply that a process waits for. -/
def Input.letter (r : Reply) : Input → Option Letter
  | .connect sender .. => r.connectReply.map (.reply sender)
  | _ => none

/-- The message in which a report travels. -/
def Report.input (sender : CStr) : Report → Input
  | .progress task x => .progress sender [.uint64 task, .byte x]
  | .commitDataSet task configs => .commitDataSet sender [.uint64 task, .array configs]

/-- A message that comes from the process of a client, or from the bus about one. -/
def Input.isOfClient : Input → Bool
  | .connect .. | .nameLost _ | .progress .. | .commitDataSet .. => true
  | _ => false

/-! ## Processes -/

/-- How far `lash_client_open` has got. -/
inductive Phase where
  /-- `Connect` was sent. -/
  | waiting
  | connected
  /-- The rule for the signals of the server interface is in place. -/
  | hearsServer
  /-- The client is open. -/
  | ready
  deriving DecidableEq

/-- A process, with what the bus has for it (`inbox`) and what it has sent (`outbox`). -/
structure Peer where
  alive : Bool
  oldApi : Bool
  phase : Phase
  app : App
  inbox : List Letter
  outbox : List Input

/-- The bus delivers a message to a process. -/
def Peer.hears (p : Peer) (n : CStr) : Letter → Bool
  | .save .. => p.phase = .hearsServer ∨ p.phase = .ready
  | .renamed .. => p.phase = .ready
  | .load dest .. | .loadDataSet dest .. | .reply dest _ => dest = n

/-- A new process that has sent `Connect`. -/
def Peer.start (oldApi : Bool) (flags : Flags) (wd : CStr) (connect : Input) : Peer where
  alive := true
  oldApi := oldApi
  phase := .waiting
  app := ⟨lashClientNew flags wd, none, none⟩
  inbox := []
  outbox := [connect]

/-- The bus tells the daemon when a process is gone. -/
def Peer.exit (p : Peer) (n : CStr) : Peer :=
  { p with alive := false, inbox := [], outbox := p.outbox ++ [.nameLost n] }

/-- A function of the library has returned. -/
def Peer.returns (p : Peer) (n : CStr) (r : Served) : Peer :=
  { p with app := r.rest, outbox := p.outbox ++ r.reports.map (Report.input n) }

/-- The client gets its reply; what came before it stays in the queue. -/
def Peer.handleReply (p : Peer) : Option Peer :=
  (p.inbox.findSome? Letter.replyOf).map (fun r => { p with
    phase := .connected
    app.client := lashClientOpen p.app.client.flags p.app.client.workingDir (some r)
    inbox := p.inbox.eraseP (fun l => l.replyOf.isSome) })

/-- The next match rule is in place. -/
def Phase.addMatch : Phase → Option Phase
  | .connected => some .hearsServer
  | .hearsServer => some .ready
  | .waiting | .ready => none

/-- A message is dispatched. -/
def App.dispatch (env : SavesEnv) (p : App) : Letter → Option Served
  | .save name task =>
    lashServerSignalHandler env p ⟨cstr "Save", [.string name, .uint64 task]⟩
  | .renamed old new =>
    (lashDbusSignalHandler env.toLiblashEnv p.client
      (ControlSignal.projectNameChanged old new).message).map (fun c => (p.setClient c).served)
  | .load _ task path => p.answers (lashDbusLoad env.toLiblashEnv) (loadCall task path)
  | .loadDataSet _ task configs =>
    p.answers (lashDbusLoadDataSet env.toLiblashEnv) (loadDataSetCall task configs)
  | .reply .. => some p.served

/-! ## The system -/

/-- `wire` is what the daemon has sent and the bus has not delivered. -/
structure Network where
  server : Server
  wire : List Letter
  peers : CStr → Option Peer

/-- What happens next. -/
inductive Turn where
  /-- A process opens a client; `id` is what the daemon's `uuid_generate` will make. -/
  | start (n : CStr) (oldApi : Bool) (pid : Int) (cls : CStr) (flags : Flags) (wd : CStr)
      (argv : List CStr) (id : Uuid)
  /-- The daemon handles the next message of a process. -/
  | serve (n : CStr)
  /-- The daemon handles something else. -/
  | control (i : Input)
  /-- The bus delivers the next message of the daemon. -/
  | route
  | handleReply (n : CStr)
  | addMatch (n : CStr)
  | dispatch (n : CStr) (env : SavesEnv)
  | call (n : CStr) (a : AppCall)
  | exit (n : CStr)

namespace Network

def setPeer (w : Network) (n : CStr) (p : Peer) : Network :=
  { w with peers := Function.update w.peers n (some p) }

/-- The daemon handles an input. -/
def handle (w : Network) (i : Input) : Option Network :=
  (w.server.handle i).map (fun (s, r) => { w with
    server := s
    wire := w.wire ++ ((w.server.news s).filterMap Event.letter ++ (i.letter r).toList) })

/-- The bus delivers a message. -/
def deliver (w : Network) (l : Letter) (rest : List Letter) : Network :=
  { w with
    wire := rest
    peers := fun n => (w.peers n).map (fun p =>
      if p.alive && p.hears n l then { p with inbox := p.inbox ++ [l] } else p) }

def step (w : Network) : Turn → Option Network
  | .start n oldApi pid cls flags wd argv id =>
    if (w.peers n).isSome then none
    else some (w.setPeer n (.start oldApi flags wd (.connect n pid cls flags wd argv id)))
  | .serve n =>
    match w.peers n with
    | none => none
    | some p =>
      match p.outbox with
      | [] => none
      | i :: rest => (w.setPeer n { p with outbox := rest }).handle i
  | .control i => if i.isOfClient then none else w.handle i
  | .route =>
    match w.wire with
    | [] => none
    | l :: rest => some (w.deliver l rest)
  | .handleReply n =>
    match w.peers n with
    | none => none
    | some p =>
      if p.alive ∧ p.phase = .waiting then p.handleReply.map (w.setPeer n) else none
  | .addMatch n =>
    match w.peers n with
    | none => none
    | some p =>
      if p.alive then p.phase.addMatch.map (fun phase => w.setPeer n { p with phase := phase })
      else none
  | .dispatch n env =>
    match w.peers n with
    | none => none
    | some p =>
      match p.inbox with
      | [] => none
      | l :: rest =>
        if p.alive ∧ p.phase = .ready ∧ env.oldApi = p.oldApi then
          match p.app.dispatch env l with
          | none => some (w.setPeer n (p.exit n))
          | some r => some (w.setPeer n ({ p with inbox := rest }.returns n r))
        else none
  | .call n a =>
    match w.peers n with
    | none => none
    | some p =>
      if p.alive ∧ p.phase = .ready ∧ (a.isOld → p.oldApi) then
        some (w.setPeer n (p.returns n (p.app.call a)))
      else none
  | .exit n =>
    match w.peers n with
    | none => none
    | some p => if p.alive then some (w.setPeer n (p.exit n)) else none

/-- What the daemon handles in a turn. -/
def input (w : Network) : Turn → Option Input
  | .serve n => (w.peers n).bind (fun p => p.outbox.head?)
  | .control i => some i
  | _ => none

/-- The daemon has just started. -/
def start (fs : Fs) (dir : CStr) : Network where
  server := Server.start fs dir
  wire := []
  peers := fun _ => none

/-- What a turn does, with all that it needs. -/
inductive Step (w : Network) : Turn → Network → Prop
  | start {n oldApi pid cls flags wd argv id} (hp : w.peers n = none) :
      Step w (.start n oldApi pid cls flags wd argv id)
        (w.setPeer n (.start oldApi flags wd (.connect n pid cls flags wd argv id)))
  | serve {n p i rest w'} (hp : w.peers n = some p) (hout : p.outbox = i :: rest)
      (h : (w.setPeer n { p with outbox := rest }).handle i = some w') : Step w (.serve n) w'
  | control {i w'} (hi : i.isOfClient = false) (h : w.handle i = some w') : Step w (.control i) w'
  | route {l rest} (hwire : w.wire = l :: rest) : Step w .route (w.deliver l rest)
  | handleReply {n p p'} (hp : w.peers n = some p) (halive : p.alive = true)
      (hphase : p.phase = .waiting) (h : p.handleReply = some p') :
      Step w (.handleReply n) (w.setPeer n p')
  | addMatch {n p phase} (hp : w.peers n = some p) (halive : p.alive = true)
      (h : p.phase.addMatch = some phase) :
      Step w (.addMatch n) (w.setPeer n { p with phase := phase })
  | dispatch {n env p l rest r} (hp : w.peers n = some p) (hin : p.inbox = l :: rest)
      (halive : p.alive = true) (hready : p.phase = .ready) (h : p.app.dispatch env l = some r) :
      Step w (.dispatch n env) (w.setPeer n ({ p with inbox := rest }.returns n r))
  /-- The application ends the process. -/
  | ended {n env p l rest} (hp : w.peers n = some p) (hin : p.inbox = l :: rest)
      (h : p.app.dispatch env l = none) : Step w (.dispatch n env) (w.setPeer n (p.exit n))
  | call {n a p} (hp : w.peers n = some p) (halive : p.alive = true) (hready : p.phase = .ready) :
      Step w (.call n a) (w.setPeer n (p.returns n (p.app.call a)))
  | exit {n p} (hp : w.peers n = some p) : Step w (.exit n) (w.setPeer n (p.exit n))

theorem step_cases {w w' : Network} {t : Turn} (h : w.step t = some w') : w.Step t w' := by
  cases t with
  | start n oldApi pid cls flags wd argv id =>
      simp only [step] at h
      split at h
      · exact absurd h (by simp)
      · next hnone =>
          rw [← Option.some.inj h]
          exact .start (by simpa using hnone)
  | serve n =>
      simp only [step] at h
      split at h
      · exact absurd h (by simp)
      · next p hp =>
          split at h
          · exact absurd h (by simp)
          · next i rest hout => exact .serve hp hout h
  | control i =>
      simp only [step] at h
      split at h
      · exact absurd h (by simp)
      · next hi => exact .control (by simpa using hi) h
  | route =>
      simp only [step] at h
      split at h
      · exact absurd h (by simp)
      · next l rest hwire =>
          rw [← Option.some.inj h]
          exact .route hwire
  | handleReply n =>
      simp only [step] at h
      split at h
      · exact absurd h (by simp)
      · next p hp =>
          split at h
          · next hcond =>
              obtain ⟨p', hp', rfl⟩ := Option.map_eq_some_iff.mp h
              exact .handleReply hp hcond.1 hcond.2 hp'
          · exact absurd h (by simp)
  | addMatch n =>
      simp only [step] at h
      split at h
      · exact absurd h (by simp)
      · next p hp =>
          split at h
          · next halive =>
              obtain ⟨phase, hphase, rfl⟩ := Option.map_eq_some_iff.mp h
              exact .addMatch hp halive hphase
          · exact absurd h (by simp)
  | dispatch n env =>
      simp only [step] at h
      split at h
      · exact absurd h (by simp)
      · next p hp =>
          split at h
          · exact absurd h (by simp)
          · next l rest hin =>
              split at h
              · next hcond =>
                  obtain ⟨halive, hready, -⟩ := hcond
                  split at h
                  · next hnone =>
                      rw [← Option.some.inj h]
                      exact .ended hp hin hnone
                  · next r hr =>
                      rw [← Option.some.inj h]
                      exact .dispatch hp hin halive hready hr
              · exact absurd h (by simp)
  | call n a =>
      simp only [step] at h
      split at h
      · exact absurd h (by simp)
      · next p hp =>
          split at h
          · next hcond =>
              rw [← Option.some.inj h]
              exact .call hp hcond.1 hcond.2.1
          · exact absurd h (by simp)
  | exit n =>
      simp only [step] at h
      split at h
      · exact absurd h (by simp)
      · next p hp =>
          split at h
          · rw [← Option.some.inj h]
            exact .exit hp
          · exact absurd h (by simp)

end Network

end Lash
