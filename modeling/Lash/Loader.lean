import Lash.OutputLog
import Lash.Server
import Lash.Lib.Keyed

/-!
# The loader and its children

`lashd/loader.c` among the processes that it forks. The main thread executes programs, reads what
they have written and buries those that are dead; the handler of `SIGCHLD` runs between any two of
its steps. A child writes when it likes, and terminates when it likes.

Every step is what one thread does without being interrupted: a change of the list, a system call
with what is done about its result. `none` is a step that cannot be made in a state, or a fault.
-/

namespace Lash

namespace Loader

/-! ## The state -/

/-- An output of a child: the fields of `struct loader_child` for it, the bytes that are waiting to
be read, all the bytes that the child has written, and what was logged about them. -/
structure Pipe where
  output : ChildOutput
  unread : List UInt8
  written : List UInt8
  notes : List Note

def Pipe.new : Pipe where
  output := .new
  unread := []
  written := []
  notes := []

/-- An element of `g_childs_list`. The key stands for its address, and of its outputs `true` is the
standard error. -/
structure Entry where
  key : Nat
  child : Child
  pipe : Bool → Pipe

/-- A process, with the key of the entry that it was forked for. -/
structure Process where
  key : Nat
  pid : Int
  terminated : Bool
  deriving DecidableEq

/-- What the main thread is doing. The lists are the entries that a loop has still to visit. -/
inductive Stage where
  /-- Something else. -/
  | idle
  /-- `loader_execute`, in front of the call of `fork` -/
  | forking (key : Nat)
  /-- `loader_execute`, with the result of `fork` in a local variable -/
  | storing (key : Nat) (pid : Int)
  /-- `loader_read_childs_output` -/
  | visiting (todo : List Nat)
  /-- `loader_read_child_output`, in front of a call of `read` -/
  | reading (key : Nat) (error : Bool) (todo : List Nat)
  /-- `loader_childs_bury` -/
  | burying (todo : List Nat)
  deriving DecidableEq

structure State where
  /-- `g_childs_list` -/
  entries : List Entry
  /-- The processes that the handler has not reaped. -/
  processes : List Process
  stage : Stage
  nextKey : Nat
  /-- The processes that it has reaped. -/
  reaped : List Process
  /-- The entries that were buried, as they were then. -/
  buried : List Entry
  /-- The pids of the clients that `client_disconnected` was called for. -/
  disconnected : List Int

def State.start : State where
  entries := []
  processes := []
  stage := .idle
  nextKey := 0
  reaped := []
  buried := []
  disconnected := []

/-- The entry at an address. -/
def State.entry (s : State) (key : Nat) : Option Entry := s.entries.find? (fun e => e.key = key)

/-- Write an entry back. -/
def State.put (s : State) (e : Entry) : State :=
  { s with entries := Keyed.put Entry.key e s.entries }

/-! ## The main thread -/

namespace State

variable (s : State)

/-- `loader_execute` up to the call of `fork` -/
def execute (id : Uuid) (project argv0 : CStr) (terminal : Bool) : Option State :=
  match s.stage with
  | .idle =>
    let child : Child := { id, project, argv0, dead := false, pid := 0, terminal }
    some { s with
      entries := s.entries ++ [{ key := s.nextKey, child, pipe := fun _ => .new }]
      stage := .forking s.nextKey
      nextKey := s.nextKey + 1 }
  | _ => none

/-- `fork` or `forkpty`. No process has the new pid, running or terminated. If there is no new
process the entry stays in the list as it is. -/
def fork (pid : Int) : Option State :=
  match s.stage with
  | .forking key =>
    if pid = -1 then some { s with stage := .idle }
    else if 0 < pid ∧ ∀ p ∈ s.processes, p.pid ≠ pid then
      some { s with
        processes := s.processes ++ [{ key, pid, terminated := false }]
        stage := .storing key pid }
    else none
  | _ => none

/-- `child_ptr->pid = pid` -/
def store : Option State :=
  match s.stage with
  | .storing key pid =>
    (s.entry key).map (fun e =>
      { s.put { e with child := { e.child with pid } } with stage := .idle })
  | _ => none

/-- `loader_read_childs_output` is called. -/
def readChilds : Option State :=
  match s.stage with
  | .idle => some { s with stage := .visiting (s.entries.map Entry.key) }
  | _ => none

/-- The loop of `loader_read_childs_output`: an entry is looked at. -/
def visit : Option State :=
  match s.stage with
  | .visiting [] => some { s with stage := .idle }
  | .visiting (key :: todo) =>
    (s.entry key).map (fun e =>
      { s with stage :=
          if !e.child.dead && !e.child.terminal then .reading key false todo else .visiting todo })
  | _ => none

end State

/-- One round of `loader_read_child_output`, and whether there is another one. The `read` gives at
most so many bytes or, for `none`, it fails. -/
def Pipe.readOnce (pipe : Pipe) (grant : Option Nat) : Except MemoryFault (Pipe × Bool) := do
  let file : ReadEnd := { bytes := pipe.unread, grants := fun _ => grant }
  let a := file.read pipe.output.maxRead
  let (output, notes) ← pipe.output.receive a
  .ok ({ pipe with output, unread := a.file.bytes, notes := pipe.notes ++ notes },
    toSize a.ret = pipe.output.maxRead)

/-- `loader_check_line_repeat_end`, when a child is buried -/
def Pipe.close (pipe : Pipe) : Pipe :=
  { pipe with notes := pipe.notes ++ loaderCheckLineRepeatEnd pipe.output.lastLineRepeatCount }

def Entry.setPipe (e : Entry) (error : Bool) (pipe : Pipe) : Entry :=
  { e with pipe := Function.update e.pipe error pipe }

@[simp] theorem Entry.setPipe_self (e : Entry) (error : Bool) (pipe : Pipe) :
    (e.setPipe error pipe).pipe error = pipe := by
  unfold Entry.setPipe
  exact Function.update_self error pipe e.pipe

theorem Entry.setPipe_ne (e : Entry) {error error' : Bool} (h : error' ≠ error) (pipe : Pipe) :
    (e.setPipe error pipe).pipe error' = e.pipe error' := by
  unfold Entry.setPipe
  exact Function.update_of_ne h pipe e.pipe

namespace State

variable (s : State)

/-- `loader_read_child_output`, from a `read` to the next. The standard output comes first. -/
def read (grant : Option Nat) : Option State :=
  match s.stage with
  | .reading key error todo =>
    (s.entry key).bind fun e =>
      match (e.pipe error).readOnce grant with
      | .error _ => none
      | .ok (pipe, again) =>
        some { s.put (e.setPipe error pipe) with stage :=
          if again then s.stage else if error then .visiting todo else .reading key true todo }
  | _ => none

/-- `loader_childs_bury` is called. -/
def buryChilds : Option State :=
  match s.stage with
  | .idle => some { s with stage := .burying (s.entries.map Entry.key) }
  | _ => none

/-- The loop of `loader_childs_bury`: an entry is looked at. -/
def bury : Option State :=
  match s.stage with
  | .burying [] => some { s with stage := .idle }
  | .burying (key :: todo) =>
    (s.entry key).map fun e =>
      if e.child.dead then
        { s with
          entries := Keyed.del Entry.key key s.entries
          stage := .burying todo
          buried := s.buried ++ [{ e with pipe := fun error => (e.pipe error).close }]
          disconnected := s.disconnected ++ [e.child.pid] }
      else { s with stage := .burying todo }
  | _ => none

/-! ## The children and the handler -/

/-- A child that runs in no terminal writes to one of its outputs. -/
def write (key : Nat) (error : Bool) (bytes : List UInt8) : Option State :=
  if ∃ p ∈ s.processes, p.key = key ∧ p.terminated = false then
    (s.entry key).bind fun e =>
      if e.child.terminal then none
      else
        let pipe := e.pipe error
        some (s.put (e.setPipe error { pipe with
          unread := pipe.unread ++ bytes, written := pipe.written ++ bytes }))
  else none

/-- A child terminates. -/
def exit (key : Nat) : Option State :=
  if ∃ p ∈ s.processes, p.key = key ∧ p.terminated = false then
    some { s with processes :=
      s.processes.map (fun p => if p.key = key then { p with terminated := true } else p) }
  else none

end State

/-- `child_ptr->dead = true` -/
def Entry.die (e : Entry) : Entry := { e with child := { e.child with dead := true } }

namespace State

variable (s : State)

/-- `loader_child_find_and_mark_dead`: the first entry with the pid. -/
def findAndMarkDead (pid : Int) : State :=
  match s.entries.find? (fun e => e.child.pid = pid) with
  | none => s
  | some e => s.put e.die

/-- One round of `loader_sigchld_handler`: `waitpid` reaps a child that has terminated. -/
def reap (key : Nat) : Option State :=
  (s.processes.find? (fun p => p.key = key && p.terminated)).map fun p =>
    let s := { s with processes := s.processes.filter (fun q => q.key ≠ key) }
    { s.findAndMarkDead p.pid with reaped := s.reaped ++ [p] }

end State

/-! ## Steps -/

inductive Act where
  | execute (id : Uuid) (project argv0 : CStr) (terminal : Bool)
  | fork (pid : Int)
  | store
  | readChilds
  | visit
  | read (grant : Option Nat)
  | buryChilds
  | bury
  | write (key : Nat) (error : Bool) (bytes : List UInt8)
  | exit (key : Nat)
  | reap (key : Nat)

def step (s : State) : Act → Option State
  | .execute id project argv0 terminal => s.execute id project argv0 terminal
  | .fork pid => s.fork pid
  | .store => s.store
  | .readChilds => s.readChilds
  | .visit => s.visit
  | .read grant => s.read grant
  | .buryChilds => s.buryChilds
  | .bury => s.bury
  | .write key error bytes => s.write key error bytes
  | .exit key => s.exit key
  | .reap key => s.reap key

/-! ## The parts that are modelled elsewhere -/

/-- A call of `loader_read_child_output` is a round, and the rest of the call if there is one. -/
theorem loaderReadChildOutput_succ (fuel : Nat) (pipe : Pipe) (hnotes : pipe.notes = [])
    (grants : Nat → Option Nat) :
    loaderReadChildOutput (fuel + 1) pipe.output ⟨pipe.unread, grants⟩ =
      (pipe.readOnce (grants 0)).bind (fun r =>
        let a := (ReadEnd.mk pipe.unread grants).read pipe.output.maxRead
        if r.2 then
          (loaderReadChildOutput fuel r.1.output ⟨r.1.unread, fun i => grants (i + 1)⟩).map
            (fun res => { res with
              notes := r.1.notes ++ res.notes, reads := (pipe.output.maxRead, a.ret) :: res.reads })
        else
          .ok ⟨r.1.output, ⟨r.1.unread, fun i => grants (i + 1)⟩, r.1.notes,
            [(pipe.output.maxRead, a.ret)]⟩) := by
  have hread : ∀ max, (ReadEnd.mk pipe.unread grants).read max =
      { (ReadEnd.mk pipe.unread (fun _ => grants 0)).read max with
        file := ⟨((ReadEnd.mk pipe.unread (fun _ => grants 0)).read max).file.bytes,
          fun i => grants (i + 1)⟩ } := by
    intro max
    unfold ReadEnd.read
    dsimp only
    cases grants 0 <;> rfl
  rw [loaderReadChildOutput, hread]
  unfold Pipe.readOnce
  dsimp only [bind, Except.bind]
  generalize (ReadEnd.mk pipe.unread (fun _ => grants 0)).read pipe.output.maxRead = a
  have hreceive : pipe.output.receive { a with file := ⟨a.file.bytes, fun i => grants (i + 1)⟩ } =
      pipe.output.receive a := rfl
  rw [hreceive]
  cases pipe.output.receive a with
  | error fault => rfl
  | ok r =>
      rw [hnotes]
      by_cases hfull : toSize a.ret = pipe.output.maxRead
      · simp only [hfull, if_true, decide_true, List.nil_append]
        cases loaderReadChildOutput fuel r.1 ⟨a.file.bytes, fun i => grants (i + 1)⟩ <;> rfl
      · simp only [hfull, if_false, decide_false, List.nil_append]
        rfl

/-- The handler does to the list what the daemon's model does to its own. -/
theorem findAndMarkDead_children (s : State) (pid : Int)
    (hkeys : (s.entries.map Entry.key).Nodup) :
    (s.findAndMarkDead pid).entries.map Entry.child =
      Server.markDead pid (s.entries.map Entry.child) := by
  unfold State.findAndMarkDead State.put
  obtain ⟨entries⟩ := s
  dsimp only at hkeys ⊢
  induction entries with
  | nil => rfl
  | cons e es ih =>
      rw [List.map_cons, List.nodup_cons] at hkeys
      rw [List.find?_cons, List.map_cons, Server.markDead]
      by_cases hpid : e.child.pid = pid
      · rw [decide_eq_true hpid, if_pos hpid]
        -- no other entry is at the address of the first
        have hothers : Keyed.put Entry.key e.die es = es := Keyed.put_of_not_mem hkeys.1
        have hput : Keyed.put Entry.key e.die (e :: es) = e.die :: es :=
          congrArg₂ List.cons (if_pos rfl) hothers
        dsimp only
        rw [hput]
        rfl
      · rw [decide_eq_false hpid, if_neg hpid]
        have hrest := ih hkeys.2
        dsimp only
        generalize hfind : es.find? (fun e => e.child.pid = pid) = found at hrest ⊢
        cases found with
        | none =>
            rw [← hrest]
            rfl
        | some d =>
            rw [← hrest]
            have hd : d.key ∈ es.map Entry.key :=
              List.mem_map_of_mem (List.mem_of_find?_eq_some hfind)
            have hne : e.key ≠ d.die.key := fun heq => hkeys.1 (heq ▸ hd)
            dsimp only
            unfold Keyed.put
            rw [List.map_cons, if_neg hne]
            rfl

end Loader

end Lash
