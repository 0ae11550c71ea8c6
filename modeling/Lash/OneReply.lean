import Lash.Operations
import Lash.Liblash.Methods

/-!
# Replies to a call

How many replies a method call gets. The methods of the daemon leave the reply to
`object_path_handler`, so a call gets one if the process lives to send it. `Save`, `Load`,
`LoadDataSet` and `Quit` of the client library send a void return before they call the
application, and `interface_default_handler`, which finds `call->reply` NULL afterwards, makes
another one.
-/

namespace Lash

/-! ## The daemon -/

/-- **A call to the daemon** gets one reply exactly if the daemon survives what the call asks for.
-/
theorem lashd_one_reply_iff (env : LashdEnv) (introspection : DbusString) (l : Lashd)
    (m : CallMessage) :
    (repliesTo (lashdPath env introspection) l m).length = 1 ↔
      ((l.inputs env m).foldlM Server.step l.server).isSome = true := by
  rw [lashdPath_eq]
  have hhandler := handlerFor_tablePath introspection (lashdOperations env) m
  unfold Lashd.inputs
  cases hfor : describedFor (lashdOperations env) m with
  | none =>
      rw [hfor] at hhandler
      have hone := repliesTo_of_none (s := l) hhandler
      simpa using hone
  | some x =>
      rw [hfor] at hhandler
      have hreplies := repliesTo_of_some (s := l) hhandler
      have hperform := operations_perform env hfor (.fresh l m)
      cases hres : x.handler (.fresh l m) with
      | error sent =>
          rw [hres] at hreplies hperform
          obtain ⟨hnone, hsent⟩ := hperform
          dsimp only at hreplies ⊢
          rw [hreplies, hsent]
          have hnone' : (x.description l m).foldlM Server.step l.server = none := hnone
          simp [hnone', MethodCall.fresh]
      | ok call =>
          rw [hres] at hreplies hperform
          obtain ⟨hsome, hsent⟩ := hperform
          obtain ⟨r, hr⟩ := hreplies
          dsimp only
          rw [hr, hsent]
          have hsome' : (x.description l m).foldlM Server.step l.server = some call.state.server :=
            hsome
          simp [hsome', MethodCall.fresh]

/-! ## The client library -/

/-- What a client does about a call: whether it replies before it calls the application, and what
the callback does, if there is one to call. -/
structure Reaction where
  early : Bool
  callback : Option (Option (Bool × ClientApi))

/-- The process ends in the callback. -/
def Reaction.ends (r : Reaction) : Bool := r.callback.any Option.isNone

/-- Reply with an error or do nothing. -/
def Reaction.none : Reaction := ⟨false, Option.none⟩

/-- The task of a call that the client takes, and the arguments after it. -/
def LashClient.takesTask (c : LashClient) (m : CallMessage) : Option (Nat × List Value) :=
  match m.args with
  | .uint64 task :: args => if c.api.pendingTask ≠ 0 then Option.none else some (task, args)
  | _ => Option.none

abbrev Reactions := LashClient → CallMessage → Reaction

def saveReaction (env : LiblashEnv) : Reactions := fun c m =>
  match c.takesTask m with
  | none => .none
  | some (task, _) => ⟨true, c.api.cb.save.map (fun f => env.event f (c.beginTask task))⟩

def loadReaction (env : LiblashEnv) : Reactions := fun c m =>
  match c.takesTask m with
  | some (task, .string path :: _) =>
    ⟨c.api.cb.load.isSome, c.api.cb.load.map
      (fun f => env.event f ({ c with dataPath := some path.1 }.beginTask task))⟩
  | _ => .none

def loadDataSetReaction (env : LiblashEnv) : Reactions := fun c m =>
  match c.takesTask m with
  | none => .none
  | some (task, args) =>
    match args.head?.bind Value.elems with
    | none => .none
    | some elems => ⟨c.api.cb.loadDataSet.isSome, c.api.cb.loadDataSet.map
        (fun f => env.config f elems (c.beginTask task))⟩

def quitReaction (env : LiblashEnv) : Reactions := fun c _ =>
  ⟨true, c.api.cb.quit.map (fun f => env.event f c)⟩

def trySaveReaction (env : LiblashEnv) : Reactions := fun c _ =>
  if c.api.pendingTask ≠ 0 then .none else ⟨false, c.api.cb.trysave.map (fun f => env.event f c)⟩

def tryPathChangeReaction (env : LiblashEnv) : Reactions := fun c _ =>
  if c.api.pendingTask ≠ 0 then .none else ⟨false, c.api.cb.path.map (fun f => env.event f c)⟩

def clientNameChangedReaction (env : LiblashEnv) : Reactions := fun c m =>
  match m.args with
  | .string new :: _ =>
    ⟨false, c.api.cb.name.map (fun f => env.event f { c with name := nonempty new.1 })⟩
  | _ => .none

def clientReactions (env : LiblashEnv) : List (Described LashClient Reactions) := [
  ⟨cstr "Save", lashDbusSave env, saveReaction env⟩,
  ⟨cstr "Load", lashDbusLoad env, loadReaction env⟩,
  ⟨cstr "LoadDataSet", lashDbusLoadDataSet env, loadDataSetReaction env⟩,
  ⟨cstr "Quit", lashDbusQuit env, quitReaction env⟩,
  ⟨cstr "TrySave", lashDbusTrySave env, trySaveReaction env⟩,
  ⟨cstr "TryPathChange", lashDbusTryPathChange env, tryPathChangeReaction env⟩,
  ⟨cstr "ClientNameChanged", lashDbusClientNameChanged env, clientNameChangedReaction env⟩]

/-- The methods of a client with its reactions. -/
def liblashReactions (env : LiblashEnv) : List (CStr × List (Described LashClient Reactions)) :=
  [((liblashInterfaceClient env).name, clientReactions env)]

theorem liblashPath_eq (env : LiblashEnv) (introspection : DbusString) :
    liblashPath env introspection = tablePath introspection (liblashReactions env) := rfl

/-- What a client does about a call. -/
def LashClient.reaction (env : LiblashEnv) (c : LashClient) (m : CallMessage) : Reaction :=
  match describedFor (liblashReactions env) m with
  | none => .none
  | some x => x.description c m

/-- The end of a call that the client reacts to: what it sent itself, and whether its process
ended. -/
def Handled.Follows (call : MethodCall LashClient) (r : Reaction) : Handled LashClient → Prop
  | .error sent => r.ends = true ∧ sent.length = call.sent.length + r.early.toNat
  | .ok call' => r.ends = false ∧ call'.sent.length = call.sent.length + r.early.toNat

/-- A handler follows a reaction. -/
def Handler.Reacts (handler : Handler LashClient) (reactions : Reactions) : Prop :=
  ∀ call, (handler call).Follows call (reactions call.state call.message)

/-- The client takes the task, or the call has an error that sends nothing. -/
theorem getTaskId_eq (call : MethodCall LashClient) :
    (∃ r, call.state.takesTask call.message = some r ∧ getTaskId call = .ok r) ∨
    (call.state.takesTask call.message = none ∧
      ∃ call', getTaskId call = .error call' ∧ call'.sent = call.sent) := by
  unfold getTaskId LashClient.takesTask
  rcases call.message.args with _ | ⟨v, args⟩
  · exact Or.inr ⟨rfl, _, rfl, rfl⟩
  · cases v with
    | uint64 task =>
        dsimp only
        by_cases hpending : call.state.api.pendingTask ≠ 0
        · rw [if_pos hpending, if_pos hpending]
          exact Or.inr ⟨rfl, _, rfl, rfl⟩
        · rw [if_neg hpending, if_neg hpending]
          exact Or.inl ⟨_, rfl, rfl⟩
    | _ => exact Or.inr ⟨rfl, _, rfl, rfl⟩

/-- An error or a reply without a callback. -/
theorem follows_none {call call' : MethodCall LashClient} (h : call'.sent = call.sent) :
    Handled.Follows call .none (.ok call') :=
  ⟨rfl, congrArg List.length h⟩

/-- A callback that nothing was sent before. -/
theorem follows_quiet {call call' : MethodCall LashClient} {b : Bool × ClientApi}
    (h : call'.sent = call.sent) : Handled.Follows call ⟨false, some (some b)⟩ (.ok call') :=
  ⟨rfl, congrArg List.length h⟩

/-- A task that is returned early follows its callback. -/
theorem follows_goes (call : MethodCall LashClient) (r : Option (Bool × ClientApi))
    (c : Option LashClient) (h : c = Option.none ↔ r = Option.none) :
    (call.returnsEarly.goes c).Follows call ⟨true, some r⟩ := by
  have hlength : call.returnsEarly.sent.length = call.sent.length + 1 := by
    show (call.sent ++ [_]).length = _
    rw [List.length_append, List.length_singleton]
  cases c with
  | none =>
      rw [h.mp rfl]
      exact ⟨rfl, hlength⟩
  | some c =>
      cases r with
      | none => exact absurd (h.mpr rfl) (by simp)
      | some b => exact ⟨rfl, hlength⟩

theorem taskCalled_eq_none {c : LashClient} {r : Option (Bool × ClientApi)} :
    taskCalled c r = none ↔ r = none := by
  cases r with
  | none => exact Iff.of_eq (by simp [taskCalled])
  | some r => simp [taskCalled]

theorem save_reacts (env : LiblashEnv) : (lashDbusSave env).Reacts (saveReaction env) := by
  intro call
  unfold lashDbusSave saveReaction
  rcases getTaskId_eq call with ⟨⟨task, args⟩, htask, hget⟩ | ⟨htask, call', hget, hsent⟩
  · rw [htask, hget]
    dsimp only
    unfold lashNewSaveTask
    have hcb : (call.state.beginTask task).api.cb.save = call.state.api.cb.save := rfl
    dsimp only
    rw [hcb]
    cases call.state.api.cb.save with
    | none =>
        refine ⟨rfl, ?_⟩
        show (call.sent ++ [_]).length = _
        rw [List.length_append]
        rfl
    | some f => exact follows_goes call _ _ taskCalled_eq_none
  · rw [htask, hget]
    exact follows_none hsent

theorem load_reacts (env : LiblashEnv) : (lashDbusLoad env).Reacts (loadReaction env) := by
  intro call
  unfold lashDbusLoad loadReaction
  rcases getTaskId_eq call with ⟨⟨task, args⟩, htask, hget⟩ | ⟨htask, call', hget, hsent⟩
  · rw [htask, hget]
    dsimp only
    split
    · next task' path rest h =>
        cases h
        dsimp only
        have hcb : ({ call.state with dataPath := some path.1 }.beginTask task).api.cb.load =
            call.state.api.cb.load := rfl
        rw [hcb]
        cases call.state.api.cb.load with
        | none =>
            dsimp only
            split
            · exact follows_none rfl
            · exact follows_none rfl
        | some f => exact follows_goes call _ _ taskCalled_eq_none
    · next hno =>
        split
        · next h => cases h
        · next task' path rest h =>
            exact absurd (Except.ok.inj h) (by simpa using hno task' path rest)
        · exact follows_none rfl
  · rw [htask, hget]
    exact follows_none hsent

theorem loadDataSet_reacts (env : LiblashEnv) :
    (lashDbusLoadDataSet env).Reacts (loadDataSetReaction env) := by
  intro call
  unfold lashDbusLoadDataSet loadDataSetReaction
  rcases getTaskId_eq call with ⟨⟨task, args⟩, htask, hget⟩ | ⟨htask, call', hget, hsent⟩
  · rw [htask, hget]
    dsimp only
    cases args.head?.bind Value.elems with
    | none => exact follows_none rfl
    | some elems =>
        dsimp only
        have hcb : (call.state.beginTask task).api.cb.loadDataSet = call.state.api.cb.loadDataSet :=
          rfl
        rw [hcb]
        cases call.state.api.cb.loadDataSet with
        | none =>
            dsimp only
            split
            · split
              · exact follows_none rfl
              · exact follows_none rfl
            · exact follows_none rfl
        | some f => exact follows_goes call _ _ taskCalled_eq_none
  · rw [htask, hget]
    exact follows_none hsent

theorem quit_reacts (env : LiblashEnv) : (lashDbusQuit env).Reacts (quitReaction env) := by
  intro call
  unfold lashDbusQuit quitReaction lashNewQuitTask
  cases call.state.api.cb.quit with
  | none =>
      refine ⟨rfl, ?_⟩
      show (call.sent ++ [_]).length = _
      rw [List.length_append]
      rfl
  | some f => exact follows_goes call _ _ Option.map_eq_none_iff

theorem trySave_reacts (env : LiblashEnv) : (lashDbusTrySave env).Reacts (trySaveReaction env) := by
  intro call
  unfold lashDbusTrySave trySaveReaction
  by_cases hpending : call.state.api.pendingTask ≠ 0
  · rw [if_pos hpending, if_pos hpending]
    exact follows_none rfl
  · rw [if_neg hpending, if_neg hpending]
    cases call.state.api.cb.trysave with
    | none => exact follows_none rfl
    | some f =>
        dsimp only [Option.map_some]
        cases env.event f call.state with
        | none => exact ⟨rfl, rfl⟩
        | some b => exact follows_quiet rfl

theorem tryPathChange_reacts (env : LiblashEnv) :
    (lashDbusTryPathChange env).Reacts (tryPathChangeReaction env) := by
  intro call
  unfold lashDbusTryPathChange tryPathChangeReaction
  by_cases hpending : call.state.api.pendingTask ≠ 0
  · rw [if_pos hpending, if_pos hpending]
    exact follows_none rfl
  · rw [if_neg hpending, if_neg hpending]
    cases call.state.api.cb.path with
    | none => exact follows_none rfl
    | some f =>
        dsimp only [Option.map_some]
        cases env.event f call.state with
        | none => exact ⟨rfl, rfl⟩
        | some b => exact follows_quiet rfl

theorem clientNameChanged_reacts (env : LiblashEnv) :
    (lashDbusClientNameChanged env).Reacts (clientNameChangedReaction env) := by
  intro call
  unfold lashDbusClientNameChanged clientNameChangedReaction
  rcases call.message.args with _ | ⟨v, rest⟩
  · exact follows_none rfl
  · cases v with
    | string new =>
        dsimp only
        have hcb : ({ call.state with name := nonempty new.1 } : LashClient).api.cb.name =
            call.state.api.cb.name := rfl
        rw [hcb]
        cases call.state.api.cb.name with
        | none => exact follows_none rfl
        | some f =>
            dsimp only [Option.map_some]
            unfold notify
            dsimp only
            cases env.event f { call.state with name := nonempty new.1 } with
            | none => exact ⟨rfl, rfl⟩
            | some b => exact follows_quiet rfl
    | _ => exact follows_none rfl

/-- Every method of the client library follows its reaction. -/
theorem reactions_follow (env : LiblashEnv) {m : CallMessage} {x : Described LashClient Reactions}
    (h : describedFor (liblashReactions env) m = some x) : x.handler.Reacts x.description := by
  obtain ⟨t, ht, hx⟩ := describedFor_mem h
  rcases List.mem_singleton.mp ht with rfl
  have hall : ∀ x ∈ clientReactions env, x.handler.Reacts x.description := by
    unfold clientReactions
    simp only [List.forall_mem_cons, List.not_mem_nil, false_implies, implies_true, and_true]
    exact ⟨save_reacts env, load_reacts env, loadDataSet_reacts env, quit_reacts env,
      trySave_reacts env, tryPathChange_reacts env, clientNameChanged_reacts env⟩
  exact hall x hx

/-- **A call to a client** gets the early reply and, if the process does not end in the callback,
another one. -/
theorem liblash_replies (env : LiblashEnv) (introspection : DbusString) (c : LashClient)
    (m : CallMessage) :
    (repliesTo (liblashPath env introspection) c m).length =
      (c.reaction env m).early.toNat + (!(c.reaction env m).ends).toNat := by
  rw [liblashPath_eq]
  have hhandler := handlerFor_tablePath introspection (liblashReactions env) m
  unfold LashClient.reaction
  cases hfor : describedFor (liblashReactions env) m with
  | none =>
      rw [hfor] at hhandler
      exact repliesTo_of_none hhandler
  | some x =>
      rw [hfor] at hhandler
      have hreplies := repliesTo_of_some (s := c) hhandler
      have hreact := reactions_follow env hfor (.fresh c m)
      cases hres : x.handler (.fresh c m) with
      | error sent =>
          rw [hres] at hreplies hreact
          obtain ⟨hends, hsent⟩ := hreact
          dsimp only at hreplies
          have hends' : (x.description c m).ends = true := hends
          rw [hreplies, hsent, hends']
          exact Nat.zero_add _
      | ok call =>
          rw [hres] at hreplies hreact
          obtain ⟨hends, hsent⟩ := hreact
          obtain ⟨r, hr⟩ := hreplies
          have hends' : (x.description c m).ends = false := hends
          rw [hr, List.length_append, hsent, hends']
          exact congrArg (· + 1) (Nat.zero_add _)

/-! ## One reply -/

/-- A `Quit` call, which the daemon sends to the clients of a project that it unloads. -/
def quitCall : CallMessage where
  sender := some (cstr ":1.0")
  interface := some (cstr "org.nongnu.LASH.Client")
  member := cstr "Quit"
  signature := []
  args := []

end Lash
