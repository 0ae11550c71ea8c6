import Lash.Methods

/-!
# Calls as inputs

A method call to the daemon amounts to inputs of `Server.step`: most calls that change something
to one, `ProjectsSaveAll` and `ProjectsCloseAll` to one for each loaded project, the others to
none. `operations_perform` connects the two levels: every method does what the step function does
with these inputs, and the process ends in the method exactly if it ends in one of them.
-/

namespace Lash

/-! ## Inputs of a call -/

/-- The inputs that a call to a method amounts to. -/
abbrev Inputs := Lashd → CallMessage → List Input

/-- A call that changes nothing about the projects. -/
def noInput : Inputs := fun _ _ => []

/-- The input of a call from a known sender. -/
def senderInput (f : CStr → List Arg → Input) : Inputs := fun _ m =>
  (m.sender.map (fun sender => f sender (m.args.map Value.arg))).toList

/-- The input of a call with one string. -/
def stringInput (f : CStr → Input) : Inputs := fun _ m => ((getString m.args).map f).toList

/-- The input of a call with two strings. -/
def stringInput2 (f : CStr → CStr → Input) : Inputs := fun _ m =>
  ((getString2 m.args).map (fun r => f r.1 r.2)).toList

/-- The input of a call with three strings. -/
def stringInput3 (f : CStr → CStr → CStr → Input) : Inputs := fun _ m =>
  ((getString3 m.args).map (fun r => f r.1 r.2.1 r.2.2)).toList

/-- The inputs of a call for every loaded project. -/
def roundInputs (f : Addr → Input) : Inputs := fun l _ => l.server.loaded.map f

def connectInput (env : LashdEnv) : Inputs := fun _ m =>
  match m.sender, m.args with
  | some sender, .int32 pid :: .string cls :: .int32 flags :: .string wd :: .strings argv :: _ =>
    [.connect sender pid cls.1 (BitVec.ofInt 32 flags) wd.1 (argv.map Subtype.val) env.uuid]
  | _, _ => []

def serverOperations (env : LashdEnv) : List (Described Lashd Inputs) := [
  ⟨cstr "Ping", lashdDbusPing, noInput⟩,
  ⟨cstr "Connect", lashdDbusConnect env, connectInput env⟩,
  ⟨cstr "JackName", lashdDbusJackName env, noInput⟩,
  ⟨cstr "AlsaId", lashdDbusAlsaId env, noInput⟩,
  ⟨cstr "GetName", lashdDbusGetName, noInput⟩,
  ⟨cstr "GetJackName", lashdDbusGetJackName, noInput⟩,
  ⟨cstr "GetAlsaId", lashdDbusGetAlsaId, noInput⟩,
  ⟨cstr "Progress", lashdDbusProgress, senderInput .progress⟩,
  ⟨cstr "CommitDataSet", lashdDbusCommitDataSet, senderInput .commitDataSet⟩,
  ⟨cstr "CommitPathChange", lashdDbusCommitPathChange, noInput⟩]

def controlOperations (env : LashdEnv) : List (Described Lashd Inputs) := [
  ⟨cstr "ProjectsGetAvailable", lashdDbusProjectsGetAvailable, noInput⟩,
  ⟨cstr "ProjectOpen", lashdDbusProjectOpen env, stringInput .projectOpen⟩,
  ⟨cstr "ProjectsGet", lashdDbusProjectsGet, noInput⟩,
  ⟨cstr "ProjectGetProperties", lashdDbusProjectGetProperties, noInput⟩,
  ⟨cstr "ProjectSetDescription", lashdDbusProjectSetDescription,
    stringInput2 .projectSetDescription⟩,
  ⟨cstr "ProjectSetNotes", lashdDbusProjectSetNotes, stringInput2 .projectSetNotes⟩,
  ⟨cstr "ProjectGetClients", lashdDbusProjectGetClients, noInput⟩,
  ⟨cstr "ProjectGetLostClients", lashdDbusProjectGetLostClients, noInput⟩,
  ⟨cstr "ApplicationsGet", lashdDbusApplicationsGet, noInput⟩,
  ⟨cstr "ClientGetDependencies", lashdDbusClientGetDependencies, noInput⟩,
  ⟨cstr "ClientAddDependency", lashdDbusClientAddDependency, stringInput3 .addDependency⟩,
  ⟨cstr "ClientRemoveDependency", lashdDbusClientRemoveDependency, stringInput3 .removeDependency⟩,
  ⟨cstr "LostClientLaunch", lashdDbusLostClientLaunch, stringInput2 .lostClientLaunch⟩,
  ⟨cstr "LoadProjectPath", lashdDbusLoadProjectPath env, stringInput .loadProjectPath⟩,
  ⟨cstr "ProjectMove", lashdDbusProjectMove, stringInput2 .projectMove⟩,
  ⟨cstr "ProjectRename", lashdDbusProjectRename, stringInput2 .projectRename⟩,
  ⟨cstr "ProjectSave", lashdDbusProjectSave, stringInput .projectSave⟩,
  ⟨cstr "ProjectClose", lashdDbusProjectClose, stringInput .projectClose⟩,
  ⟨cstr "ProjectsSaveAll", lashdDbusProjectsSaveAll, roundInputs .saveRound⟩,
  ⟨cstr "ProjectsCloseAll", lashdDbusProjectsCloseAll, roundInputs .closeRound⟩,
  ⟨cstr "Exit", lashdDbusExit, noInput⟩]

/-- The methods of the daemon with the inputs of their calls. -/
def lashdOperations (env : LashdEnv) : List (CStr × List (Described Lashd Inputs)) := [
  ((lashdInterfaceServer env).name, serverOperations env),
  ((lashdInterfaceControl env).name, controlOperations env)]

theorem lashdPath_eq (env : LashdEnv) (introspection : DbusString) :
    lashdPath env introspection = tablePath introspection (lashdOperations env) := rfl

/-- The inputs that a call to the daemon amounts to. -/
def Lashd.inputs (env : LashdEnv) (l : Lashd) (m : CallMessage) : List Input :=
  match describedFor (lashdOperations env) m with
  | none => []
  | some x => x.description l m

/-! ## Performing them -/

/-- The end of a call whose inputs lead the server to some state, or to a crash. -/
def Handled.Ends (call : MethodCall Lashd) (s : Option Server) : Handled Lashd → Prop
  | .error sent => s = none ∧ sent = call.sent
  | .ok call' => s = some call'.state.server ∧ call'.sent = call.sent

/-- A handler does what the step function does with the inputs of a call, and sends nothing
itself. -/
def Handler.Performs (handler : Handler Lashd) (inputs : Inputs) : Prop :=
  ∀ call, (handler call).Ends call
    ((inputs call.state call.message).foldlM Server.step call.state.server)

theorem MethodCall.server_answer (call : MethodCall Lashd) (r : Reply) :
    (call.answer r).state.server = call.state.server := by
  cases r with
  | void => rfl
  | client id name project dataPath flags wd => rfl
  | error name message => rfl

theorem MethodCall.sent_answer (call : MethodCall Lashd) (r : Reply) :
    (call.answer r).sent = call.sent := by
  cases r with
  | void => rfl
  | client id name project dataPath flags wd => rfl
  | error name message => rfl

/-- A call of a method of `Lash.Bus` is a step. -/
theorem MethodCall.does_ends (call : MethodCall Lashd) (i : Input) :
    (call.does (call.state.server.handle i)).Ends call
    ([i].foldlM Server.step call.state.server) := by
  rw [List.foldlM_cons]
  unfold Server.step
  cases call.state.server.handle i with
  | none => exact ⟨rfl, rfl⟩
  | some r =>
      refine ⟨?_, ?_⟩
      · rw [MethodCall.server_answer]
        rfl
      · exact MethodCall.sent_answer _ _

/-- Without an input there is nothing to do but to reply. -/
theorem Handled.ends_nothing {call call' : MethodCall Lashd} (hs : call'.sent = call.sent)
    (hserver : call'.state.server = call.state.server) :
    Handled.Ends call (([] : List Input).foldlM Server.step call.state.server) (.ok call') :=
  ⟨congrArg some hserver.symm, hs⟩

/-- A method that only replies. -/
theorem performs_noInput {handler : Handler Lashd} (f : MethodCall Lashd → MethodCall Lashd)
    (h : ∀ call, handler call = .ok (f call)) (hs : ∀ call, (f call).sent = call.sent)
    (hserver : ∀ call, (f call).state.server = call.state.server) :
    handler.Performs noInput := by
  intro call
  rw [h]
  exact Handled.ends_nothing (hs call) (hserver call)

/-- A method that only replies to the client that calls it. -/
theorem performs_withSender {f : MethodCall Lashd → Addr × Client → MethodCall Lashd}
    (hs : ∀ call r, (f call r).sent = call.sent)
    (hserver : ∀ call r, (f call r).state.server = call.state.server) :
    Handler.Performs (fun call => withSender call (f call)) noInput := by
  intro call
  show (withSender call (f call)).Ends call _
  unfold withSender getMessageSender
  cases call.message.sender with
  | none => exact Handled.ends_nothing rfl rfl
  | some sender =>
      dsimp only
      cases call.state.server.findClientByDbusName sender with
      | none =>
          exact Handled.ends_nothing (MethodCall.sent_answer _ _) (MethodCall.server_answer _ _)
      | some r => exact Handled.ends_nothing (hs call r) (hserver call r)

theorem withProject_keeps (call : MethodCall Lashd) (name : CStr) (f : Addr → MethodCall Lashd)
    (hf : ∀ a, (f a).sent = call.sent ∧ (f a).state.server = call.state.server) :
    (withProject call name f).sent = call.sent ∧
      (withProject call name f).state.server = call.state.server := by
  unfold withProject
  cases call.state.server.findProjectByName name with
  | none => exact ⟨MethodCall.sent_answer _ _, MethodCall.server_answer _ _⟩
  | some a => exact hf a

/-- A method that only replies about the project that the call names. -/
theorem performs_withProject {f : MethodCall Lashd → Addr → MethodCall Lashd}
    (hf : ∀ call a, (f call a).sent = call.sent ∧ (f call a).state.server = call.state.server) :
    Handler.Performs (fun call =>
      match getString call.message.args with
      | none => .ok call.invalidArguments
      | some name => .ok (withProject call name (f call))) noInput := by
  intro call
  dsimp only
  cases getString call.message.args with
  | none => exact Handled.ends_nothing rfl rfl
  | some name =>
      have hkeeps := withProject_keeps call name (f call) (hf call)
      exact Handled.ends_nothing hkeeps.1 hkeeps.2

/-- A method that does something with a string. -/
theorem performs_stringInput {f : CStr → Input} {bad : MethodCall Lashd → MethodCall Lashd}
    (hs : ∀ call, (bad call).sent = call.sent)
    (hserver : ∀ call, (bad call).state.server = call.state.server) :
    Handler.Performs (fun call =>
      match getString call.message.args with
      | none => .ok (bad call)
      | some s => call.does (call.state.server.handle (f s))) (stringInput f) := by
  intro call
  unfold stringInput
  dsimp only
  cases getString call.message.args with
  | none => exact Handled.ends_nothing (hs call) (hserver call)
  | some s => exact call.does_ends (f s)

/-- A method that does something with two strings. -/
theorem performs_stringInput2 {f : CStr → CStr → Input} :
    Handler.Performs (fun call =>
      match getString2 call.message.args with
      | none => .ok call.invalidArguments
      | some (s, t) => call.does (call.state.server.handle (f s t))) (stringInput2 f) := by
  intro call
  unfold stringInput2
  dsimp only
  cases getString2 call.message.args with
  | none => exact Handled.ends_nothing rfl rfl
  | some r => exact call.does_ends (f r.1 r.2)

/-- A method that does something with three strings. -/
theorem performs_stringInput3 {f : CStr → CStr → CStr → Input} :
    Handler.Performs (fun call =>
      match getString3 call.message.args with
      | none => .ok call.invalidArguments
      | some (s, t, u) => call.does (call.state.server.handle (f s t u))) (stringInput3 f) := by
  intro call
  unfold stringInput3
  dsimp only
  cases getString3 call.message.args with
  | none => exact Handled.ends_nothing rfl rfl
  | some r => exact call.does_ends (f r.1 r.2.1 r.2.2)

/-- A method that does something for its sender. -/
theorem performs_senderInput {f : CStr → List Arg → Input} :
    Handler.Performs (fun call =>
      match call.message.sender with
      | none => .ok (call.lashDbusError genericError [cstr "Sender is NULL"])
      | some sender =>
        call.does (call.state.server.handle (f sender (call.message.args.map Value.arg))))
      (senderInput f) := by
  intro call
  unfold senderInput
  dsimp only
  cases call.message.sender with
  | none => exact Handled.ends_nothing rfl rfl
  | some sender => exact call.does_ends (f sender _)

theorem connect_performs (env : LashdEnv) : (lashdDbusConnect env).Performs (connectInput env) := by
  intro call
  unfold lashdDbusConnect connectInput
  cases hsender : call.message.sender with
  | none => exact Handled.ends_nothing rfl rfl
  | some sender =>
      dsimp only
      split
      · next sender' pid cls flags wd argv rest hsender' hargs =>
          cases hsender'
          rw [hargs]
          exact call.does_ends (.connect sender pid cls.1 _ wd.1 _ env.uuid)
      · next hno =>
          split
          · next pid cls flags wd argv rest hargs =>
              exact absurd hargs (hno sender pid cls flags wd argv rest rfl)
          · exact Handled.ends_nothing rfl rfl

/-! ## Rounds -/

theorem Server.loaded_projectSave (s : Server)
    (a : Addr) : (s.projectSave a).loaded = s.loaded := by
  unfold Server.projectSave
  dsimp only
  split
  · rfl
  · rfl

/-- Saving every loaded project is a round for each. -/
theorem saveRounds {s : Server} {l : List Addr} (h : ∀ a ∈ l, a ∈ s.loaded) :
    (l.map Input.saveRound).foldlM Server.step s = some (l.foldl Server.projectSave s) := by
  induction l generalizing s with
  | nil => rfl
  | cons a l ih =>
      have hstep : s.step (.saveRound a) = some (s.projectSave a) := by
        show some (if a ∈ s.loaded then s.projectSave a else s) = _
        rw [if_pos (h a (by simp))]
      rw [List.map_cons, List.foldlM_cons, hstep]
      refine ih (s := s.projectSave a) fun b hb => ?_
      rw [Server.loaded_projectSave]
      exact h b (List.mem_cons_of_mem a hb)

/-- Closing every loaded project is a round for each. -/
theorem closeRounds {s : Server} {l : List Addr} (h : s.loaded = l) :
    (l.map Input.closeRound).foldlM Server.step s = some (l.foldl Server.closeProject s) := by
  induction l generalizing s with
  | nil => rfl
  | cons a l ih =>
      have hstep : s.step (.closeRound a) = some (s.closeProject a) := by
        show some (if a ∈ s.loaded then s.closeProject a else s) = _
        rw [if_pos (by rw [h]; simp)]
      rw [List.map_cons, List.foldlM_cons, hstep]
      refine ih (s := s.closeProject a) ?_
      -- the project that is closed is the first one
      show s.loaded.erase a = l
      rw [h, List.erase_cons_head]

/-! ## All methods -/

theorem serverOperations_perform (env : LashdEnv) :
    ∀ x ∈ serverOperations env, x.handler.Performs x.description := by
  unfold serverOperations
  simp only [List.forall_mem_cons, List.not_mem_nil, false_implies, implies_true, and_true]
  refine ⟨?_, connect_performs env, ?_, ?_, ?_, ?_, ?_, performs_senderInput, performs_senderInput,
    ?_⟩
  · exact performs_noInput _ (fun _ => rfl) (fun _ => rfl) (fun _ => rfl)
  · refine performs_withSender (fun call r => ?_) (fun call r => ?_)
    all_goals
      dsimp only
      split
      · rfl
      · split
        · rfl
        · split <;> rfl
  · refine performs_withSender (fun call r => ?_) (fun call r => ?_)
    all_goals
      dsimp only
      split
      · split
        · rfl
        · split <;> rfl
      · rfl
  · exact performs_withSender (fun _ _ => rfl) (fun _ _ => rfl)
  · exact performs_withSender (fun _ _ => rfl) (fun _ _ => rfl)
  · exact performs_withSender (fun _ _ => rfl) (fun _ _ => rfl)
  · exact performs_withSender (fun _ _ => rfl) (fun _ _ => rfl)

theorem controlOperations_perform (env : LashdEnv) :
    ∀ x ∈ controlOperations env, x.handler.Performs x.description := by
  unfold controlOperations
  simp only [List.forall_mem_cons, List.not_mem_nil, false_implies, implies_true, and_true]
  refine ⟨?_, performs_stringInput (fun _ => rfl) (fun _ => rfl), ?_, ?_, performs_stringInput2,
    performs_stringInput2, ?_, ?_, ?_, ?_, performs_stringInput3, performs_stringInput3,
    performs_stringInput2, performs_stringInput (fun _ => rfl) (fun _ => rfl),
      performs_stringInput2,
    performs_stringInput2, performs_stringInput (fun _ => rfl) (fun _ => rfl),
    performs_stringInput (fun _ => rfl) (fun _ => rfl), ?_, ?_, ?_⟩
  · exact performs_noInput _ (fun _ => rfl) (fun _ => rfl) (fun _ => rfl)
  · exact performs_noInput _ (fun _ => rfl) (fun _ => rfl) (fun _ => rfl)
  · exact performs_withProject (fun _ _ => ⟨rfl, rfl⟩)
  · exact performs_withProject (fun _ _ => ⟨rfl, rfl⟩)
  · exact performs_withProject (fun _ _ => ⟨rfl, rfl⟩)
  · exact performs_noInput _ (fun _ => rfl) (fun _ => rfl) (fun _ => rfl)
  · exact performs_withProject (fun _ _ => ⟨rfl, rfl⟩)
  · intro call
    exact ⟨saveRounds (fun a ha => ha), rfl⟩
  · intro call
    exact ⟨closeRounds rfl, rfl⟩
  · exact performs_noInput _ (fun _ => rfl) (fun _ => rfl) (fun _ => rfl)

/-- **Every method of the daemon** does what the step function does with the inputs of the call, and
replies to nobody itself. -/
theorem operations_perform (env : LashdEnv) {m : CallMessage} {x : Described Lashd Inputs}
    (h : describedFor (lashdOperations env) m = some x) : x.handler.Performs x.description := by
  obtain ⟨t, ht, hx⟩ := describedFor_mem h
  rcases List.mem_cons.mp ht with rfl | ht
  · exact serverOperations_perform env x hx
  · rcases List.mem_singleton.mp ht with rfl
    exact controlOperations_perform env x hx

end Lash
