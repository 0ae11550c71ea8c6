import Lash.Bus
import Lash.Dbus

/-!
# The methods of the daemon

The D-Bus methods of `lashd/dbus_iface_server.c` and `lashd/dbus_iface_control.c` as the dispatcher
calls them: how each reads its arguments and what it leaves in `call->reply`. What the methods do to
the projects is in `Lash.Bus`; the managers of JACK and ALSA are left out.
-/

namespace Lash

/-- An entry of the application database. -/
structure AppdbEntry where
  name : CStr
  genericName : Option CStr
  comment : Option CStr
  icon : Option CStr

/-- The daemon, with what only its methods read and write. -/
structure Lashd where
  server : Server
  quit : Bool
  appdb : List AppdbEntry
  /-- `project->last_modify_time` -/
  lastModifyTime : Addr → Nat
  /-- `client->jack_client_name` -/
  jackClientName : Addr → Option CStr
  /-- `client->alsa_client_id` -/
  alsaClientId : Addr → UInt8

/-- What a build and the libraries decide for a call. -/
structure LashdEnv where
  /-- `HAVE_JACK_DBUS` -/
  haveJackDbus : Bool
  /-- `HAVE_ALSA` -/
  haveAlsa : Bool
  /-- What `uuid_generate` returns. -/
  uuid : Uuid
  /-- What the bus library says about arguments of the wrong types. -/
  why : CStr

/-- An argument as `Lash.Bus` has it. -/
def Value.arg : Value → Arg
  | .uint64 n => .uint64 n
  | .byte n => .byte n
  | .array elems => .array elems
  | .strings l => .array (l.map (fun _ => .other))
  | _ => .other

def ErrorName.name : ErrorName → CStr
  | .invalidArgs => invalidArgsError
  | .generic => genericError
  | .unknownProject => unknownProjectError
  | .unknownClient => unknownClientError
  | .invalidClientId => invalidClientIdError
  | .invalidTask => invalidTaskError

namespace MethodCall

/-- What a method of `Lash.Bus` leaves in `call->reply`. -/
def answer (call : MethodCall Lashd) : Reply → MethodCall Lashd
  | .void => call
  | .client id name project dataPath flags wd =>
    call.methodReturnNewValist [appendString id, appendString name, appendString project,
      appendString dataPath, some (.int32 flags.toInt), appendString wd]
  | .error name message => call.lashDbusError name.name [message]

/-- A method of `Lash.Bus` was called; the daemon may have crashed. -/
def does (call : MethodCall Lashd) : Option (Server × Reply) → Handled Lashd
  | none => call.ends
  | some (s, r) => .ok ((call.withState { call.state with server := s }).answer r)

end MethodCall

/-! ## The client that calls -/

/-- `get_message_sender`: the client that sends the call, or the call with an error. -/
def getMessageSender (call : MethodCall Lashd) : Except (MethodCall Lashd) (Addr × Client) :=
  match call.message.sender with
  | none => .error (call.lashDbusError genericError [cstr "Sender is NULL"])
  | some sender =>
    match call.state.server.findClientByDbusName sender with
    | none => .error (call.answer (Server.unknownSender sender))
    | some r => .ok r

/-- Do something for the client that sends the call. -/
def withSender (call : MethodCall Lashd) (f : Addr × Client → MethodCall Lashd) : Handled Lashd :=
  match getMessageSender call with
  | .error call => .ok call
  | .ok r => .ok (f r)

/-! ## The server interface -/

def lashdDbusPing : Handler Lashd := fun call => .ok call.methodReturnNewVoid

def lashdDbusConnect (env : LashdEnv) : Handler Lashd := fun call =>
  match call.message.sender with
  | none => .ok call
  | some sender =>
    match call.message.args with
    | .int32 pid :: .string cls :: .int32 flags :: .string wd :: .strings argv :: _ =>
      call.does (call.state.server.dbusConnect sender pid cls.1 (BitVec.ofInt 32 flags) wd.1
        (argv.map Subtype.val) env.uuid)
    | _ => .ok (call.invalidArgumentsBecause env.why)

def lashdDbusJackName (env : LashdEnv) : Handler Lashd := fun call =>
  withSender call fun (_, c) =>
    match getString call.message.args with
    | none => call.invalidArgumentsBecause env.why
    | some jackName =>
      -- `client_maybe_fill_class` has nothing to do for a client with a class
      if env.haveJackDbus then call
      else if (call.state.jackClientName c.addr).isSome then
        call.lashDbusError genericError [cstr "Can only set JACK client name once"]
      else
        call.withState { call.state with
          jackClientName := Function.update call.state.jackClientName c.addr (some jackName) }

def lashdDbusAlsaId (env : LashdEnv) : Handler Lashd := fun call =>
  withSender call fun (_, c) =>
    match call.message.args with
    | .byte alsaId :: _ =>
      if ¬ env.haveAlsa then call
      else if call.state.alsaClientId c.addr ≠ 0 then
        call.lashDbusError genericError [cstr "Can only set ALSA client ID once"]
      else
        call.withState { call.state with
          alsaClientId := Function.update call.state.alsaClientId c.addr alsaId }
    | _ => call.invalidArgumentsBecause env.why

def lashdDbusGetName : Handler Lashd := fun call =>
  withSender call fun (_, c) => call.methodReturnNewSingle (appendString (c.name.getD []))

def lashdDbusGetJackName : Handler Lashd := fun call =>
  withSender call fun (_, c) =>
    call.methodReturnNewSingle (appendString ((call.state.jackClientName c.addr).getD []))

def lashdDbusGetAlsaId : Handler Lashd := fun call =>
  withSender call fun (_, c) =>
    call.methodReturnNewSingle (some (.byte (call.state.alsaClientId c.addr)))

def lashdDbusProgress : Handler Lashd := fun call =>
  match call.message.sender with
  | none => .ok (call.lashDbusError genericError [cstr "Sender is NULL"])
  | some sender =>
    call.does (call.state.server.dbusProgress sender (call.message.args.map Value.arg))

def lashdDbusCommitDataSet : Handler Lashd := fun call =>
  match call.message.sender with
  | none => .ok (call.lashDbusError genericError [cstr "Sender is NULL"])
  | some sender =>
    call.does (call.state.server.dbusCommitDataSet sender (call.message.args.map Value.arg))

/-- The path is made up. -/
def lashdDbusCommitPathChange : Handler Lashd := fun call =>
  withSender call fun _ => call.methodReturnNewSingle (appendString (cstr "/tmp"))

def lashdInterfaceServer (env : LashdEnv) : Interface Lashd where
  name := cstr "org.nongnu.LASH.Server"
  methods := [
    ⟨cstr "Ping", some lashdDbusPing⟩,
    ⟨cstr "Connect", some (lashdDbusConnect env)⟩,
    ⟨cstr "JackName", some (lashdDbusJackName env)⟩,
    ⟨cstr "AlsaId", some (lashdDbusAlsaId env)⟩,
    ⟨cstr "GetName", some lashdDbusGetName⟩,
    ⟨cstr "GetJackName", some lashdDbusGetJackName⟩,
    ⟨cstr "GetAlsaId", some lashdDbusGetAlsaId⟩,
    ⟨cstr "Progress", some lashdDbusProgress⟩,
    ⟨cstr "CommitDataSet", some lashdDbusCommitDataSet⟩,
    ⟨cstr "CommitPathChange", some lashdDbusCommitPathChange⟩]

/-! ## Replies of the control interface -/

/-- `maybe_add_dict_entry_string` -/
def maybeAddDictEntryString (key : String) (value : Option CStr) : Option (List Content) :=
  match value with
  | none => some []
  | some s => (appendString s).map (fun c => [.entry (cstr key) c])

/-- `add_dict_entry_uint32`; zero is left out. -/
def addDictEntryUint32 (key : String) (value : Nat) : List Content :=
  if value = 0 then [] else [.entry (cstr key) (.uint32 value)]

/-- `add_dict_entry_bool` -/
def addDictEntryBool (key : String)
    (value : Bool) : List Content := [.entry (cstr key) (.bool value)]

/-- A project in the reply to `ProjectsGetAvailable`. -/
def availableProject (l : Lashd) (a : Addr) : Option Content := do
  let p := l.server.project a
  let name ← appendString p.name
  let description ← maybeAddDictEntryString "Description" p.description
  some (.struct [name,
    .array (description ++ addDictEntryUint32 "Modification Time" (l.lastModifyTime a))])

/-- A client in the reply to `ProjectGetClients`; one without a name cannot be appended. -/
def listedClient (c : Client) : Option Content := do
  let id ← appendString c.idStr
  let name ← c.name.bind appendString
  some (.struct [id, name])

/-- An entry of the application database in the reply to `ApplicationsGet`. -/
def listedApplication (e : AppdbEntry) : Option Content := do
  let name ← appendString e.name
  let genericName ← maybeAddDictEntryString "GenericName" e.genericName
  let comment ← maybeAddDictEntryString "Comment" e.comment
  let icon ← maybeAddDictEntryString "Icon" e.icon
  some (.struct [name, .array (genericName ++ comment ++ icon)])

/-- A client in the reply to `ClientGetDependencies`. -/
def listedDependencies (c : Client) : Option Content := do
  let name ← c.name.bind appendString
  let ids ← c.dependencies.mapM (fun id => appendString (uuidUnparse id))
  some (.struct [name, .array ids])

/-! ## The control interface -/

/-- Do something with the loaded project that the call names. -/
def withProject (call : MethodCall Lashd) (name : CStr) (f : Addr → MethodCall Lashd) :
    MethodCall Lashd :=
  match call.state.server.findProjectByName name with
  | none => call.answer (Server.unknownProject name)
  | some a => f a

def lashdDbusProjectsGetAvailable : Handler Lashd := fun call =>
  .ok (call.methodReturnNewSingle
    ((call.state.server.all.mapM (availableProject call.state)).map .array))

def lashdDbusProjectOpen (env : LashdEnv) : Handler Lashd := fun call =>
  match getString call.message.args with
  | none => .ok (call.invalidArgumentsBecause env.why)
  | some name => call.does (call.state.server.handle (.projectOpen name))

def lashdDbusProjectsGet : Handler Lashd := fun call =>
  .ok (call.methodReturnNewSingle ((call.state.server.loaded.mapM
    (fun a => appendString (call.state.server.project a).name)).map .array))

def lashdDbusProjectGetProperties : Handler Lashd := fun call =>
  match getString call.message.args with
  | none => .ok call.invalidArguments
  | some name => .ok (withProject call name fun a =>
      let p := call.state.server.project a
      call.methodReturnNewSingle (do
        let description ← maybeAddDictEntryString "Description" p.description
        let notes ← maybeAddDictEntryString "Notes" p.notes
        some (.array
          (description ++ notes ++ addDictEntryBool "Modified Status" p.modifiedStatus))))

def lashdDbusProjectSetDescription : Handler Lashd := fun call =>
  match getString2 call.message.args with
  | none => .ok call.invalidArguments
  | some (name, description) =>
    call.does (call.state.server.handle (.projectSetDescription name description))

def lashdDbusProjectSetNotes : Handler Lashd := fun call =>
  match getString2 call.message.args with
  | none => .ok call.invalidArguments
  | some (name, notes) => call.does (call.state.server.handle (.projectSetNotes name notes))

/-- `lashd_dbus_return_client_list` -/
def lashdDbusReturnClientList (wantLostClients : Bool) : Handler Lashd := fun call =>
  match getString call.message.args with
  | none => .ok call.invalidArguments
  | some name => .ok (withProject call name fun a =>
      let p := call.state.server.project a
      let clients := if wantLostClients then p.lostClients else p.clients
      call.methodReturnNewSingle ((clients.mapM listedClient).map .array))

def lashdDbusProjectGetClients : Handler Lashd := lashdDbusReturnClientList false

def lashdDbusProjectGetLostClients : Handler Lashd := lashdDbusReturnClientList true

def lashdDbusApplicationsGet : Handler Lashd := fun call =>
  .ok (call.methodReturnNewSingle ((call.state.appdb.mapM listedApplication).map .array))

def lashdDbusClientGetDependencies : Handler Lashd := fun call =>
  match getString call.message.args with
  | none => .ok call.invalidArguments
  | some name => .ok (withProject call name fun a =>
      let clients := (call.state.server.project a).clients.filter (fun c => c.dependencies ≠ [])
      call.methodReturnNewSingle ((clients.mapM listedDependencies).map .array))

def lashdDbusClientAddDependency : Handler Lashd := fun call =>
  match getString3 call.message.args with
  | none => .ok call.invalidArguments
  | some (project, client, dep) =>
    call.does (call.state.server.handle (.addDependency project client dep))

def lashdDbusClientRemoveDependency : Handler Lashd := fun call =>
  match getString3 call.message.args with
  | none => .ok call.invalidArguments
  | some (project, client, dep) =>
    call.does (call.state.server.handle (.removeDependency project client dep))

def lashdDbusLostClientLaunch : Handler Lashd := fun call =>
  match getString2 call.message.args with
  | none => .ok call.invalidArguments
  | some (project, client) =>
    call.does (call.state.server.handle (.lostClientLaunch project client))

def lashdDbusLoadProjectPath (env : LashdEnv) : Handler Lashd := fun call =>
  match getString call.message.args with
  | none => .ok (call.invalidArgumentsBecause env.why)
  | some path => call.does (call.state.server.handle (.loadProjectPath path))

def lashdDbusProjectMove : Handler Lashd := fun call =>
  match getString2 call.message.args with
  | none => .ok call.invalidArguments
  | some (name, path) => call.does (call.state.server.handle (.projectMove name path))

def lashdDbusProjectRename : Handler Lashd := fun call =>
  match getString2 call.message.args with
  | none => .ok call.invalidArguments
  | some (old, new) => call.does (call.state.server.handle (.projectRename old new))

def lashdDbusProjectSave : Handler Lashd := fun call =>
  match getString call.message.args with
  | none => .ok call.invalidArguments
  | some name => call.does (call.state.server.handle (.projectSave name))

def lashdDbusProjectClose : Handler Lashd := fun call =>
  match getString call.message.args with
  | none => .ok call.invalidArguments
  | some name => call.does (call.state.server.handle (.projectClose name))

def lashdDbusProjectsSaveAll : Handler Lashd := fun call =>
  .ok (call.withState { call.state with server := call.state.server.saveAllProjects })

def lashdDbusProjectsCloseAll : Handler Lashd := fun call =>
  .ok (call.withState { call.state with server := call.state.server.closeAllProjects })

def lashdDbusExit : Handler Lashd := fun call =>
  .ok (call.withState { call.state with quit := true })

def lashdInterfaceControl (env : LashdEnv) : Interface Lashd where
  name := cstr "org.nongnu.LASH.Control"
  methods := [
    ⟨cstr "ProjectsGetAvailable", some lashdDbusProjectsGetAvailable⟩,
    ⟨cstr "ProjectOpen", some (lashdDbusProjectOpen env)⟩,
    ⟨cstr "ProjectsGet", some lashdDbusProjectsGet⟩,
    ⟨cstr "ProjectGetProperties", some lashdDbusProjectGetProperties⟩,
    ⟨cstr "ProjectSetDescription", some lashdDbusProjectSetDescription⟩,
    ⟨cstr "ProjectSetNotes", some lashdDbusProjectSetNotes⟩,
    ⟨cstr "ProjectGetClients", some lashdDbusProjectGetClients⟩,
    ⟨cstr "ProjectGetLostClients", some lashdDbusProjectGetLostClients⟩,
    ⟨cstr "ApplicationsGet", some lashdDbusApplicationsGet⟩,
    ⟨cstr "ClientGetDependencies", some lashdDbusClientGetDependencies⟩,
    ⟨cstr "ClientAddDependency", some lashdDbusClientAddDependency⟩,
    ⟨cstr "ClientRemoveDependency", some lashdDbusClientRemoveDependency⟩,
    ⟨cstr "LostClientLaunch", some lashdDbusLostClientLaunch⟩,
    ⟨cstr "LoadProjectPath", some (lashdDbusLoadProjectPath env)⟩,
    ⟨cstr "ProjectMove", some lashdDbusProjectMove⟩,
    ⟨cstr "ProjectRename", some lashdDbusProjectRename⟩,
    ⟨cstr "ProjectSave", some lashdDbusProjectSave⟩,
    ⟨cstr "ProjectClose", some lashdDbusProjectClose⟩,
    ⟨cstr "ProjectsSaveAll", some lashdDbusProjectsSaveAll⟩,
    ⟨cstr "ProjectsCloseAll", some lashdDbusProjectsCloseAll⟩,
    ⟨cstr "Exit", some lashdDbusExit⟩]

/-- The object path of the daemon. -/
def lashdPath (env : LashdEnv) (introspection : DbusString) : ObjectPath Lashd where
  introspection := introspection
  interfaces := [lashdInterfaceServer env, lashdInterfaceControl env]

end Lash
