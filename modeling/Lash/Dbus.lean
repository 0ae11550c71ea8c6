import Lash.Message

/-!
# Method calls

`dbus/object_path.c`, `dbus/interface.c`, `dbus/introspection.c` and the parts of `dbus/method.c`
and `dbus/error.c` that make replies: how a method call that arrives at an object path finds its
handler, and who replies to it. A handler and the functions that called it share `call->reply`; a
handler may also send a reply itself.

The program behind an object path has a state `σ`. Where a handler ends the process, by `exit` or
by a crash, what was sent so far is all that is left (`Except.error`).
-/

namespace Lash

/-! ## Messages -/

/-- An argument of a message. -/
inductive Value where
  | int32 (n : Int)
  | uint64 (n : Nat)
  | byte (n : UInt8)
  | bool (b : Bool)
  | string (s : DbusString)
  /-- An array of strings. -/
  | strings (l : List DbusString)
  /-- An array of anything else. -/
  | array (elems : List ArrayElem)
  | other

/-- A method call. Every one has a member; the interface is optional. -/
structure CallMessage where
  sender : Option CStr
  interface : Option CStr
  member : CStr
  signature : CStr
  args : List Value

/-- What a reply carries. -/
inductive Content where
  | int32 (n : Int)
  | uint32 (n : Nat)
  | byte (n : UInt8)
  | bool (b : Bool)
  | string (s : DbusString)
  | array (l : List Content)
  | struct (l : List Content)
  /-- A dict entry with a string for a key and a variant for a value. -/
  | entry (key : CStr) (value : Content)

/-- A method return or an error. -/
inductive ReplyMessage where
  | methodReturn (args : List Content)
  | error (name : CStr) (message : DbusString)

/-- A string is appended to a reply if the bus accepts it. -/
def appendString (s : CStr) : Option Content := (toDbusString s).map .string

/-! ## Reading arguments -/

/-- `dbus_message_get_args` for one string. -/
def getString : List Value → Option CStr
  | .string s :: _ => some s.1
  | _ => none

/-- `dbus_message_get_args` for two strings. -/
def getString2 : List Value → Option (CStr × CStr)
  | .string s :: .string t :: _ => some (s.1, t.1)
  | _ => none

/-- `dbus_message_get_args` for three strings. -/
def getString3 : List Value → Option (CStr × CStr × CStr)
  | .string s :: .string t :: .string u :: _ => some (s.1, t.1, u.1)
  | _ => none

/-! ## Error names -/

def unknownMethodError : CStr := cstr "org.nongnu.LASH.Error.UnknownMethod"
def invalidArgsError : CStr := cstr "org.nongnu.LASH.Error.InvalidArgs"
def genericError : CStr := cstr "org.nongnu.LASH.Error.Generic"
def unknownProjectError : CStr := cstr "org.nongnu.LASH.Error.UnknownProject"
def unknownClientError : CStr := cstr "org.nongnu.LASH.Error.UnknownClient"
def invalidClientIdError : CStr := cstr "org.nongnu.LASH.Error.InvalidClientId"
def unfinishedTaskError : CStr := cstr "org.nongnu.LASH.Error.UnfinishedTask"
def invalidTaskError : CStr := cstr "org.nongnu.LASH.Error.InvalidTask"

/-! ## Calls -/

/-- `method_call_t`, with the replies that were sent for the call and the state of the program. -/
structure MethodCall (σ : Type) where
  message : CallMessage
  reply : Option ReplyMessage
  sent : List ReplyMessage
  state : σ

/-- What is left of a call after some function, or the replies sent before the process ended. -/
abbrev Handled (σ : Type) := Except (List ReplyMessage) (MethodCall σ)

namespace MethodCall

variable {σ : Type}

/-- `lash_dbus_error`: the message is printed into a buffer of 1024 bytes; there is no reply if the
bus does not accept it. -/
def lashDbusError (call : MethodCall σ) (name : CStr) (parts : List CStr) : MethodCall σ :=
  { call with reply := (toDbusString (parts.flatten.take 1023)).map (.error name) }

/-- `method_return_new_void` -/
def methodReturnNewVoid (call : MethodCall σ) : MethodCall σ :=
  { call with reply := some (.methodReturn []) }

/-- `method_return_new_valist`: there is no reply if an argument cannot be appended. -/
def methodReturnNewValist (call : MethodCall σ) (args : List (Option Content)) : MethodCall σ :=
  { call with reply := (args.mapM id).map .methodReturn }

/-- `method_return_new_single` -/
def methodReturnNewSingle (call : MethodCall σ) (arg : Option Content) : MethodCall σ :=
  { call with reply := arg.map (fun a => .methodReturn [a]) }

/-- `method_return_send`; without a reply a void one is sent. -/
def methodReturnSend (call : MethodCall σ) : MethodCall σ :=
  { call with reply := none, sent := call.sent ++ [call.reply.getD (.methodReturn [])] }

/-- The program goes on in another state. -/
def withState (call : MethodCall σ) (s : σ) : MethodCall σ := { call with state := s }

/-- The process ends. -/
def ends (call : MethodCall σ) : Handled σ := .error call.sent

/-- The error that most handlers make of arguments of the wrong types. -/
def invalidArguments (call : MethodCall σ) : MethodCall σ :=
  call.lashDbusError invalidArgsError
    [cstr "Invalid arguments to method \"", call.message.member, cstr "\""]

/-- The same with what the bus library says about the arguments. -/
def invalidArgumentsBecause (call : MethodCall σ) (why : CStr) : MethodCall σ :=
  call.lashDbusError invalidArgsError
    [cstr "Invalid arguments to method \"", call.message.member, cstr "\": ", why]

end MethodCall

/-! ## Interfaces -/

/-- The function of a method. -/
abbrev Handler (σ : Type) := MethodCall σ → Handled σ

/-- `method_t`; the handler may be NULL. -/
structure Method (σ : Type) where
  name : CStr
  handler : Option (Handler σ)

/-- `interface_t` with the default handler. -/
structure Interface (σ : Type) where
  name : CStr
  methods : List (Method σ)

/-- `object_path_t`; `object_path_new` puts the introspection interface in front of the others. -/
structure ObjectPath (σ : Type) where
  introspection : DbusString
  interfaces : List (Interface σ)

def introspectableInterface : CStr := cstr "org.freedesktop.DBus.Introspectable"

section

variable {σ : Type}

/-- `interface_default_handler`: whether the method was found, and the call. -/
def interfaceDefaultHandler (methods : List (Method σ)) (call : MethodCall σ) :
    Except (List ReplyMessage) (Bool × MethodCall σ) :=
  match methods.find? (fun m => m.name = call.message.member) with
  | none => .ok (false, call)
  | some m =>
    match m.handler with
    | none => .ok (true, call.lashDbusError genericError
        [cstr "Handler for method \"", m.name, cstr "\" is NULL"])
    | some handler =>
      match handler call with
      | .error sent => .error sent
      | .ok call => .ok (true, if call.reply.isNone then call.methodReturnNewVoid else call)

/-- `introspection_handler` -/
def introspectionHandler (introspection : DbusString) (call : MethodCall σ) :
    Except (List ReplyMessage) (Bool × MethodCall σ) :=
  if call.message.member = cstr "Introspect" then
    .ok (true, { call with reply := some (.methodReturn [.string introspection]) })
  else .ok (false, call)

/-- The loop of `object_path_handler` for a call without an interface. -/
def tryInterfaces (call : MethodCall σ) : List (Interface σ) →
    Except (List ReplyMessage) (Bool × MethodCall σ)
  | [] => .ok (false, call)
  | i :: is =>
    match interfaceDefaultHandler i.methods call with
    | .ok (false, call) => tryInterfaces call is
    | r => r

/-- The part of `object_path_handler` that looks for a handler. -/
def callInterfaces (path : ObjectPath σ) (call : MethodCall σ) :
    Except (List ReplyMessage) (Bool × MethodCall σ) :=
  match call.message.interface with
  | some name =>
    if name = introspectableInterface then introspectionHandler path.introspection call
    else
      match path.interfaces.find? (fun i => i.name = name) with
      | none => .ok (false, call)
      | some i => interfaceDefaultHandler i.methods call
  | none =>
    match introspectionHandler path.introspection call with
    | .ok (false, call) => tryInterfaces call path.interfaces
    | r => r

/-- The call as `object_path_handler` initialises it. -/
def MethodCall.fresh (s : σ) (m : CallMessage) : MethodCall σ :=
  { message := m, reply := none, sent := [], state := s }

/-- `object_path_handler` for a method call. -/
def objectPathHandler (path : ObjectPath σ) (s : σ) (m : CallMessage) : Handled σ :=
  match callInterfaces path (.fresh s m) with
  | .error sent => .error sent
  | .ok (true, call) => .ok call.methodReturnSend
  | .ok (false, call) => .ok (call.lashDbusError unknownMethodError
      [cstr "Method \"", m.member, cstr "\" with signature \"", m.signature,
        cstr "\" on interface \"", m.interface.getD (cstr "(null)"),
        cstr "\" doesn't exist"]).methodReturnSend

/-- The replies that were sent. -/
def Handled.replies : Handled σ → List ReplyMessage
  | .error sent => sent
  | .ok call => call.sent

/-- The replies that a program in state `s` sends to a method call. -/
def repliesTo (path : ObjectPath σ) (s : σ) (m : CallMessage) : List ReplyMessage :=
  (objectPathHandler path s m).replies

/-! ## Who replies -/

/-- The method that a call is for. -/
def ObjectPath.methodFor (path : ObjectPath σ) (m : CallMessage) : Option (Method σ) :=
  match m.interface with
  | some name =>
    if name = introspectableInterface then none
    else (path.interfaces.find? (fun i => i.name = name)).bind
      (fun i => i.methods.find? (fun x => x.name = m.member))
  | none =>
    if m.member = cstr "Introspect" then none
    else path.interfaces.findSome? (fun i => i.methods.find? (fun x => x.name = m.member))

/-- The handler of a call, if there is one to run. -/
def ObjectPath.handlerFor (path : ObjectPath σ) (m : CallMessage) : Option (Handler σ) :=
  (path.methodFor m).bind Method.handler

@[simp] theorem sent_lashDbusError (call : MethodCall σ) (name : CStr) (parts : List CStr) :
    (call.lashDbusError name parts).sent = call.sent := rfl
@[simp] theorem sent_methodReturnNewVoid (call : MethodCall σ) :
    call.methodReturnNewVoid.sent = call.sent := rfl
@[simp] theorem sent_methodReturnNewValist (call : MethodCall σ) (args : List (Option Content)) :
    (call.methodReturnNewValist args).sent = call.sent := rfl
@[simp] theorem sent_methodReturnNewSingle (call : MethodCall σ) (arg : Option Content) :
    (call.methodReturnNewSingle arg).sent = call.sent := rfl
@[simp] theorem sent_withState (call : MethodCall σ)
    (s : σ) : (call.withState s).sent = call.sent :=
  rfl
@[simp] theorem sent_invalidArguments (call : MethodCall σ) :
    call.invalidArguments.sent = call.sent := rfl
@[simp] theorem sent_invalidArgumentsBecause (call : MethodCall σ) (why : CStr) :
    (call.invalidArgumentsBecause why).sent = call.sent := rfl

/-- What the default handler makes of a method that was found. -/
def Method.called (x : Method σ) (call : MethodCall σ) :
    Except (List ReplyMessage) (Bool × MethodCall σ) :=
  match x.handler with
  | none => .ok (true, call.lashDbusError genericError
      [cstr "Handler for method \"", x.name, cstr "\" is NULL"])
  | some handler =>
    match handler call with
    | .error sent => .error sent
    | .ok call => .ok (true, if call.reply.isNone then call.methodReturnNewVoid else call)

theorem interfaceDefaultHandler_eq (methods : List (Method σ)) (call : MethodCall σ) :
    interfaceDefaultHandler methods call =
      match methods.find? (fun x => x.name = call.message.member) with
      | none => .ok (false, call)
      | some x => x.called call := rfl

theorem Method.called_found (x : Method σ) (call : MethodCall σ) :
    (∃ sent, x.called call = .error sent) ∨ ∃ call', x.called call = .ok (true, call') := by
  unfold Method.called
  split
  · exact Or.inr ⟨_, rfl⟩
  · split
    · exact Or.inl ⟨_, rfl⟩
    · exact Or.inr ⟨_, rfl⟩

/-- Without an interface the first one that has the method is asked. -/
theorem tryInterfaces_eq (call : MethodCall σ) (is : List (Interface σ)) :
    tryInterfaces call is =
      match is.findSome? (fun i => i.methods.find? (fun x => x.name = call.message.member)) with
      | none => .ok (false, call)
      | some x => x.called call := by
  induction is with
  | nil => rfl
  | cons i is ih =>
      rw [tryInterfaces, interfaceDefaultHandler_eq, List.findSome?_cons]
      cases i.methods.find? (fun x => x.name = call.message.member) with
      | none => exact ih
      | some x =>
          dsimp only
          rcases x.called_found call with ⟨sent, h⟩ | ⟨call', h⟩ <;> rw [h]

/-- `object_path_handler` finds the method that the call is for. -/
theorem callInterfaces_eq (path : ObjectPath σ) (call : MethodCall σ) :
    (path.methodFor call.message = none ∧ ∃ b call', call'.sent = call.sent ∧
      callInterfaces path call = .ok (b, call')) ∨
    ∃ x, path.methodFor call.message = some x ∧ callInterfaces path call = x.called call := by
  have hintro : ∃ b call', call'.sent = call.sent ∧
      introspectionHandler path.introspection call = .ok (b, call') := by
    unfold introspectionHandler
    split
    · exact ⟨true, { call with reply := some _ }, rfl, rfl⟩
    · exact ⟨false, call, rfl, rfl⟩
  unfold ObjectPath.methodFor callInterfaces
  cases call.message.interface with
  | some name =>
      dsimp only
      by_cases hname : name = introspectableInterface
      · rw [if_pos hname, if_pos hname]
        exact Or.inl ⟨rfl, hintro⟩
      · rw [if_neg hname, if_neg hname]
        cases path.interfaces.find? (fun i => i.name = name) with
        | none => exact Or.inl ⟨rfl, false, call, rfl, rfl⟩
        | some i =>
            dsimp only [Option.bind_some]
            rw [interfaceDefaultHandler_eq]
            cases i.methods.find? (fun x => x.name = call.message.member) with
            | none => exact Or.inl ⟨rfl, false, call, rfl, rfl⟩
            | some x => exact Or.inr ⟨x, rfl, rfl⟩
  | none =>
      dsimp only
      unfold introspectionHandler
      by_cases hmember : call.message.member = cstr "Introspect"
      · rw [if_pos hmember, if_pos hmember]
        exact Or.inl ⟨rfl, true, { call with reply := some _ }, rfl, rfl⟩
      · rw [if_neg hmember, if_neg hmember]
        dsimp only
        rw [tryInterfaces_eq]
        cases path.interfaces.findSome?
            (fun i => i.methods.find? (fun x => x.name = call.message.member)) with
        | none => exact Or.inl ⟨rfl, false, call, rfl, rfl⟩
        | some x => exact Or.inr ⟨x, rfl, rfl⟩

/-- A call that has no handler gets one reply. -/
theorem repliesTo_of_none {path : ObjectPath σ} {s : σ} {m : CallMessage}
    (h : path.handlerFor m = none) : (repliesTo path s m).length = 1 := by
  have hsent : ∀ b call', call'.sent = [] → callInterfaces path (.fresh s m) = .ok (b, call') →
      (repliesTo path s m).length = 1 := by
    intro b call' hsent hcall
    unfold repliesTo objectPathHandler
    rw [hcall]
    cases b with
    | false =>
        show (call'.sent ++ [_]).length = 1
        rw [hsent]
        rfl
    | true =>
        show (call'.sent ++ [_]).length = 1
        rw [hsent]
        rfl
  rcases callInterfaces_eq path (.fresh s m) with ⟨-, b, call', hs, hcall⟩ | ⟨x, hx, hcall⟩
  · exact hsent b call' hs hcall
  · have hx' : path.methodFor m = some x := hx
    unfold ObjectPath.handlerFor at h
    rw [hx', Option.bind_some] at h
    unfold Method.called at hcall
    rw [h] at hcall
    exact hsent true _ rfl hcall

/-- **Who replies to a call**: a handler that comes to its end is followed by one reply, whatever it
sent before. -/
theorem repliesTo_of_some {path : ObjectPath σ} {s : σ} {m : CallMessage} {handler : Handler σ}
    (h : path.handlerFor m = some handler) :
    match handler (.fresh s m) with
    | .error sent => repliesTo path s m = sent
    | .ok call => ∃ r, repliesTo path s m = call.sent ++ [r] := by
  unfold ObjectPath.handlerFor at h
  obtain ⟨x, hx, hhandler⟩ := Option.bind_eq_some_iff.mp h
  rcases callInterfaces_eq path (.fresh s m) with ⟨hnone, -⟩ | ⟨y, hy, hcall⟩
  · exact absurd (hnone.symm.trans hx) (by simp)
  · have hxy : y = x := Option.some.inj (hy.symm.trans hx)
    subst hxy
    unfold Method.called at hcall
    rw [hhandler] at hcall
    dsimp only at hcall
    unfold repliesTo objectPathHandler
    cases hres : handler (.fresh s m) with
    | error sent =>
        rw [hres] at hcall
        rw [hcall]
        rfl
    | ok call =>
        rw [hres] at hcall
        rw [hcall]
        dsimp only
        split
        · exact ⟨_, rfl⟩
        · exact ⟨_, rfl⟩

/-! ## Tables of methods

What the methods of a program do is said in a table, with a description of each next to its handler.
The description of a call is found the way its handler is. -/

/-- A method with a handler and a description. -/
structure Described (σ δ : Type) where
  name : CStr
  handler : Handler σ
  description : δ

variable {δ : Type}

def Described.method (x : Described σ δ) : Method σ := ⟨x.name, some x.handler⟩

/-- The entry of the tables that a call is for; each table has the name of its interface. -/
def describedFor (tables : List (CStr × List (Described σ δ))) (m : CallMessage) :
    Option (Described σ δ) :=
  match m.interface with
  | some name =>
    if name = introspectableInterface then none
    else (tables.find? (fun t => t.1 = name)).bind
      (fun t => t.2.find? (fun x => x.name = m.member))
  | none =>
    if m.member = cstr "Introspect" then none
    else tables.findSome? (fun t => t.2.find? (fun x => x.name = m.member))

/-- The object path with the interfaces of the tables. -/
def tablePath (introspection : DbusString) (tables : List (CStr × List (Described σ δ))) :
    ObjectPath σ where
  introspection := introspection
  interfaces := tables.map (fun t => ⟨t.1, t.2.map Described.method⟩)

theorem find?_method (l : List (Described σ δ)) (member : CStr) :
    (l.map Described.method).find? (fun x => x.name = member) =
      (l.find? (fun x => x.name = member)).map Described.method := by
  rw [List.find?_map]
  rfl

theorem methodFor_tablePath (introspection : DbusString)
    (tables : List (CStr × List (Described σ δ))) (m : CallMessage) :
    (tablePath introspection tables).methodFor m =
    (describedFor tables m).map Described.method := by
  unfold ObjectPath.methodFor describedFor tablePath
  cases m.interface with
  | some name =>
      dsimp only
      by_cases hname : name = introspectableInterface
      · rw [if_pos hname, if_pos hname]
        rfl
      · rw [if_neg hname, if_neg hname, List.find?_map]
        cases htable : tables.find? (fun t => t.1 = name) with
        | none =>
            have hnone : tables.find? ((fun i : Interface σ => decide (i.name = name)) ∘
                fun t => ⟨t.1, t.2.map Described.method⟩) = none := htable
            rw [hnone]
            rfl
        | some t =>
            have hsome : tables.find? ((fun i : Interface σ => decide (i.name = name)) ∘
                fun t => ⟨t.1, t.2.map Described.method⟩) = some t := htable
            rw [hsome]
            exact find?_method t.2 m.member
  | none =>
      dsimp only
      by_cases hmember : m.member = cstr "Introspect"
      · rw [if_pos hmember, if_pos hmember]
        rfl
      · rw [if_neg hmember, if_neg hmember, List.findSome?_map]
        induction tables with
        | nil => rfl
        | cons t tables ih =>
            rw [List.findSome?_cons, List.findSome?_cons]
            have hhead := find?_method t.2 m.member
            dsimp only [Function.comp]
            rw [hhead]
            cases t.2.find? (fun x => x.name = m.member) with
            | none => exact ih
            | some x => rfl

theorem handlerFor_tablePath (introspection : DbusString)
    (tables : List (CStr × List (Described σ δ))) (m : CallMessage) :
    (tablePath introspection tables).handlerFor m =
      (describedFor tables m).map Described.handler := by
  unfold ObjectPath.handlerFor
  rw [methodFor_tablePath]
  cases describedFor tables m with
  | none => rfl
  | some x => rfl

/-- What is found is in the tables. -/
theorem describedFor_mem {tables : List (CStr × List (Described σ δ))} {m : CallMessage}
    {x : Described σ δ} (h : describedFor tables m = some x) : ∃ t ∈ tables, x ∈ t.2 := by
  unfold describedFor at h
  split at h
  · split at h
    · cases h
    · obtain ⟨t, ht, hx⟩ := Option.bind_eq_some_iff.mp h
      exact ⟨t, List.mem_of_find?_eq_some ht, List.mem_of_find?_eq_some hx⟩
  · split at h
    · cases h
    · obtain ⟨t, ht, hx⟩ := List.exists_of_findSome?_eq_some h
      exact ⟨t, ht, List.mem_of_find?_eq_some hx⟩

end

end Lash
