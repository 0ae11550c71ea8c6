import Lash.Births
import Lash.Liblash.Signals

/-!
# The name of the project

A client keeps the name of its project, to know which `Save` and `Quit` signals are for it. It
learns the name from the reply to `Connect` and follows it through the signal
`ProjectNameChanged`.

`lash_dbus_signal_handler` gives every control signal it gets to the handler for that signal ("OK
only so far as a normal client doesn't intercept more than one signal"). A client that is a
controller too intercepts all of them, and many have the shape of `ProjectNameChanged` with the
project first.
-/

namespace Lash

/-! ## Knowing the name -/

/-- A client, next to the name of its project after the renames that were announced. -/
structure Named where
  client : LashClient
  name : CStr

/-- What happens to a client: the daemon emits a signal, or the application does something through
the library. -/
inductive ClientInput where
  | signal (s : ControlSignal)
  | application (api : ClientApi)

/-- The name after a signal: a rename of the project changes it. -/
def renamed (name : CStr) : ControlSignal → CStr
  | .projectNameChanged old new => if old.1 = name then new.1 else name
  | _ => name

def Named.step (env : LiblashEnv) (t : Named) : ClientInput → Option Named
  | .signal s => (t.client.deliver env s.message).map (fun c => ⟨c, renamed t.name s⟩)
  | .application api => some { t with client := t.client.withApi api }

/-- The client knows the name. -/
def Named.Knows (t : Named) : Prop := t.client.projectName = nonempty t.name

/-- A client that was just opened, with the name in the reply to `Connect`. -/
def namedOpen (flags : Flags) (wd : CStr) (reply : Option ConnectReply) : Named :=
  let c := lashClientOpen flags wd reply
  ⟨c, c.projectName.getD []⟩

/-- A signal other than `ProjectNameChanged` starts with two strings, like that one: the name and
something else. -/
def ControlSignal.MistakenFor (s : ControlSignal) (name : CStr) : Prop :=
  s.message.member ≠ cstr "ProjectNameChanged" ∧
    ∃ new, getString2 s.message.args = some (name, new) ∧ new ≠ name

/-- The client gets a signal that its handler mistakes for a rename of its project. -/
def Named.Mistakes (t : Named) : ClientInput → Prop
  | .signal s => t.client.isController ≠ 0 ∧ s.MistakenFor t.name
  | .application _ => False

/-! ## Names as strings that may be NULL -/

theorem nonempty_inj {s t : CStr} : nonempty s = nonempty t ↔ s = t := by
  unfold nonempty
  constructor
  · intro h
    split at h
    · next hs =>
        split at h
        · next ht => rw [hs, ht]
        · cases h
    · split at h
      · cases h
      · exact Option.some.inj h
  · exact fun h => by rw [h]

theorem nonempty_getD (s : CStr) : nonempty ((nonempty s).getD []) = nonempty s := by
  unfold nonempty
  by_cases h : s = []
  · rw [if_pos h]
    rfl
  · rw [if_neg h]
    exact if_neg h

theorem inProject_of_knows {c : LashClient} {name : CStr} (h : c.projectName = nonempty name)
    (old : CStr) : c.inProject old = decide (old = name) := by
  unfold LashClient.inProject
  rw [h]
  unfold nonempty
  by_cases hname : name = []
  · rw [if_pos hname, hname]
  · rw [if_neg hname]
    exact decide_eq_decide.mpr eq_comm

/-! ## One step -/

/-- The client is plain or both client and controller, and knows the name. -/
structure Named.Inv (t : Named) : Prop where
  role : t.client.isController ≠ 1
  knows : t.Knows

theorem inv_namedOpen (flags : Flags) (wd : CStr) (reply : Option ConnectReply) :
    (namedOpen flags wd reply).Inv := by
  have hconnect : ∃ n, (lashDbusServiceConnectHandler (lashClientNew flags wd) reply).projectName =
      nonempty n ∧
      (lashDbusServiceConnectHandler (lashClientNew flags wd) reply).isController = 0 := by
    cases reply with
    | none => exact ⟨[], rfl, rfl⟩
    | some r =>
        unfold lashDbusServiceConnectHandler
        dsimp only
        cases uuidParse r.id.1 with
        | none => exact ⟨[], rfl, rfl⟩
        | some id => exact ⟨r.project.1, rfl, rfl⟩
  obtain ⟨n, hname, hrole⟩ := hconnect
  have hopen : (lashClientOpen flags wd reply).projectName = nonempty n ∧
      (lashClientOpen flags wd reply).isController ≠ 1 := by
    unfold lashClientOpen
    dsimp only
    split
    · refine ⟨hname, ?_⟩
      show (2 : UInt8) ≠ 1
      decide
    · refine ⟨hname, ?_⟩
      rw [hrole]
      decide
  refine ⟨hopen.2, ?_⟩
  show (lashClientOpen flags wd reply).projectName =
    nonempty ((lashClientOpen flags wd reply).projectName.getD [])
  rw [hopen.1, nonempty_getD]

/-- Nothing but the handler of renames changes the project or the role of a client. -/
theorem notify_keeps {env : LiblashEnv} {c c' : LashClient} {cb : Option FunPtr}
    (h : notify env c cb = some c') :
    c'.projectName = c.projectName ∧ c'.isController = c.isController := by
  cases cb with
  | none =>
      cases h
      exact ⟨rfl, rfl⟩
  | some f =>
      obtain ⟨r, -, rfl⟩ := Option.map_eq_some_iff.mp h
      exact ⟨rfl, rfl⟩

theorem lashControlSignalHandler_keeps {env : LiblashEnv} {c c' : LashClient} {m : SignalMessage}
    (h : lashControlSignalHandler env c m = some c') :
    c'.projectName = c.projectName ∧ c'.isController = c.isController := by
  unfold lashControlSignalHandler at h
  split at h
  · cases h
    exact ⟨rfl, rfl⟩
  · split at h
    · cases h
      exact ⟨rfl, rfl⟩
    · split at h
      · cases h
        exact ⟨rfl, rfl⟩
      · obtain ⟨api, -, rfl⟩ := Option.map_eq_some_iff.mp h
        exact ⟨rfl, rfl⟩

/-- The name that `lash_project_name_changed_handler` makes of a message, whatever its member. -/
def nameAfter (name : CStr) (args : List Value) : CStr :=
  match getString2 args with
  | none => name
  | some (old, new) => if old = name then new else name

theorem lashProjectNameChangedHandler_name {env : LiblashEnv} {c c' : LashClient}
    {m : SignalMessage} {name : CStr} (hc : c.projectName = nonempty name)
    (h : lashProjectNameChangedHandler env c m = some c') :
    c'.projectName = nonempty (nameAfter name m.args) ∧ c'.isController = c.isController := by
  unfold lashProjectNameChangedHandler at h
  unfold nameAfter
  cases hargs : getString2 m.args with
  | none =>
      rw [hargs] at h
      cases h
      exact ⟨hc, rfl⟩
  | some r =>
      rw [hargs] at h
      dsimp only at h ⊢
      rw [inProject_of_knows hc] at h
      by_cases hold : r.1 = name
      · rw [if_pos hold]
        rw [if_pos (decide_eq_true hold)] at h
        exact notify_keeps h
      · rw [if_neg hold]
        rw [if_neg (by simpa using hold)] at h
        cases h
        exact ⟨hc, rfl⟩

/-- What a client makes of a signal that it gets. -/
theorem lashDbusSignalHandler_name {env : LiblashEnv} {c c' : LashClient} {m : SignalMessage}
    {name : CStr} (hrole : c.isController ≠ 1) (hc : c.projectName = nonempty name)
    (h : lashDbusSignalHandler env c m = some c') :
    c'.projectName = nonempty (nameAfter name m.args) ∧ c'.isController = c.isController := by
  unfold lashDbusSignalHandler at h
  rw [if_pos hrole] at h
  cases hchanged : lashProjectNameChangedHandler env c m with
  | none =>
      rw [hchanged] at h
      cases h
  | some d =>
      rw [hchanged] at h
      obtain ⟨hname, hd⟩ := lashProjectNameChangedHandler_name hc hchanged
      dsimp only at h
      split at h
      · obtain ⟨hname', hd'⟩ := lashControlSignalHandler_keeps h
        exact ⟨hname'.trans hname, hd'.trans hd⟩
      · cases h
        exact ⟨hname, hd⟩

/-- A rename is the only signal with its member, and the handler treats it as one. -/
theorem nameAfter_of_member {s : ControlSignal} (name : CStr)
    (h : s.message.member = cstr "ProjectNameChanged") :
    nameAfter name s.message.args = renamed name s := by
  cases s with
  | projectNameChanged old new => rfl
  | _ =>
      simp only [ControlSignal.message] at h
      exact absurd h (by decide)

theorem renamed_of_member_ne {s : ControlSignal} (name : CStr)
    (h : s.message.member ≠ cstr "ProjectNameChanged") : renamed name s = name := by
  cases s with
  | projectNameChanged old new => exact absurd rfl h
  | _ => rfl

/-- The handler keeps the name exactly if it does not mistake the signal. -/
theorem nameAfter_eq_iff {s : ControlSignal} {name : CStr}
    (h : s.message.member ≠ cstr "ProjectNameChanged") :
    nameAfter name s.message.args = name ↔ ¬ s.MistakenFor name := by
  unfold nameAfter ControlSignal.MistakenFor
  cases hargs : getString2 s.message.args with
  | none => simp
  | some r =>
      obtain ⟨old, new⟩ := r
      dsimp only
      by_cases hold : old = name
      · rw [if_pos hold, hold]
        simp [h]
      · rw [if_neg hold]
        simp [hold]

/-- **One step**: the client knows the name afterwards exactly if it does not mistake the signal. -/
theorem Named.Inv.step {env : LiblashEnv} {t u : Named} {i : ClientInput} (ht : t.Inv)
    (h : t.step env i = some u) :
    u.client.isController = t.client.isController ∧ (u.Knows ↔ ¬ t.Mistakes i) := by
  cases i with
  | application api =>
      cases h
      exact ⟨rfl, iff_of_true ht.knows (fun h => h)⟩
  | signal s =>
      obtain ⟨c, hc, rfl⟩ := Option.map_eq_some_iff.mp h
      unfold LashClient.deliver at hc
      by_cases hlistens : t.client.listens s.message = true
      · rw [if_pos hlistens] at hc
        obtain ⟨hname, hrole⟩ := lashDbusSignalHandler_name ht.role ht.knows hc
        refine ⟨hrole, ?_⟩
        unfold Named.Knows Named.Mistakes
        dsimp only
        rw [hname, nonempty_inj]
        by_cases hmember : s.message.member = cstr "ProjectNameChanged"
        · exact iff_of_true (nameAfter_of_member _ hmember) (fun hm => hm.2.1 hmember)
        · rw [renamed_of_member_ne _ hmember, nameAfter_eq_iff hmember]
          -- a plain client would not have got the signal
          have hcontroller : t.client.isController ≠ 0 := by
            unfold LashClient.listens at hlistens
            simpa [hmember] using hlistens
          exact not_congr ⟨fun hm => ⟨hcontroller, hm⟩, fun hm => hm.2⟩
      · rw [if_neg hlistens] at hc
        cases hc
        refine ⟨rfl, ?_⟩
        unfold LashClient.listens at hlistens
        obtain ⟨hplain, hmember⟩ : t.client.isController = 0 ∧
            s.message.member ≠ cstr "ProjectNameChanged" := by
          simpa using hlistens
        refine iff_of_true ?_ (fun hm => hm.1 hplain)
        unfold Named.Knows
        dsimp only
        rw [renamed_of_member_ne _ hmember]
        exact ht.knows

/-! ## Runs -/

/-- **A client knows the name of its project** after each signal of a run exactly if it mistakes
none of them for a rename. -/
theorem project_name_known_iff (env : LiblashEnv) (flags : Flags) (wd : CStr)
    (reply : Option ConnectReply) (is : List ClientInput) :
    Runs.Throughout (Named.step env) (fun _ _ u => u.Knows) (namedOpen flags wd reply) is ↔
      Runs.Throughout (Named.step env) (fun t i _ => ¬ t.Mistakes i)
        (namedOpen flags wd reply) is := by
  refine Runs.throughout_congr (I := Named.Inv) ?_ ?_ (inv_namedOpen flags wd reply) is
  · intro t i u ht hu hknows
    refine ⟨?_, hknows⟩
    rw [(ht.step hu).1]
    exact ht.role
  · exact fun t i u ht hu => (ht.step hu).2

/-- A plain client knows the name whatever happens. -/
theorem plain_client_knows (env : LiblashEnv) (flags : Flags) (wd : CStr)
    (reply : Option ConnectReply) (is : List ClientInput)
    (hplain : (lashClientOpen flags wd reply).isController = 0) :
    Runs.Throughout (Named.step env) (fun _ _ u => u.Knows) (namedOpen flags wd reply) is := by
  have hrun : ∀ (is : List ClientInput) (t : Named), t.Inv → t.client.isController = 0 →
      Runs.Throughout (Named.step env) (fun _ _ u => u.Knows) t is := by
    intro is
    induction is with
    | nil => exact fun _ _ _ => trivial
    | cons i is ih =>
        intro t ht hzero u hu
        obtain ⟨hrole, hknows⟩ := ht.step hu
        have hu' : u.Knows := by
          refine hknows.mpr fun hm => ?_
          cases i with
          | signal s => exact hm.1 hzero
          | application api => exact hm
        exact ⟨hu', ih u ⟨by rw [hrole]; exact ht.role, hu'⟩ (hrole.trans hzero)⟩
  exact hrun is _ (inv_namedOpen flags wd reply) hplain

/-- The reply to a client that is the first one of the daemon, and a controller too. -/
def controllerReply : ConnectReply where
  id := ⟨uuidUnparse 1, by decide +kernel⟩
  name := ⟨cstr "synth", by decide +kernel⟩
  project := ⟨cstr "New Project", by decide +kernel⟩
  dataPath := ⟨[], by decide⟩
  flags := flagServerInterface
  workingDir := ⟨[], by decide⟩

/-- The description of its project is announced. -/
def loudAnnounced : ControlSignal :=
  .projectDescriptionChanged ⟨cstr "New Project", by decide +kernel⟩
    ⟨cstr "loud", by decide +kernel⟩

/-- The project "New Project" gets a description, and a client that is a controller too takes the
description for the new name of its project. -/
theorem project_name_lost :
    ¬ ∀ (s u : Server) (is : List Input) env flags wd reply, is.foldlM Server.step s = some u →
      Runs.Throughout (Named.step env) (fun _ _ u => u.Knows) (namedOpen flags wd reply)
        (((s.news u).filterMap Event.controlSignal).map .signal) := by
  intro hall
  have hrun :
      ([.connect (cstr ":1") 5 (cstr "synth") flagServerInterface [] [cstr "synth"] 1].foldlM
      Server.step (Server.start Server.emptyDisk (cstr "/p"))).any (fun s =>
    ([.projectSetDescription (cstr "New Project") (cstr "loud")].foldlM Server.step s).any (fun u =>
      (s.news u).filterMap Event.controlSignal = [loudAnnounced])) = true := by
    decide +kernel
  obtain ⟨s, -, hs⟩ := (Option.any_eq_true _ _).mp hrun
  obtain ⟨u, hu, hsignals⟩ := (Option.any_eq_true _ _).mp hs
  have hknows := hall s u _ ⟨false, fun _ _ => none, fun _ _ _ => none, fun _ _ _ => none, [], none⟩
    flagServerInterface [] (some controllerReply) hu
  rw [of_decide_eq_true hsignals] at hknows
  have hlost : ((namedOpen flagServerInterface [] (some controllerReply)).step
      ⟨false, fun _ _ => none, fun _ _ _ => none, fun _ _ _ => none, [], none⟩
      (.signal loudAnnounced)).any (fun t => t.client.projectName ≠ nonempty t.name) = true := by
    decide +kernel
  obtain ⟨t, ht, hnot⟩ := (Option.any_eq_true _ _).mp hlost
  exact of_decide_eq_true hnot (hknows t ht).1

end Lash
