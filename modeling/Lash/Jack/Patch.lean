import Lash.Types
import Mathlib.Logic.Function.Basic

/-!
# JACK patches and the graph

`lashd/jack_patch.c` as it is built for jackdbus, and what the JACK server says about its clients
and their connections. A patch names each of its ends by the id of a LASH client or by the name of
a JACK client. The descriptions of the ends are texts for the log and are left out.
-/

namespace Lash

/-! ## Patches -/

structure JackPatch where
  srcClient : Option CStr
  srcClientId : Uuid
  srcPort : CStr
  destClient : Option CStr
  destClientId : Uuid
  destPort : CStr
  deriving DecidableEq

/-- `jack_patch_new_with_all` -/
def jackPatchNewWithAll (srcUuid destUuid : Option Uuid)
    (srcName destName srcPort destPort : CStr) :
    JackPatch where
  srcClient := if srcUuid.isSome then none else some srcName
  srcClientId := srcUuid.getD 0
  srcPort := srcPort
  destClient := if destUuid.isSome then none else some destName
  destClientId := destUuid.getD 0
  destPort := destPort

/-- One end of a patch is the one that `jack_patch_find_by_description` looks for. Without an id the
names are compared, and a patch that has no name there is a NULL pointer that is followed. -/
def endMatches (client : Option CStr) (id : Uuid) (uuid : Option Uuid)
    (name : CStr) : Option Bool :=
  match uuid with
  | some u => some (id ≠ 0 && u = id)
  | none => client.map (· = name)

/-- A connection between two ports, as the JACK server describes it. -/
structure GraphPatch where
  srcId : Nat
  srcName : CStr
  srcPort : CStr
  destId : Nat
  destName : CStr
  destPort : CStr
  deriving DecidableEq

/-- The test of `jack_patch_find_by_description` for one patch of the list. -/
def JackPatch.fits (patch : JackPatch) (srcUuid destUuid : Option Uuid) (g : GraphPatch) :
    Option Bool :=
  if patch.srcPort ≠ g.srcPort ∨ patch.destPort ≠ g.destPort then some false
  else
    match endMatches patch.srcClient patch.srcClientId srcUuid g.srcName with
    | some true => endMatches patch.destClient patch.destClientId destUuid g.destName
    | r => r

/-- Take the patch that `jack_patch_find_by_description` finds out of the list. -/
def delFitting (srcUuid destUuid : Option Uuid) (g : GraphPatch) :
    List JackPatch → Option (List JackPatch)
  | [] => some []
  | patch :: rest =>
    match patch.fits srcUuid destUuid g with
    | none => none
    | some true => some rest
    | some false => (delFitting srcUuid destUuid g rest).map (patch :: ·)

/-! ## The graph -/

structure GraphClient where
  id : Nat
  name : CStr
  ports : List CStr
  deriving DecidableEq

/-- What `GetGraph` returns. -/
structure Graph where
  version : Nat
  clients : List GraphClient
  patches : List GraphPatch
  deriving DecidableEq

/-- The JACK server: whether it runs, its graph, and what `GetClientPID` says about its clients. -/
structure JackServer where
  running : Bool
  graph : Graph
  pid : Nat → Int

namespace JackServer

variable (j : JackServer)

/-- Every change of the graph gives it a new version. -/
def change (clients : List GraphClient) (patches : List GraphPatch) : JackServer :=
  { j with graph := { version := j.graph.version + 1, clients, patches } }

/-- A client without ports comes up. -/
def addClient (id : Nat) (name : CStr) (pid : Int) : JackServer :=
  { j.change (j.graph.clients ++ [{ id, name, ports := [] }]) j.graph.patches with
    pid := Function.update j.pid id pid }

/-- A client goes away with its connections. -/
def delClient (id : Nat) : JackServer :=
  j.change (j.graph.clients.filter (fun c => c.id ≠ id))
    (j.graph.patches.filter (fun p => p.srcId ≠ id ∧ p.destId ≠ id))

def addPort (id : Nat) (port : CStr) : JackServer :=
  j.change
    (j.graph.clients.map (fun c => if c.id = id then { c with ports := c.ports ++ [port] } else c))
    j.graph.patches

/-- A port goes away with its connections. -/
def delPort (id : Nat) (port : CStr) : JackServer :=
  j.change
    (j.graph.clients.map (fun c => if c.id = id then { c with ports := c.ports.erase port } else c))
    (j.graph.patches.filter (fun p =>
      ¬ (p.srcId = id ∧ p.srcPort = port) ∧ ¬ (p.destId = id ∧ p.destPort = port)))

def connect (p : GraphPatch) : JackServer := j.change j.graph.clients (j.graph.patches ++ [p])

def disconnect (p : GraphPatch) : JackServer := j.change j.graph.clients (j.graph.patches.erase p)

/-- The name of the client with an id. -/
def clientName (id : Nat) : Option CStr := (j.graph.clients.find? (fun c => c.id = id)).map (·.name)

/-- There is this port. -/
def HasPort (id : Nat) (port : CStr) : Prop := ∃ c ∈ j.graph.clients, c.id = id ∧ port ∈ c.ports

end JackServer

end Lash
