import Lash.Dependency

/-!
# Clients: stores, names, and the project file

The parts of `lashd/client.c` that concern one client only. A function returns the client and the
disk as it leaves them.
-/

namespace Lash

/-! ## The store of a client -/

/-- `client_store_open`: whatever the old store still had in memory is written first. The client has
a store afterwards even if it could not be opened. -/
def clientStoreOpen (fs : Fs) (c : Client) (dir : CStr) : Bool × Client × Fs :=
  let fs :=
    match c.store with
    | some st => (storeWrite st fs).2.2
    | none => fs.lashCreateDir dir
  let (ok, st) := storeOpen (storeNew dir) fs
  (ok, { c with store := some st }, fs)

/-- `client_store_close` -/
def clientStoreClose (fs : Fs) (c : Client) : Bool × Client × Fs :=
  match c.store with
  | none => (true, c, fs)
  | some st =>
    let (ok, _, fs) := storeWrite st fs
    (ok, { c with store := none }, fs)

/-- `client_find_by_name` -/
def clientFindByName (l : List Client) (name : CStr) : Option Client :=
  l.find? (fun c => c.name = some name)

/-! ## Reading a client from a project file -/

/-- `strtoul(s, NULL, 10)`, assigned to the flags. -/
def parseFlags (s : CStr) : Flags :=
  match scanNumber s with
  | none => 0
  | some (n, _) => if 2 ^ 64 ≤ n.natAbs then BitVec.allOnes 32 else BitVec.ofInt 32 n

/-- The children of a node that have a name. -/
def childrenNamed (n : XmlNode) (name : String) : List XmlNode :=
  n.children.filter (fun m => m.name = cstr name)

/-- One `<id>` in a `<dependencies>` element. -/
def parseDependency (lost : List Client) (c : Client) (n : XmlNode) : Option Client :=
  match uuidParse n.getContent with
  | some id => clientDependencyAdd lost c id
  | none => some c

/-- The arguments of a client, with some more; the array is made for the first one. -/
def addArgs (argv : Option (List CStr)) (args : List CStr) : Option (List CStr) :=
  if args = [] then argv else some (argv.getD [] ++ args)

theorem addArgs_getD (argv : Option (List CStr)) (args : List CStr) :
    (addArgs argv args).getD [] = argv.getD [] ++ args := by
  unfold addArgs
  split
  · next hnil => rw [hnil, List.append_nil]
  · rfl

/-- One child of a `<client>` element. -/
def parseClientNode (lost : List Client) (c : Client) (n : XmlNode) : Option Client :=
  if n.name = cstr "class" then some { c with cls := some n.getContent }
  else if n.name = cstr "id" then
    let id := (uuidParse n.getContent).getD c.id
    some { c with id := id, idStr := uuidUnparse id }
  else if n.name = cstr "name" then some { c with name := some n.getContent }
  else if n.name = cstr "flags" then some { c with flags := parseFlags n.getContent }
  else if n.name = cstr "working_directory" then some { c with workingDir := some n.getContent }
  else if n.name = cstr "arg_set" then
    some { c with argv := addArgs c.argv ((childrenNamed n "arg").map XmlNode.getContent) }
  else if n.name = cstr "dependencies" then
    (childrenNamed n "id").foldlM (parseDependency lost) c
  else some c

/-- `client_parse_xml`; `lost` are the clients of the project read so far. -/
def clientParseXml (lost : List Client) (c : Client) (parent : XmlNode) : Option Client :=
  parent.children.foldlM (parseClientNode lost) c

end Lash
