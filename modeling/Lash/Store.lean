import Lash.File

/-!
# Data-set stores

A store keeps the data set of one client in a directory: an info file `.store_info` that lists the
keys, and one file for each key that holds the value. `storeSetConfig` puts a value into memory,
`storeWrite` puts what is in memory on the disk, `storeOpen` reads the key list back and
`storeGetConfig` a value.

Every function takes the store and the file system and returns them as the C function leaves them.
-/

namespace Lash

/-- `STORE_INFO_FILE` -/
def storeInfoFile : CStr := cstr ".store_info"

/-- The type bytes of the API. -/
abbrev typeDouble : UInt8 := 100
abbrev typeInteger : UInt8 := 117
abbrev typeString : UInt8 := 115
abbrev typeRaw : UInt8 := 45

/-- A value that is in memory only. `value` are the `value_size` bytes in use, `room` is the size of
the buffer that holds them. -/
structure StoreConfig where
  key : CStr
  value : List UInt8
  room : Nat
  type : UInt8
  deriving DecidableEq, Repr

structure Store where
  dir : CStr
  numKeys : Nat
  keys : List CStr
  removedKeys : List CStr
  unstoredConfigs : List StoreConfig
  deriving DecidableEq, Repr

/-- `store_new`, with the directory its caller sets at once. -/
def storeNew (dir : CStr) : Store :=
  { dir, numKeys := 0, keys := [], removedKeys := [], unstoredConfigs := [] }

def Store.infoFilename (st : Store) : CStr := lashGetFqn st.dir storeInfoFile

def Store.configFilename (st : Store) (key : CStr) : CStr := lashGetFqn st.dir key

/-! ## Reading the key list -/

/-- `getline`: the next line with its newline, and the rest; `none` at the end of the file. -/
def getline (data : List UInt8) : Option (List UInt8 × List UInt8) :=
  if data = [] then none
  else
    match data.dropWhile (· ≠ newline) with
    | [] => some (data, [])
    | nl :: rest => some (data.takeWhile (· ≠ newline) ++ [nl], rest)

/-- A line as the C string `line`, after `strchr(line, '\n')` was overwritten with a NUL. -/
def lineKey (line : List UInt8) : CStr := line.takeWhile (fun b => b ≠ 0 ∧ b ≠ newline)

/-- The number of keys in the first line: `strtol` without overflow, stopping at the newline. A
negative number is stored in an `unsigned long`. -/
def parseNumKeys (line : List UInt8) : Option Nat :=
  let (n, rest) := (scanNumber line).getD (0, line)
  if n < -2 ^ 63 ∨ 2 ^ 63 ≤ n then none
  else if rest.head? = some newline then some (n % 2 ^ 64).toNat
  else none

/-- The loop that reads `n` keys: `none` when the file ends too early. -/
def readKeys : Nat → List UInt8 → Option (List CStr)
  | 0, _ => some []
  | n + 1, data =>
    match getline data with
    | none => none
    | some (line, rest) => (readKeys n rest).map (lineKey line :: ·)

/-- `store_open`: the result and the store. A store that could not be opened has no keys. -/
def storeOpen (st : Store) (fs : Fs) : Bool × Store :=
  if ¬ fs.lashDirExists st.dir then (false, st)
  else if ¬ fs.lashFileExists st.infoFilename then (false, st)
  else
    match getline ((fs.read st.infoFilename).getD []) with
    | none => (false, { st with numKeys := 0 })
    | some (line, rest) =>
      match parseNumKeys line with
      | none => (false, { st with numKeys := 0 })
      | some n =>
        match readKeys n rest with
        | none => (false, { st with numKeys := 0, keys := [] })
        | some ks => (true, { st with numKeys := n, keys := st.keys ++ ks })

/-! ## Writing -/

/-- A 32-bit number in network byte order, truncated as the assignment to `uint32_t` does. -/
def be32 (n : Nat) : List UInt8 :=
  [(n / 2 ^ 24 % 256).toUInt8, (n / 2 ^ 16 % 256).toUInt8, (n / 2 ^ 8 % 256).toUInt8,
    (n % 256).toUInt8]

/-- `store_write_config`: value size, value, type. -/
def storeWriteConfig (st : Store) (fs : Fs) (config : StoreConfig) : Bool × Fs :=
  if config.value.length = 0 then (false, fs)
  else
    let f := st.configFilename config.key
    let (ok, fs) := fs.creat f
    if ¬ ok then (false, fs)
    else
      let (ok, fs) := fs.write f (be32 config.value.length)
      if ¬ ok then (false, (fs.close f).2)
      else
        let (ok, fs) := fs.write f config.value
        if ¬ ok then (false, (fs.close f).2)
        else
          let (ok, fs) := fs.write f [config.type]
          if ¬ ok then (false, (fs.close f).2)
          else fs.close f

/-- `store_write_configs` on the list of unstored configs: those that could not be written stay. -/
def storeWriteConfigs (st : Store) (fs : Fs) : List StoreConfig → Bool × List StoreConfig × Fs
  | [] => (true, [], fs)
  | config :: rest =>
    let (ok, fs) := storeWriteConfig st fs config
    let (okRest, left, fs) := storeWriteConfigs st fs rest
    if ok then (okRest, left, fs) else (false, config :: left, fs)

/-- The lines of the keys in an info file. -/
def writeKeyLines (fs : Fs) (f : CStr) : List CStr → Bool × Fs
  | [] => (true, fs)
  | key :: keys =>
    let (ok, fs) := fs.write f (key ++ [newline])
    if ok then writeKeyLines fs f keys else (false, fs)

/-- `store_write_info_file` -/
def storeWriteInfoFile (st : Store) (fs : Fs) : Bool × Fs :=
  let f := st.infoFilename
  let (ok, fs) := fs.creat f
  if ¬ ok then (false, fs)
  else
    let (ok, fs) := fs.write f (decimal st.numKeys ++ [newline])
    if ¬ ok then (false, (fs.close f).2)
    else
      let (ok, fs) := writeKeyLines fs f st.keys
      if ¬ ok then (false, (fs.close f).2)
      else fs.close f

/-- `store_delete_removed_configs`: a key whose file cannot be unlinked stays on the list. -/
def storeDeleteRemovedConfigs (st : Store) (fs : Fs) : List CStr → List CStr × Fs
  | [] => ([], fs)
  | key :: rest =>
    let f := st.configFilename key
    if fs.lashFileExists f then
      let (ok, fs) := fs.unlink f
      let (left, fs) := storeDeleteRemovedConfigs st fs rest
      if ok then (left, fs) else (key :: left, fs)
    else storeDeleteRemovedConfigs st fs rest

/-- `store_write` -/
def storeWrite (st : Store) (fs : Fs) : Bool × Store × Fs :=
  if st.unstoredConfigs = [] then (true, st, fs)
  else
    let fs := if fs.lashDirExists st.dir then fs else fs.lashCreateDir st.dir
    let (ok, left, fs) := storeWriteConfigs st fs st.unstoredConfigs
    let st := { st with unstoredConfigs := left }
    if ¬ ok then (false, st, fs)
    else
      let (ok, fs) := storeWriteInfoFile st fs
      if ¬ ok then (false, st, fs)
      else
        let (removed, fs) := storeDeleteRemovedConfigs st fs st.removedKeys
        (true, { st with unstoredConfigs := [], removedKeys := removed }, fs)

/-! ## Access -/

/-- Overwrite the config of a key, or add one at the end of the list. -/
def putConfig (key : CStr) (value : List UInt8) (type : UInt8) : List StoreConfig → List StoreConfig
  | [] => [{ key, value, room := value.length, type }]
  | c :: cs =>
    if c.key = key then
      { key, value, room := if c.value.length < value.length then value.length else c.room, type }
        :: cs
    else c :: putConfig key value type cs

/-- `store_set_config`; a NULL value is one of no bytes. -/
def storeSetConfig (st : Store) (key : CStr) (value : List UInt8) (type : UInt8) : Bool × Store :=
  if key = [] ∨ value = [] then (false, st)
  else
    let st :=
      if key ∈ st.keys then st else { st with keys := st.keys ++ [key], numKeys := st.numKeys + 1 }
    (true, { st with unstoredConfigs := putConfig key value type st.unstoredConfigs })

/-- `store_get_unstored_config` -/
def storeGetUnstoredConfig (st : Store) (key : CStr) : Option StoreConfig :=
  st.unstoredConfigs.find? (fun c => c.key = key)

/-- The number in the first four bytes of a value file. -/
def readBe32 : List UInt8 → Option (Nat × List UInt8)
  | a :: b :: c :: d :: rest =>
    some (a.toNat * 2 ^ 24 + b.toNat * 2 ^ 16 + c.toNat * 2 ^ 8 + d.toNat, rest)
  | _ => none

/-- What `store_get_config` makes of the bytes of a value file: value and type. A missing type byte
means raw data. -/
def parseConfigFile (data : List UInt8) : Option (List UInt8 × UInt8) :=
  match readBe32 data with
  | none => none
  | some (size, rest) =>
    if size = 0 ∨ rest.length < size then none
    else match rest.drop size with
      | [] => some (rest.take size, typeRaw)
      | t :: _ =>
        if t = typeDouble ∨ t = typeInteger ∨ t = typeString ∨ t = typeRaw then
          some (rest.take size, t)
        else none

/-- `store_get_config`: the value and its type. -/
def storeGetConfig (st : Store) (fs : Fs) (key : CStr) : Option (List UInt8 × UInt8) :=
  match storeGetUnstoredConfig st key with
  | some c => some (c.value, c.type)
  | none => (fs.read (st.configFilename key)).bind parseConfigFile

end Lash
