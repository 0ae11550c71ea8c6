import Lash.Store

/-!
# Data sets in D-Bus messages

A data set travels as an array of dict entries, key to variant. `commitConfigs` is the loop that
takes the entries of a `CommitDataSet` call into a store, `storeCreateConfigArray` the one that
makes the array of a `LoadDataSet` call from a store.

The bus library delivers and accepts only well-formed strings and bounded arrays; `DbusString` and
`DbusBytes` carry that guarantee.
-/

namespace Lash

/-! ## Values -/

/-- What the bus accepts as a string: UTF-8 without NUL, short enough for a message. -/
def IsDbusString (s : CStr) : Prop :=
  (ByteArray.mk s.toArray).IsValidUTF8 ∧ 0 ∉ s ∧ s.length < 2 ^ 27

instance (s : CStr) : Decidable (IsDbusString s) :=
  inferInstanceAs (Decidable (_ ∧ _ ∧ _))

/-- A string in a message. -/
abbrev DbusString := { s : CStr // IsDbusString s }

/-- A byte array in a message. -/
abbrev DbusBytes := { s : List UInt8 // s.length ≤ 2 ^ 26 }

/-- A variant. The API uses the first four kinds; `array` is an array of anything but bytes,
`basic` a value of another type. -/
inductive Variant where
  | double (bits : BitVec 64)
  | uint32 (n : BitVec 32)
  | string (s : DbusString)
  | bytes (s : DbusBytes)
  | array
  | basic (type : UInt8)
  deriving DecidableEq

/-- An element of the array of a `CommitDataSet` call. In a dict entry, `none` is a key that is no
string, a value that is no variant, or a variant without a value. -/
inductive ArrayElem where
  | dictEntry (key : Option DbusString) (value : Option Variant)
  | other

/-- An entry of a data set. -/
abbrev Entry := DbusString × Variant

/-! ## Bytes of numbers -/

/-- The `k` bytes of a number in host order, lowest first. -/
def leBytes : Nat → Nat → List UInt8
  | 0, _ => []
  | k + 1, n => (n % 256).toUInt8 :: leBytes k (n / 256)

/-- The number in host order in some bytes. -/
def leValue : List UInt8 → Nat
  | [] => 0
  | b :: bs => b.toNat + 256 * leValue bs

/-! ## From a message into a store -/

/-- `method_iter_get_dict_entry`: the key, the bytes of the value and its type; for a string the
terminating NUL is one of the bytes. An unknown type has no bytes. -/
def methodIterGetDictEntry : ArrayElem → Option (CStr × List UInt8 × UInt8)
  | .dictEntry (some key) (some v) =>
    match v with
    | .double bits => some (key.1, leBytes 8 bits.toNat, typeDouble)
    | .uint32 n => some (key.1, leBytes 4 n.toNat, typeInteger)
    | .string s => some (key.1, s.1 ++ [0], typeString)
    | .bytes s => some (key.1, s.1, typeRaw)
    | .array => none
    | .basic t => some (key.1, [], t)
  | _ => none

/-- `get_and_set_config` -/
def getAndSetConfig (st : Store) (elem : ArrayElem) : Bool × Store :=
  match methodIterGetDictEntry elem with
  | none => (false, st)
  | some (key, value, type) =>
    if type = typeDouble ∨ type = typeInteger ∨ type = typeString ∨ type = typeRaw then
      storeSetConfig st key value type
    else (false, st)

/-- The loop of `lashd_dbus_commit_data_set`: it stops at the first entry it cannot take; what was
taken before stays in the store. -/
def commitConfigs (st : Store) : List ArrayElem → Bool × Store
  | [] => (true, st)
  | elem :: elems =>
    match getAndSetConfig st elem with
    | (true, st) => commitConfigs st elems
    | (false, st) => (false, st)

/-! ## From a store into a message -/

/-- A string is appended if the bus accepts it. -/
def toDbusString (s : CStr) : Option DbusString :=
  if h : IsDbusString s then some ⟨s, h⟩ else none

/-- The variant that `method_iter_append_dict_entry` makes of a value. The outer `none` is a read
behind the end of the value: a number shorter than its type, a string without NUL. The inner `none`
is a value the bus does not accept. -/
def configVariant (value : List UInt8) (type : UInt8) : Option (Option Variant) :=
  if type = typeDouble then
    if value.length < 8 then none
    else some (some (.double (BitVec.ofNat 64 (leValue (value.take 8)))))
  else if type = typeInteger then
    if value.length < 4 then none
    else some (some (.uint32 (BitVec.ofNat 32 (leValue (value.take 4)))))
  else if type = typeString then
    if 0 ∉ value then none
    else some ((toDbusString (value.takeWhile (· ≠ 0))).map .string)
  else if type = typeRaw then
    if h : value.length ≤ 2 ^ 26 then some (some (.bytes ⟨value, h⟩)) else some none
  else some none

/-- `store_create_config_array`: a key whose value cannot be read is skipped. The outer `none` is
a read out of bounds, the inner one the result `false`. The key is appended before the value is
read, so a key that the bus does not accept ends the loop without a look at the value. -/
def storeCreateConfigArray (st : Store) (fs : Fs) : List CStr → Option (Option (List Entry))
  | [] => some (some [])
  | key :: keys =>
    match storeGetConfig st fs key with
    | none => storeCreateConfigArray st fs keys
    | some (value, type) =>
      match toDbusString key with
      | none => some none
      | some k =>
        match configVariant value type with
        | none => none
        | some none => some none
        | some (some v) =>
          (storeCreateConfigArray st fs keys).map (fun r => r.map ((k, v) :: ·))

end Lash
