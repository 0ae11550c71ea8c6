import Lash.Commit
import Lash.Liblash.Client

/-!
# The client library: configs

`liblash/lash_config.c`. `lash_config_write` and `lash_config_write_raw` append an entry to the
message of a `CommitDataSet` call, `lash_config_read` takes the next entry from the message of a
`LoadDataSet` call. Numbers travel in network byte order inside a D-Bus value of their type.
-/

namespace Lash

/-! ## Calls -/

/-- `lash_config_handle_t`: the entries of the message, and whether they are there to be read. -/
structure LashConfigHandle where
  isRead : Bool
  iter : List ArrayElem

/-- What the pointer `value` of `lash_config_write` points to, as the type that comes with it
says. -/
inductive ConfigValue where
  | double (bits : BitVec 64)
  | integer (n : BitVec 32)
  | string (s : CStr) (h : 0 ∉ s)
  | other

/-- `method_iter_append_dict_entry`, for a key and a value that the bus accepts; `value` are the
bytes that are read at the pointer. -/
def methodIterAppendDictEntry (handle : LashConfigHandle) (type : UInt8) (key : CStr)
    (value : List UInt8) : Option LashConfigHandle :=
  match toDbusString key, configVariant value type with
  | some k, some (some v) =>
      some { handle with iter := handle.iter ++ [.dictEntry (some k) (some v)] }
  | _, _ => none

/-- `lash_config_write`; `none` is the result `false`. -/
def lashConfigWrite (handle : LashConfigHandle) (key : CStr) (value : ConfigValue) :
    Option LashConfigHandle :=
  if key = [] ∨ handle.isRead = true then none
  else
    match value with
    | .double bits =>
        methodIterAppendDictEntry handle typeDouble key (leBytes 8 bits.toNat).reverse
    | .integer n => methodIterAppendDictEntry handle typeInteger key (leBytes 4 n.toNat).reverse
    | .string s _ => methodIterAppendDictEntry handle typeString key (s ++ [0])
    | .other => none

/-- `lash_config_write_raw`; `none` is the result `false`. -/
def lashConfigWriteRaw (handle : LashConfigHandle) (key : CStr) (buf : List UInt8) :
    Option LashConfigHandle :=
  if key = [] ∨ buf.length < 1 ∨ handle.isRead = true then none
  else methodIterAppendDictEntry handle typeRaw key buf

/-- What `lash_config_read` stores through its pointers, and the size that it returns. A string is
stored with its terminating NUL. -/
structure ConfigRead where
  key : CStr
  value : List UInt8
  type : UInt8
  size : Nat
  deriving DecidableEq

/-- `lash_config_read` for an entry, with the type. -/
def configRead (elem : ArrayElem) : Option ConfigRead :=
  (lashConfigRead elem).bind fun (size, config) =>
    (methodIterGetDictEntry elem).map fun (_, _, type) => ⟨config.key, config.value, type, size⟩

/-- `lash_config_read`: the result, what it stores, and the handle. An entry whose value it cannot
use is passed over. -/
def lashConfigReadCall (handle : LashConfigHandle) :
    Int × Option ConfigRead × LashConfigHandle :=
  if ¬ handle.isRead then (-1, none, handle)
  else
    match handle.iter with
    | [] => (0, none, handle)
    | elem :: elems =>
      match methodIterGetDictEntry elem with
      | none => (-1, none, handle)
      | some _ =>
        match configRead elem with
        | none => (-1, none, { handle with iter := elems })
        | some r => (r.size, some r, { handle with iter := elems })

/-- The results of a number of calls of `lash_config_read`, and what they store. -/
def readCalls : Nat → LashConfigHandle → List (Int × Option ConfigRead)
  | 0, _ => []
  | n + 1, handle =>
    let (result, stored, handle) := lashConfigReadCall handle
    (result, stored) :: readCalls n handle

/-- Repeated calls give these configs, and then 0. -/
def Gives (handle : LashConfigHandle) (rs : List ConfigRead) : Prop :=
  ∀ n, readCalls (rs.length + n) handle =
    rs.map (fun r => ((r.size : Int), some r)) ++ List.replicate n (0, none)

/-- A call of one of the two functions that write. -/
inductive ConfigCall where
  | write (key : CStr) (value : ConfigValue)
  | writeRaw (key : CStr) (buf : List UInt8)

namespace ConfigCall

def run (handle : LashConfigHandle) : ConfigCall → Option LashConfigHandle
  | .write key value => lashConfigWrite handle key value
  | .writeRaw key buf => lashConfigWriteRaw handle key buf

def key : ConfigCall → CStr
  | .write key _ | .writeRaw key _ => key

/-- The bytes of the value, a string with its terminating NUL. -/
def value : ConfigCall → List UInt8
  | .write _ (.double bits) => leBytes 8 bits.toNat
  | .write _ (.integer n) => leBytes 4 n.toNat
  | .write _ (.string s _) => s ++ [0]
  | .write _ .other => []
  | .writeRaw _ buf => buf

def type : ConfigCall → UInt8
  | .write _ (.double _) => typeDouble
  | .write _ (.integer _) => typeInteger
  | .write _ (.string _ _) => typeString
  | .write _ .other => 0
  | .writeRaw _ _ => typeRaw

/-- What reading is to give for the config that was written: the size is that of the value, for a
string with the terminating NUL. -/
def documented (c : ConfigCall) : ConfigRead := ⟨c.key, c.value, c.type, c.value.length⟩

/-- The call writes a string. -/
def IsString (c : ConfigCall) : Prop := c.type = typeString

instance (c : ConfigCall) : Decidable c.IsString := inferInstanceAs (Decidable (_ = _))

end ConfigCall

/-- The entries of the message that a callback writes. -/
def writeCalls (cs : List ConfigCall) : Option (List ArrayElem) :=
  (cs.foldlM ConfigCall.run ⟨false, []⟩).map LashConfigHandle.iter

/-! ## One entry -/

/-- Bytes are the bytes of their number. -/
theorem leBytes_leValue (bs : List UInt8) : leBytes bs.length (leValue bs) = bs := by
  induction bs with
  | nil => rfl
  | cons b bs ih =>
      have hb : b.toNat < 256 := b.toNat_lt
      rw [List.length_cons, leBytes, leValue]
      congr 1
      · have hmod : (b.toNat + 256 * leValue bs) % 256 = b.toNat := by omega
        rw [hmod]
        exact UInt8.ofNat_toNat
      · have hdiv : (b.toNat + 256 * leValue bs) / 256 = leValue bs := by omega
        rw [hdiv]
        exact ih

theorem leValue_lt (bs : List UInt8) : leValue bs < 256 ^ bs.length := by
  induction bs with
  | nil => exact Nat.one_pos
  | cons b bs ih =>
      have hb : b.toNat < 256 := b.toNat_lt
      rw [List.length_cons, Nat.pow_succ, leValue]
      omega

/-- The bytes of a number of some width that was made of bytes. -/
theorem leBytes_ofNat {w k : Nat} (hw : 2 ^ w = 256 ^ k) {bs : List UInt8} (h : bs.length = k) :
    leBytes k (BitVec.ofNat w (leValue bs)).toNat = bs := by
  have hlt := leValue_lt bs
  rw [h, ← hw] at hlt
  rw [BitVec.toNat_ofNat, Nat.mod_eq_of_lt hlt]
  calc leBytes k (leValue bs) = leBytes bs.length (leValue bs) := by rw [h]
    _ = bs := leBytes_leValue bs

/-- A number is decoded. -/
theorem configRead_double (k : DbusString) (bits : BitVec 64) :
    configRead (Entry.elem (k, .double bits)) =
      some ⟨k.1, (leBytes 8 bits.toNat).reverse, typeDouble, 8⟩ := rfl

theorem configRead_uint32 (k : DbusString) (n : BitVec 32) :
    configRead (Entry.elem (k, .uint32 n)) =
      some ⟨k.1, (leBytes 4 n.toNat).reverse, typeInteger, 4⟩ := rfl

theorem configRead_bytes (k : DbusString) (s : DbusBytes) :
    configRead (Entry.elem (k, .bytes s)) = some ⟨k.1, s.1, typeRaw, s.1.length⟩ := rfl

/-- The size of a string is read without its NUL, and the empty one is an error. -/
theorem configRead_string (k s : DbusString) :
    configRead (Entry.elem (k, .string s)) =
      if s.1 = [] then none else some ⟨k.1, s.1 ++ [0], typeString, s.1.length⟩ := by
  have hread : lashConfigRead (Entry.elem (k, .string s)) =
      if (s.1 ++ [0]).length - 1 < 1 then none
      else some ((s.1 ++ [0]).length - 1, ⟨k.1, s.1 ++ [0]⟩) := rfl
  have hlength : (s.1 ++ [0]).length - 1 = s.1.length := by simp
  unfold configRead
  rw [hread, hlength]
  by_cases hs : s.1 = []
  · rw [if_pos hs, if_pos (by rw [hs]; exact Nat.one_pos)]
    rfl
  · have hpos := List.length_pos_iff.mpr hs
    rw [if_neg hs, if_neg (by omega)]
    rfl

/-- The entry that a call appends: it has the key and a value that a store takes. Unless it is a
string it is read as documented. -/
structure ConfigCall.Carries (c : ConfigCall) (e : Entry) : Prop where
  key : e.1.1 = c.key
  key_ne : c.key ≠ []
  storable : e.2.Storable
  read : ¬ c.IsString → configRead e.elem = some c.documented

theorem methodIterAppendDictEntry_some {handle handle' : LashConfigHandle} {type : UInt8}
    {key : CStr}
    {value : List UInt8} (h : methodIterAppendDictEntry handle type key value = some handle') :
    ∃ k v, k.1 = key ∧ configVariant value type = some (some v) ∧
      handle' = { handle with iter := handle.iter ++ [Entry.elem (k, v)] } := by
  unfold methodIterAppendDictEntry at h
  split at h
  · next k v hk hv =>
      refine ⟨k, v, ?_, hv, (Option.some.inj h).symm⟩
      unfold toDbusString at hk
      split at hk
      · rw [← Option.some.inj hk]
      · cases hk
  · cases h

/-- A call that returns true appends one entry. -/
theorem ConfigCall.run_some {c : ConfigCall} {handle handle' : LashConfigHandle}
    (h : c.run handle = some handle') :
    ∃ e, c.Carries e ∧ handle' = { handle with iter := handle.iter ++ [e.elem] } := by
  cases c with
  | writeRaw key buf =>
      unfold run lashConfigWriteRaw at h
      dsimp only at h
      split at h
      · cases h
      · next hargs =>
          obtain ⟨hkey, hbuf, -⟩ := not_or.mp hargs |>.imp_right not_or.mp
          obtain ⟨k, v, rfl, hv, rfl⟩ := methodIterAppendDictEntry_some h
          unfold configVariant at hv
          rw [if_neg (by decide), if_neg (by decide), if_neg (by decide), if_pos rfl] at hv
          split at hv
          · next hsize =>
              obtain rfl := Option.some.inj (Option.some.inj hv)
              have hne : Variant.Storable (.bytes ⟨buf, hsize⟩) := by
                rintro rfl
                exact hbuf Nat.one_pos
              exact ⟨_, ⟨rfl, hkey, hne, fun _ => configRead_bytes k _⟩, rfl⟩
          · cases hv
  | write key value =>
      unfold run lashConfigWrite at h
      dsimp only at h
      split at h
      · cases h
      · next hargs =>
          obtain ⟨hkey, -⟩ := not_or.mp hargs
          cases value with
          | double bits =>
              obtain ⟨k, v, rfl, hv, rfl⟩ := methodIterAppendDictEntry_some h
              have hlength : (leBytes 8 bits.toNat).reverse.length = 8 := by
                rw [List.length_reverse, leBytes_length]
              unfold configVariant at hv
              rw [if_pos rfl, if_neg (by omega), List.take_of_length_le (by omega)] at hv
              obtain rfl := Option.some.inj (Option.some.inj hv)
              refine ⟨(k, .double _), ⟨rfl, hkey, True.intro, fun _ => ?_⟩, rfl⟩
              rw [configRead_double, leBytes_ofNat (by norm_num) hlength, List.reverse_reverse]
              unfold documented
              rw [show ConfigCall.value (.write k.1 (.double bits)) = leBytes 8 bits.toNat from rfl,
                leBytes_length]
              rfl
          | integer n =>
              obtain ⟨k, v, rfl, hv, rfl⟩ := methodIterAppendDictEntry_some h
              have hlength : (leBytes 4 n.toNat).reverse.length = 4 := by
                rw [List.length_reverse, leBytes_length]
              unfold configVariant at hv
              rw [if_neg (by decide), if_pos rfl, if_neg (by omega),
                List.take_of_length_le (by omega)] at hv
              obtain rfl := Option.some.inj (Option.some.inj hv)
              refine ⟨(k, .uint32 _), ⟨rfl, hkey, True.intro, fun _ => ?_⟩, rfl⟩
              rw [configRead_uint32, leBytes_ofNat (by norm_num) hlength, List.reverse_reverse]
              unfold documented
              rw [show ConfigCall.value (.write k.1 (.integer n)) = leBytes 4 n.toNat from rfl,
                leBytes_length]
              rfl
          | string s hs =>
              obtain ⟨k, v, rfl, hv, rfl⟩ := methodIterAppendDictEntry_some h
              unfold configVariant at hv
              rw [if_neg (by decide), if_neg (by decide), if_pos rfl, if_neg (by simp)] at hv
              obtain ⟨x, -, rfl⟩ := Option.map_eq_some_iff.mp (Option.some.inj hv)
              exact ⟨(k, .string x), ⟨rfl, hkey, True.intro, fun hnot => absurd rfl hnot⟩, rfl⟩
          | other => cases h

/-- A string is never read as documented. -/
theorem configRead_ne_documented {c : ConfigCall} (hc : c.IsString) {e : Entry} :
    configRead e.elem ≠ some c.documented := by
  obtain ⟨k, v⟩ := e
  intro hread
  have hsize : c.documented.size = c.documented.value.length := rfl
  have htype : c.documented.type = typeString := hc
  generalize c.documented = r at hread hsize htype
  cases v with
  | double bits =>
      cases hread
      exact absurd (show typeDouble = typeString from htype) (by decide)
  | uint32 n =>
      cases hread
      exact absurd (show typeInteger = typeString from htype) (by decide)
  | bytes s =>
      cases hread
      exact absurd (show typeRaw = typeString from htype) (by decide)
  | string s =>
      rw [configRead_string] at hread
      split at hread
      · cases hread
      · cases hread
        simp at hsize
  | array => cases hread
  | basic t =>
      obtain ⟨⟨size, config⟩, hconfig, hentry⟩ := Option.bind_eq_some_iff.mp hread
      cases hentry
      have ht : t = typeString := htype
      subst ht
      cases hconfig

/-- The key is passed on with the value. -/
theorem configRead_key {k : DbusString} {v : Variant} {r : ConfigRead}
    (h : configRead (Entry.elem (k, v)) = some r) (k' : DbusString) :
    r.key = k.1 ∧ configRead (Entry.elem (k', v)) = some { r with key := k'.1 } := by
  cases v with
  | double | uint32 | bytes =>
      cases h
      exact ⟨rfl, rfl⟩
  | string s =>
      rw [configRead_string] at h ⊢
      split at h
      · cases h
      · next hs =>
          cases h
          exact ⟨rfl, if_neg hs⟩
  | array => cases h
  | basic t =>
      have hread : ∀ k : DbusString, configRead (Entry.elem (k, .basic t)) =
          if t = typeDouble ∨ t = typeInteger then some ⟨k.1, [], t, 0⟩
          else if t = typeString then none
          else if t = typeRaw then some ⟨k.1, [], t, 0⟩ else none := by
        intro k
        unfold configRead lashConfigRead
        simp only [Entry.elem, methodIterGetDictEntry]
        split
        · rfl
        · split
          · rfl
          · split
            · rfl
            · rfl
      rw [hread] at h ⊢
      split at h
      · next hnumber =>
          cases h
          exact ⟨rfl, if_pos hnumber⟩
      · next hnumber =>
          split at h
          · cases h
          · next hstring =>
              split at h
              · next hraw =>
                  cases h
                  refine ⟨rfl, ?_⟩
                  rw [if_neg hnumber, if_neg hstring, if_pos hraw]
              · cases h

/-! ## A message -/

/-- Calls that all return true append an entry each. -/
theorem foldlM_run {cs : List ConfigCall} {handle handle' : LashConfigHandle}
    (h : cs.foldlM ConfigCall.run handle = some handle') :
    ∃ ps : List (ConfigCall × Entry), ps.map Prod.fst = cs ∧ (∀ p ∈ ps, p.1.Carries p.2) ∧
      handle' = { handle with iter := handle.iter ++ (ps.map Prod.snd).map Entry.elem } := by
  induction cs generalizing handle with
  | nil =>
      cases h
      exact ⟨[], rfl, by simp, by simp⟩
  | cons c cs ih =>
      rw [List.foldlM_cons] at h
      obtain ⟨next, hnext, hrest⟩ := Option.bind_eq_some_iff.mp h
      obtain ⟨e, he, rfl⟩ := ConfigCall.run_some hnext
      obtain ⟨ps, rfl, hps, rfl⟩ := ih hrest
      exact ⟨(c, e) :: ps, rfl, List.forall_mem_cons.mpr ⟨he, hps⟩, by simp⟩

theorem writeCalls_some {cs : List ConfigCall} {elems : List ArrayElem}
    (h : writeCalls cs = some elems) :
    ∃ ps : List (ConfigCall × Entry), ps.map Prod.fst = cs ∧ (∀ p ∈ ps, p.1.Carries p.2) ∧
      elems = (ps.map Prod.snd).map Entry.elem := by
  obtain ⟨handle, hrun, rfl⟩ := Option.map_eq_some_iff.mp h
  obtain ⟨ps, hcs, hps, rfl⟩ := foldlM_run hrun
  exact ⟨ps, hcs, hps, rfl⟩

/-- When there is nothing left to read, there never is. -/
theorem readCalls_nil (n : Nat) : readCalls n ⟨true, []⟩ = List.replicate n (0, none) := by
  induction n with
  | zero => rfl
  | succ n ih =>
      show (0, none) :: readCalls n ⟨true, []⟩ = _
      rw [ih, List.replicate_succ]

/-- **Repeated calls give the entries** of a message one after the other. -/
theorem gives_iff (elems : List ArrayElem) (rs : List ConfigRead) :
    Gives ⟨true, elems⟩ rs ↔ elems.map configRead = rs.map some := by
  induction elems generalizing rs with
  | nil =>
      cases rs with
      | nil =>
        exact iff_of_true (fun n => by rw [List.length_nil, Nat.zero_add, readCalls_nil]; rfl) rfl
      | cons r rs =>
          refine iff_of_false (fun h => ?_) (by simp)
          have hfirst := h 0
          rw [readCalls_nil] at hfirst
          simp [List.replicate_succ] at hfirst
  | cons elem elems ih =>
      have hcall : ∀ n, readCalls (n + 1) ⟨true, elem :: elems⟩ =
          match configRead elem with
          | some r => ((r.size : Int), some r) :: readCalls n ⟨true, elems⟩
          | none => (-1, none) :: readCalls n
              (if (methodIterGetDictEntry elem).isSome then ⟨true, elems⟩ else
              ⟨true, elem :: elems⟩) := by
        intro n
        rw [readCalls, lashConfigReadCall]
        dsimp only
        rw [if_neg (by simp)]
        cases hentry : methodIterGetDictEntry elem with
        | none =>
            have hnone : configRead elem = none := by
              unfold configRead lashConfigRead
              rw [hentry]
              rfl
            rw [hnone]
            rfl
        | some x =>
            cases configRead elem with
            | none => rfl
            | some r => rfl
      cases rs with
      | nil =>
          refine iff_of_false (fun h => ?_) (by simp)
          have hfirst := h 1
          rw [List.length_nil, Nat.zero_add, hcall] at hfirst
          cases hr : configRead elem with
          | none =>
              rw [hr] at hfirst
              simp at hfirst
          | some r =>
              rw [hr] at hfirst
              simp at hfirst
      | cons r rs =>
          rw [List.map_cons, List.map_cons, List.cons.injEq, ← ih]
          have hlength : ∀ n, (r :: rs).length + n = rs.length + n + 1 := by
            intro n
            rw [List.length_cons]
            omega
          constructor
          · intro h
            have hread : configRead elem = some r := by
              have hfirst := h 0
              rw [hlength, hcall] at hfirst
              cases hr : configRead elem with
              | none =>
                  rw [hr] at hfirst
                  simp at hfirst
              | some q =>
                  rw [hr] at hfirst
                  simp only [List.map_cons, List.cons_append, List.cons.injEq, Prod.mk.injEq]
                    at hfirst
                  exact hfirst.1.2
            refine ⟨hread, fun n => ?_⟩
            have hn := h n
            rw [hlength, hcall, hread] at hn
            exact (List.cons.inj hn).2
          · rintro ⟨hread, h⟩ n
            rw [hlength, hcall, hread]
            dsimp only
            rw [h n]
            rfl

end Lash
