import Lash.Commit

/-!
# Value files, good and bad

What `storeGetConfig` makes of a value file, whatever is in it: a file is read if and only if it
is the size of a value in network byte order, the value, and one of the types or nothing more
(`HoldsConfig`, `config_files_read_back`).

Nothing relates the type of a value to its size. `storeCreateConfigArray` appends a double or a
number by its first bytes and a string up to its NUL, so a damaged file makes it read behind the
value (`array_stays_inside_iff`).
-/

namespace Lash

/-! ## What a file holds -/

/-- The number that four bytes are in network byte order gives these bytes again. -/
theorem readBe32_some {data rest : List UInt8} {n : Nat} (h : readBe32 data = some (n, rest)) :
    n < 2 ^ 32 ∧ data = be32 n ++ rest := by
  unfold readBe32 at h
  split at h
  · next a b c d tail =>
      obtain ⟨rfl, rfl⟩ := Prod.mk.inj (Option.some.inj h)
      have ha := a.toNat_lt
      have hb := b.toNat_lt
      have hc := c.toNat_lt
      have hd := d.toNat_lt
      refine ⟨by omega, ?_⟩
      have hbyte : ∀ {x : UInt8} {m : Nat}, m = x.toNat → m.toUInt8 = x := by
        rintro x m rfl
        exact UInt8.ofNat_toNat
      rw [be32, hbyte (x := a) (by omega), hbyte (x := b) (by omega), hbyte (x := c) (by omega),
        hbyte (x := d) (by omega)]
      rfl
  · cases h

/-- The bytes of a file are the size of a value, the value, and its type. The type of raw data can
be left out, and what follows the type does not matter. -/
def HoldsConfig (data value : List UInt8) (type : UInt8) : Prop :=
  value ≠ [] ∧ value.length < 2 ^ 32 ∧ ∃ rest, data = be32 value.length ++ value ++ rest ∧
    (rest = [] ∧ type = typeRaw ∨ ∃ more, rest = type :: more ∧ ApiType type)

theorem HoldsConfig.of_parse {data value : List UInt8} {type : UInt8}
    (h : parseConfigFile data = some (value, type)) : HoldsConfig data value type := by
  obtain ⟨hne, hlen, htype⟩ := parseConfigFile_length h
  unfold parseConfigFile at h
  split at h
  · cases h
  · next size rest hread =>
      obtain ⟨-, rfl⟩ := readBe32_some hread
      split at h
      · cases h
      · next hsize =>
          rw [not_or, not_lt] at hsize
          have htake : (rest.take size).length = size := List.length_take_of_le hsize.2
          -- what follows the value is either nothing or starts with the type
          have hheld : rest.take size = value → (rest.drop size = [] ∧ type = typeRaw ∨
              ∃ more, rest.drop size = type :: more ∧ ApiType type) →
              HoldsConfig (be32 size ++ rest) value type := by
            rintro rfl hrest
            refine ⟨hne, hlen, rest.drop size, ?_, hrest⟩
            rw [htake, List.append_assoc, List.take_append_drop]
          split at h
          · next hdrop =>
              obtain ⟨hvalue, hraw⟩ := Prod.mk.inj (Option.some.inj h)
              exact hheld hvalue (.inl ⟨hdrop, hraw.symm⟩)
          · next t more hdrop =>
              split at h
              · obtain ⟨hvalue, rfl⟩ := Prod.mk.inj (Option.some.inj h)
                exact hheld hvalue (.inr ⟨more, hdrop, htype⟩)
              · cases h

theorem HoldsConfig.parse {data value : List UInt8} {type : UInt8}
    (h : HoldsConfig data value type) :
    parseConfigFile data = some (value, type) := by
  obtain ⟨hne, hlen, rest, rfl, hrest⟩ := h
  have hzero : value.length ≠ 0 := fun h => hne (List.length_eq_zero_iff.mp h)
  have hmod : value.length % 2 ^ 32 = value.length := Nat.mod_eq_of_lt hlen
  rw [parseConfigFile, List.append_assoc, readBe32_be32]
  simp only [hmod]
  rw [if_neg (by simp [hne]), List.drop_left, List.take_left]
  rcases hrest with ⟨rfl, rfl⟩ | ⟨more, rfl, htype⟩
  · rfl
  · exact if_pos htype

/-- **A value file is read** if and only if it holds a config. -/
theorem parseConfigFile_iff {data value : List UInt8} {type : UInt8} :
    parseConfigFile data = some (value, type) ↔ HoldsConfig data value type :=
  ⟨.of_parse, HoldsConfig.parse⟩

/-- A file is the only source of a value that is not in memory. -/
theorem storeGetConfig_of_file {st : Store} {fs : Fs} {key : CStr}
    (h : storeGetUnstoredConfig st key = none) :
    storeGetConfig st fs key = (fs.read (st.configFilename key)).bind parseConfigFile := by
  rw [storeGetConfig, h]

/-! ## Writing and reading -/

/-- **A value that was written is read back, and a file is read if and only if it holds a
config.** -/
theorem config_files_read_back (st : Store) (fs : Fs) :
    (∀ config : StoreConfig, config.value ≠ [] → config.value.length < 2 ^ 32 →
      ApiType config.type →
      (storeWriteConfig st fs config).1 = true →
      ∀ st' : Store, st'.dir = st.dir → storeGetUnstoredConfig st' config.key = none →
        storeGetConfig st' (storeWriteConfig st fs config).2 config.key
          = some (config.value, config.type)) ∧
    ∀ key, storeGetUnstoredConfig st key = none →
      ∀ data, fs.read (st.configFilename key) = some data →
        ∀ value type, storeGetConfig st fs key = some (value, type) ↔
          HoldsConfig data value type := by
  constructor
  · intro config hne hlen htype hok st' hdir hnone
    have hread := (storeWriteConfig_spec st fs config).2 hok
    have hfile : st'.configFilename config.key = st.configFilename config.key := by
      rw [Store.configFilename, Store.configFilename, hdir]
    rw [storeGetConfig_of_file hnone, hfile, hread, Option.bind_some]
    exact (parseConfigFile_configBytes _ _).mpr ⟨hne, hlen, htype⟩
  · intro key hnone data hread value type
    rw [storeGetConfig_of_file hnone, hread, Option.bind_some]
    exact parseConfigFile_iff

/-- A store in a directory that is there, with nothing in memory. -/
def mixStore : Store := { storeNew (cstr "/d") with keys := [cstr "gain"], numKeys := 1 }

/-- The directory, with a file that breaks off in front of its type. -/
def mixFs : Fs where
  entries := [([cstr "d"], .dir), ([cstr "d", cstr "old"], .file [0, 0, 0, 2, 7, 8])]
  faults := []

/-- A number is read back, and so are the raw data without a type. -/
theorem config_files_read_back_two :
    storeGetConfig mixStore
        (storeWriteConfig mixStore mixFs ⟨cstr "gain", [1, 2, 3, 4], 4, typeInteger⟩).2
        (cstr "gain")
      = some ([1, 2, 3, 4], typeInteger) ∧
    storeGetConfig mixStore mixFs (cstr "old") = some ([7, 8], typeRaw) := by
  obtain ⟨hwritten, hread⟩ := config_files_read_back mixStore mixFs
  refine ⟨hwritten ⟨cstr "gain", [1, 2, 3, 4], 4, typeInteger⟩ (by decide) (by decide) (by decide)
    (by decide +kernel) mixStore rfl rfl, ?_⟩
  refine (hread (cstr "old") rfl [0, 0, 0, 2, 7, 8] (by decide +kernel) [7, 8] typeRaw).mpr ?_
  exact ⟨by decide, by decide, [], by decide, .inl ⟨rfl, rfl⟩⟩

/-! ## Appending -/

/-- A value has all the bytes that are read of one of its type. -/
def LargeEnough (value : List UInt8) (type : UInt8) : Prop :=
  (type = typeDouble → 8 ≤ value.length) ∧ (type = typeInteger → 4 ≤ value.length) ∧
    (type = typeString → 0 ∈ value)

instance (value : List UInt8) (type : UInt8) : Decidable (LargeEnough value type) :=
  inferInstanceAs (Decidable (_ ∧ _ ∧ _))

/-- Appending stays inside a value if and only if the value is large enough. -/
theorem configVariant_ne_none {value : List UInt8} {type : UInt8} :
    configVariant value type ≠ none ↔ LargeEnough value type := by
  unfold configVariant LargeEnough
  split_ifs with hd hlen hi hlen hs hzero hr hmax
  all_goals grind

/-- The entries that `store_create_config_array` appends, as it has them from `store_get_config`:
the last one is the one that fails, or that is read behind its end. -/
def storeConfigsAppended (st : Store) (fs : Fs) : List CStr → List (CStr × List UInt8 × UInt8)
  | [] => []
  | key :: keys =>
    match storeGetConfig st fs key with
    | none => storeConfigsAppended st fs keys
    | some (value, type) =>
      if toDbusString key = none then []
      else (key, value, type) ::
        if ((configVariant value type).getD none).isSome then storeConfigsAppended st fs
          keys else []

/-- The array is made without a read out of bounds if and only if every value that is appended is
large enough. -/
theorem storeCreateConfigArray_ne_none {st : Store} {fs : Fs} {keys : List CStr} :
    storeCreateConfigArray st fs keys ≠ none ↔
      ∀ e ∈ storeConfigsAppended st fs keys, LargeEnough e.2.1 e.2.2 := by
  induction keys with
  | nil => simp [storeCreateConfigArray, storeConfigsAppended]
  | cons key keys ih =>
      rw [storeCreateConfigArray, storeConfigsAppended]
      cases hget : storeGetConfig st fs key with
      | none => exact ih
      | some config =>
          obtain ⟨value, type⟩ := config
          dsimp only
          cases hkey : toDbusString key with
          | none => simp
          | some k =>
              rw [if_neg (by simp)]
              dsimp only
              rcases hvar : configVariant value type with _ | _ | v
              · have hsmall : ¬ LargeEnough value type := fun h => configVariant_ne_none.mpr h hvar
                simp [hsmall]
              · have hlarge : LargeEnough value type :=
                  configVariant_ne_none.mp (by rw [hvar]; simp)
                simp [hlarge]
              · have hlarge : LargeEnough value type :=
                  configVariant_ne_none.mp (by rw [hvar]; simp)
                simp only [Option.getD_some, Option.isSome_some, if_true, List.forall_mem_cons,
                  ← ih, hlarge, true_and, ne_eq, Option.map_eq_none_iff]

/-! ## Values from the bus -/

/-- What a store has in memory came in messages: the bus takes the keys, and each value makes the
variant that it came from. -/
def Store.FromBus (st : Store) : Prop :=
  ∀ c ∈ st.unstoredConfigs, IsDbusString c.key ∧
    ∃ v, configVariant c.value c.type = some (some v)

theorem storeOpen_fromBus (dir : CStr) (fs : Fs) : (storeOpen (storeNew dir) fs).2.FromBus := by
  intro c hc
  rw [(storeOpen_spec dir fs).2.2.1] at hc
  exact absurd hc List.not_mem_nil

/-- What is taken from a message makes its variant again. -/
theorem takenEntry_fromBus {elem : ArrayElem} {x : Setting} (h : takenEntry elem = some x) :
    IsDbusString x.key ∧ ∃ v, configVariant x.value x.type = some (some v) := by
  have hof : ∀ (k : DbusString) (v : Variant), elem = Entry.elem (k, v) → v.Storable → x.key = k.1 →
      IsDbusString x.key ∧ ∃ v, configVariant x.value x.type = some (some v) := by
    rintro k v rfl hstorable hkey
    obtain ⟨y, hy, -, -, hvar⟩ := takenEntry_elem (e := (k, v)) (hkey ▸ x.key_ok.1) hstorable
    rw [h] at hy
    rw [Option.some.inj hy]
    exact ⟨Option.some.inj hy ▸ hkey ▸ k.2, v, hvar⟩
  unfold takenEntry at h
  rcases elem with ⟨_ | k, _ | v⟩ | _
  · cases h
  · cases h
  · cases h
  · cases v with
    | double bits =>
        rw [methodIterGetDictEntry] at h
        dsimp only at h
        split at h
        · exact hof k _ rfl trivial (by rw [← Option.some.inj h])
        · cases h
    | uint32 n =>
        rw [methodIterGetDictEntry] at h
        dsimp only at h
        split at h
        · exact hof k _ rfl trivial (by rw [← Option.some.inj h])
        · cases h
    | string t =>
        rw [methodIterGetDictEntry] at h
        dsimp only at h
        split at h
        · exact hof k _ rfl trivial (by rw [← Option.some.inj h])
        · cases h
    | bytes t =>
        rw [methodIterGetDictEntry] at h
        dsimp only at h
        split at h
        · next hgood => exact hof k _ rfl hgood.2.1 (by rw [← Option.some.inj h])
        · cases h
    | array => cases h
    | basic t =>
        rw [methodIterGetDictEntry] at h
        dsimp only at h
        split at h
        · next hgood => exact absurd rfl hgood.2.1
        · cases h
  · cases h

theorem Store.FromBus.set {st : Store} (h : st.FromBus) {elem : ArrayElem} {x : Setting}
    (hx : takenEntry elem = some x) : (storeSetConfig st x.key x.value x.type).2.FromBus := by
  intro c hc
  rw [(storeSetConfig_fields st x.key_ok.1 x.value_ok x.type).2.2.2] at hc
  rcases mem_putConfig hc with hc | ⟨hkey, hvalue, htype⟩
  · exact h c hc
  · rw [hkey, hvalue, htype]
    exact takenEntry_fromBus hx

/-- A data set that is committed, as far as it can be taken. -/
theorem Store.FromBus.commit {st : Store} (h : st.FromBus) (elems : List ArrayElem) :
    (commitConfigs st elems).2.FromBus := by
  induction elems generalizing st with
  | nil => exact h
  | cons elem elems ih =>
      rw [commitConfigs, getAndSetConfig_eq]
      cases htaken : takenEntry elem with
      | none => exact h
      | some x => exact ih (h.set htaken)

theorem Store.FromBus.write {st : Store} (h : st.FromBus) (fs : Fs) :
    (storeWrite st fs).2.1.FromBus := by
  have hsub := (storeWriteConfigs_frame st (st.prepare fs) st.unstoredConfigs).2.1
  intro c hc
  by_cases hempty : st.unstoredConfigs = []
  · rw [storeWrite, if_pos hempty] at hc
    exact h c hc
  · rw [storeWrite, if_neg hempty] at hc
    dsimp only at hc
    rw [← Store.prepare] at hc
    split at hc
    · exact h c (hsub.subset hc)
    · split at hc
      · exact h c (hsub.subset hc)
      · exact absurd hc List.not_mem_nil

/-! ## A damaged store -/

/-- The file of a key is where its value comes from, and it holds this one. -/
def Store.FileGives (st : Store) (fs : Fs) (key : CStr) (value : List UInt8)
    (type : UInt8) : Prop :=
  storeGetUnstoredConfig st key = none ∧
    ∃ data, fs.read (st.configFilename key) = some data ∧ HoldsConfig data value type

/-- The bus does not take such an entry. -/
def RefusedByBus (key : CStr) (value : List UInt8) (type : UInt8) : Prop :=
  ¬ IsDbusString key ∨ type = typeString ∧ ¬ IsDbusString (value.takeWhile (· ≠ 0)) ∨
    type = typeRaw ∧ 2 ^ 26 < value.length

/-- No file that the loop comes to holds a value that is too small for its type. It comes to a
file if all the entries before it were taken; with a key that is no string it does not look at the
value. -/
def Store.FilesFit (st : Store) (fs : Fs) (keys : List CStr) : Prop :=
  ∀ pre key post, keys = pre ++ key :: post → IsDbusString key →
    (∀ k ∈ pre, ∀ value type, st.FileGives fs k value type → ¬ RefusedByBus k value type) →
    ∀ value type, st.FileGives fs key value type → LargeEnough value type

section

variable {st : Store} {fs : Fs} {key : CStr} {value : List UInt8} {type : UInt8}

/-- The bus refuses a value that is large enough for what it says. -/
theorem configVariant_refused (htype : ApiType type) (hkey : IsDbusString key)
    (hlarge : LargeEnough value type) :
    configVariant value type = some none ↔ RefusedByBus key value type := by
  obtain ⟨hd, hi, hs⟩ := hlarge
  rcases htype with rfl | rfl | rfl | rfl
  · rw [configVariant, if_pos rfl, if_neg (by have := hd rfl; omega)]
    simp [RefusedByBus, hkey, typeDouble, typeString, typeRaw]
  · rw [configVariant, if_neg (by decide), if_pos rfl, if_neg (by have := hi rfl; omega)]
    simp [RefusedByBus, hkey, typeInteger, typeString, typeRaw]
  · rw [configVariant, if_neg (by decide), if_neg (by decide), if_pos rfl,
      if_neg (not_not_intro (hs rfl)), toDbusString]
    split_ifs with htext
    · refine iff_of_false (by simp) ?_
      rintro (hno | ⟨-, hno⟩ | ⟨hraw, -⟩)
      · exact hno hkey
      · exact hno htext
      · exact absurd hraw (by decide)
    · exact iff_of_true rfl (.inr (.inl ⟨rfl, htext⟩))
  · rw [configVariant, if_neg (by decide), if_neg (by decide), if_neg (by decide), if_pos rfl]
    split_ifs with hmax
    · refine iff_of_false (by simp) ?_
      rintro (hno | ⟨hstring, -⟩ | ⟨-, hlong⟩)
      · exact hno hkey
      · exact absurd hstring (by decide)
      · omega
    · exact iff_of_true rfl (.inr (.inr ⟨rfl, by omega⟩))

/-- A file gives at most one value. -/
theorem Store.FileGives.config (h : st.FileGives fs key value type) :
    storeGetConfig st fs key = some (value, type) ∧ ApiType type := by
  obtain ⟨hnone, data, hread, hholds⟩ := h
  have hparse := hholds.parse
  rw [storeGetConfig_of_file hnone, hread, Option.bind_some]
  exact ⟨hparse, (parseConfigFile_length hparse).2.2⟩

/-- A value is in memory or in its file. -/
theorem Store.FromBus.of_config (h : st.FromBus)
    (hget : storeGetConfig st fs key = some (value, type)) :
    (storeGetUnstoredConfig st key ≠ none ∧ IsDbusString key ∧
      ∃ v, configVariant value type = some (some v)) ∨ st.FileGives fs key value type := by
  cases hmem : storeGetUnstoredConfig st key with
  | none =>
      rw [storeGetConfig_of_file hmem] at hget
      obtain ⟨data, hread, hparse⟩ := Option.bind_eq_some_iff.mp hget
      exact .inr ⟨hmem, data, hread, .of_parse hparse⟩
  | some c =>
      rw [storeGetConfig, hmem] at hget
      obtain ⟨rfl, rfl⟩ := Prod.mk.inj (Option.some.inj hget)
      obtain ⟨hkey, hvar⟩ := h c (List.mem_of_find?_eq_some hmem)
      have hname : c.key = key := by simpa using List.find?_some hmem
      exact .inl ⟨by simp, hname ▸ hkey, hvar⟩

end

/-- One key is handled: the rest of the loop is reached if the entry is taken. -/
theorem Store.filesFit_cons (st : Store) (fs : Fs) (key : CStr) (keys : List CStr) :
    st.FilesFit fs (key :: keys) ↔
      (IsDbusString key → ∀ value type, st.FileGives fs key value type → LargeEnough value type) ∧
      ((∀ value type, st.FileGives fs key value type → ¬ RefusedByBus key value type) →
        st.FilesFit fs keys) := by
  constructor
  · intro hfit
    refine ⟨fun hkey => hfit [] key keys rfl hkey (by simp),
      fun htaken pre k post hsplit hk hpre => ?_⟩
    refine hfit (key :: pre) k post (by rw [hsplit, List.cons_append]) hk ?_
    exact List.forall_mem_cons.mpr ⟨htaken, hpre⟩
  · rintro ⟨hhead, hrest⟩ pre k post hsplit hk hpre
    cases pre with
    | nil =>
        obtain ⟨rfl, -⟩ := List.cons.inj hsplit
        exact hhead hk
    | cons k' pre =>
        obtain ⟨rfl, hkeys⟩ := List.cons.inj hsplit
        obtain ⟨htaken, hpre⟩ := List.forall_mem_cons.mp hpre
        exact hrest htaken pre k post hkeys hk hpre

/-- **A damaged store cannot make the daemon read outside a value** if and only if no file that it
comes to holds a value that is too small for its type. -/
theorem array_stays_inside_iff {st : Store} (h : st.FromBus) (fs : Fs) (keys : List CStr) :
    (∀ e ∈ storeConfigsAppended st fs keys, LargeEnough e.2.1 e.2.2) ↔ st.FilesFit fs keys := by
  induction keys with
  | nil =>
      refine iff_of_true (by simp [storeConfigsAppended]) fun pre key post hsplit => ?_
      simp at hsplit
  | cons key keys ih =>
      rw [Store.filesFit_cons, ← ih, storeConfigsAppended]
      cases hget : storeGetConfig st fs key with
      | none =>
          -- the key is skipped, and its file gives nothing
          have hnone : ∀ value type, ¬ st.FileGives fs key value type := fun value type hgives => by
            rw [hgives.config.1] at hget
            cases hget
          simp [hnone]
      | some config =>
          obtain ⟨value, type⟩ := config
          have honly : ∀ v t, st.FileGives fs key v t → v = value ∧ t = type := fun v t hgives => by
            rw [hgives.config.1] at hget
            exact Prod.mk.inj (Option.some.inj hget)
          dsimp only
          rcases h.of_config hget with ⟨hmem, hkey, v, hvar⟩ | hgives
          · -- a value from memory is taken, and there is no file to look at
            have hlarge : LargeEnough value type := configVariant_ne_none.mp (by rw [hvar]; simp)
            have hnone : ∀ value type, ¬ st.FileGives fs key value type :=
              fun _ _ hgives => hmem hgives.1
            simp [toDbusString, hkey, hvar, hlarge, hnone]
          · by_cases hkey : IsDbusString key
            · rw [if_neg (by simp [toDbusString, hkey]), List.forall_mem_cons]
              by_cases hlarge : LargeEnough value type
              · have hfits : IsDbusString key → ∀ v t, st.FileGives fs key v t →
                    LargeEnough v t := by
                  intro _ v t hvt
                  obtain ⟨rfl, rfl⟩ := honly v t hvt
                  exact hlarge
                have hrefused := configVariant_refused hgives.config.2 hkey hlarge
                rcases hvar : configVariant value type with _ | _ | v
                · exact absurd hvar (configVariant_ne_none.mpr hlarge)
                · have hstop := hrefused.mp hvar
                  refine iff_of_true ⟨hlarge, by simp⟩ ⟨hfits, fun htaken => ?_⟩
                  exact absurd hstop (htaken value type hgives)
                · have hgoes : ¬ RefusedByBus key value type := fun hr => by
                    rw [hrefused.mpr hr] at hvar
                    cases hvar
                  simp only [Option.getD_some, Option.isSome_some, if_true]
                  refine and_congr (iff_of_true hlarge hfits) ⟨fun hrest _ => hrest, fun hrest =>
                    ?_⟩
                  refine hrest fun v t hvt => ?_
                  obtain ⟨rfl, rfl⟩ := honly v t hvt
                  exact hgoes
              · exact iff_of_false (fun hall => hlarge hall.1)
                  (fun hall => hlarge (hall.1 hkey value type hgives))
            · -- the key is refused before its value is looked at
              rw [if_pos (by simp [toDbusString, hkey])]
              refine iff_of_true (by simp) ⟨fun h => absurd h hkey, fun htaken => ?_⟩
              exact absurd (.inl hkey) (htaken value type hgives)

/-- A store with a double of one byte, as it is on the disk. -/
def brokenFs : Fs where
  entries := [([cstr "d"], .dir), ([cstr "d", storeInfoFile], .file (cstr "1\nx\n")),
    ([cstr "d", cstr "x"], .file [0, 0, 0, 1, 7, typeDouble])]
  faults := []

/-- The store of the directory. -/
def brokenStore : Store := (storeOpen (storeNew (cstr "/d")) brokenFs).2

theorem brokenStore_reads_outside :
    ¬ ∀ e ∈ storeConfigsAppended brokenStore brokenFs brokenStore.keys,
      LargeEnough e.2.1 e.2.2 := by
  decide +kernel

/-- The store with the broken file mended. -/
def mendedFs : Fs where
  entries := [([cstr "d"], .dir), ([cstr "d", storeInfoFile], .file (cstr "1\nx\n")),
    ([cstr "d", cstr "x"], .file [0, 0, 0, 4, 7, 0, 0, 0, typeInteger])]
  faults := []

theorem array_stays_inside_mended :
    (storeOpen (storeNew (cstr "/d")) mendedFs).2.FilesFit mendedFs [cstr "x"] :=
  (array_stays_inside_iff (storeOpen_fromBus (cstr "/d") mendedFs) mendedFs [cstr "x"]).mp
    (by decide +kernel)

end Lash
