import Lash.DataSet
import Lash.Lib.Keyed

/-!
# Reading a store back

Values are put into an opened store, the store is written, and a fresh store is opened on the
directory. Keys are lines of the info file and names of files at once, and nothing keeps them from
being unfit for either: `Store.Fits` says when the fresh store gives the same data set, and
`store_reads_back_iff` that it is exactly then.
-/

namespace Lash

/-! ## Setting configs -/

/-- The arguments of a call of `storeSetConfig` that it accepts. -/
structure Setting where
  key : CStr
  value : List UInt8
  type : UInt8
  key_ok : key ≠ [] ∧ 0 ∉ key
  value_ok : value ≠ []
  type_ok : ApiType type

/-- A data set in which some configs are set. -/
def setAll (D : CStr → Option (List UInt8 × UInt8)) (xs : List Setting) :
    CStr → Option (List UInt8 × UInt8) :=
  xs.foldl (fun D x => Function.update D x.key (some (x.value, x.type))) D

/-- A store in which some configs are set. -/
def Store.setAll (st : Store) (xs : List Setting) : Store :=
  xs.foldl (fun st x => (storeSetConfig st x.key x.value x.type).2) st

theorem setAll_of_not_mem {D : CStr → Option (List UInt8 × UInt8)} {xs : List Setting} {k : CStr}
    (h : k ∉ xs.map Setting.key) : setAll D xs k = D k := by
  induction xs generalizing D with
  | nil => rfl
  | cons x xs ih =>
      rw [List.map_cons, List.mem_cons, not_or] at h
      show setAll _ xs k = _
      rw [ih h.2]
      exact Function.update_of_ne h.1 _ _

/-- What is set is one of the settings. -/
theorem setAll_mem {D : CStr → Option (List UInt8 × UInt8)} {xs : List Setting} {k : CStr}
    (h : k ∈ xs.map Setting.key) : ∃ x ∈ xs, setAll D xs k = some (x.value, x.type) := by
  induction xs generalizing D with
  | nil => simp at h
  | cons x xs ih =>
      show ∃ y ∈ x :: xs, setAll (Function.update D x.key (some (x.value, x.type))) xs k = _
      by_cases hk : k ∈ xs.map Setting.key
      · obtain ⟨y, hy, heq⟩ := ih hk
        exact ⟨y, List.mem_cons_of_mem _ hy, heq⟩
      · rw [List.map_cons, List.mem_cons, or_iff_left hk] at h
        subst h
        exact ⟨x, List.mem_cons_self, by rw [setAll_of_not_mem hk, Function.update_self]⟩

theorem setAll_isSome {D : CStr → Option (List UInt8 × UInt8)} {xs : List Setting} {k : CStr} :
    (setAll D xs k).isSome ↔ k ∈ xs.map Setting.key ∨ (D k).isSome := by
  by_cases hk : k ∈ xs.map Setting.key
  · obtain ⟨x, -, heq⟩ := setAll_mem (D := D) hk
    simp [heq, hk]
  · rw [setAll_of_not_mem hk, or_iff_right hk]

/-- If each key is set once, what is set is found. -/
theorem setAll_of_mem {D : CStr → Option (List UInt8 × UInt8)} {xs : List Setting}
    (h : (xs.map Setting.key).Nodup) {x : Setting} (hx : x ∈ xs) :
    setAll D xs x.key = some (x.value, x.type) := by
  induction xs generalizing D with
  | nil => simp at hx
  | cons z xs ih =>
      rw [List.map_cons, List.nodup_cons] at h
      show setAll (Function.update D z.key (some (z.value, z.type))) xs x.key = _
      rcases List.mem_cons.mp hx with rfl | hx
      · rw [setAll_of_not_mem h.1, Function.update_self]
      · exact ih h.2 hx

theorem Store.setAll_dataSet (st : Store) (fs : Fs) (xs : List Setting) :
    (st.setAll xs).dataSet fs = Lash.setAll (st.dataSet fs) xs := by
  induction xs generalizing st with
  | nil => rfl
  | cons x xs ih =>
      show Store.dataSet (Store.setAll _ xs) fs = Lash.setAll _ xs
      rw [ih, storeSetConfig_dataSet x.key_ok.1 x.value_ok]

theorem Store.Ok.setAll {st : Store} (h : st.Ok) (xs : List Setting) : (st.setAll xs).Ok := by
  induction xs generalizing st with
  | nil => exact h
  | cons x xs ih => exact ih (h.set x.key x.value x.type)

theorem Store.setAll_dir (st : Store) (xs : List Setting) : (st.setAll xs).dir = st.dir := by
  induction xs generalizing st with
  | nil => rfl
  | cons x xs ih =>
      show (Store.setAll _ xs).dir = _
      rw [ih, (storeSetConfig_fields st x.key_ok.1 x.value_ok x.type).2.1]

theorem Store.mem_setAll_keys (st : Store) (xs : List Setting) (k : CStr) :
    k ∈ (st.setAll xs).keys ↔ k ∈ st.keys ∨ k ∈ xs.map Setting.key := by
  induction xs generalizing st with
  | nil => simp [setAll]
  | cons x xs ih =>
      show k ∈ (Store.setAll _ xs).keys ↔ _
      rw [ih, (storeSetConfig_fields st x.key_ok.1 x.value_ok x.type).2.2.1, List.map_cons,
        List.mem_cons]
      split
      · next hmem =>
          constructor
          · tauto
          · rintro (h | rfl | h) <;> tauto
      · rw [List.mem_append, List.mem_singleton, or_assoc]

theorem Store.setAll_nodup {st : Store} (h : st.keys.Nodup) (xs : List Setting) :
    (st.setAll xs).keys.Nodup := by
  induction xs generalizing st with
  | nil => exact h
  | cons x xs ih =>
      apply ih
      rw [(storeSetConfig_fields st x.key_ok.1 x.value_ok x.type).2.2.1]
      split
      · exact h
      · next hnot => exact h.append (List.nodup_singleton _) (List.disjoint_singleton.mpr hnot)

theorem Store.mem_setAll_unstored (st : Store) (xs : List Setting) (k : CStr) :
    k ∈ (st.setAll xs).unstoredConfigs.map StoreConfig.key ↔
      k ∈ st.unstoredConfigs.map StoreConfig.key ∨ k ∈ xs.map Setting.key := by
  induction xs generalizing st with
  | nil => simp [setAll]
  | cons x xs ih =>
      show k ∈ (Store.setAll _ xs).unstoredConfigs.map StoreConfig.key ↔ _
      rw [ih, (storeSetConfig_fields st x.key_ok.1 x.value_ok x.type).2.2.2, putConfig_keys,
        List.map_cons, List.mem_cons]
      split
      · next hmem =>
          constructor
          · tauto
          · rintro (h | rfl | h) <;> tauto
      · rw [List.mem_append, List.mem_singleton, or_assoc]

/-- A config in memory is what the data set says about its key. -/
theorem Store.Ok.dataSet_unstored {st : Store} (h : st.Ok) (fs : Fs) {c : StoreConfig}
    (hc : c ∈ st.unstoredConfigs) : st.dataSet fs c.key = some (c.value, c.type) := by
  rw [Store.dataSet, storeGetConfig, storeGetUnstoredConfig, Keyed.find_key h.distinct hc]

/-! ## Opening -/

/-- What `storeOpen` does with the bytes of the info file. -/
theorem storeOpen_of_read {dir : CStr} {fs : Fs} {data : List UInt8}
    (h : fs.read (storeNew dir).infoFilename = some data) :
    storeOpen (storeNew dir) fs =
      ((getline data).bind fun r => (parseNumKeys r.1).bind fun n =>
        (readKeys n r.2).map (n, ·)).elim
        (false, storeNew dir)
        fun r => (true, { storeNew dir with numKeys := r.1, keys := r.2 }) := by
  have hreach := Fs.reaches_of_read h
  have hdir : fs.lashDirExists (storeNew dir).dir = true := by
    rwa [Store.infoFilename, Fs.reaches_fqn fs _ (by decide)] at hreach
  have hfile : fs.lashFileExists (storeNew dir).infoFilename = true := by
    rw [Fs.read, if_pos hreach, Fs.bytes] at h
    rw [Fs.lashFileExists, Fs.lookup, if_pos hreach]
    split at h
    · next hget => rw [hget]; rfl
    · simp at h
  rw [storeOpen, if_neg (by simp [hdir]), if_neg (by simp [hfile]), h, Option.getD_some]
  cases hline : getline data with
  | none => rfl
  | some r =>
      obtain ⟨line, rest⟩ := r
      dsimp only [Option.bind_some]
      cases hnum : parseNumKeys line with
      | none => rfl
      | some n =>
          dsimp only [Option.bind_some]
          cases hkeys : readKeys n rest with
          | none => rfl
          | some ks => simp [storeNew]

/-- What a fresh store makes of an info file of the given text. -/
theorem storeOpen_infoBytes {dir : CStr} {fs : Fs} {n : Nat} {keys : List CStr}
    (h : fs.read (storeNew dir).infoFilename = some (infoBytes n keys)) :
    storeOpen (storeNew dir) fs =
      if n < 2 ^ 63 then
        match readKeys n (keyLines keys) with
        | none => (false, storeNew dir)
        | some ks => (true, { storeNew dir with numKeys := n, keys := ks })
      else (false, storeNew dir) := by
  have hline : getline (infoBytes n keys) = some (decimal n ++ [newline], keyLines keys) :=
    getline_line (newline_not_mem_decimal n) _
  rw [storeOpen_of_read h, hline, Option.bind_some, parseNumKeys_decimal]
  by_cases hn : n < 2 ^ 63
  · rw [if_pos hn, if_pos hn, Option.bind_some]
    cases readKeys n (keyLines keys) with
    | none => rfl
    | some ks => rfl
  · rw [if_neg hn, if_neg hn]
    rfl

/-! ## The round trip -/

/-- Values are set in a store that was opened on the directory, it is written, and a fresh store
is opened there: it lists the keys that were there or were set, and gives for each the value set
last. -/
def ReadsBack (dir : CStr) (fs : Fs) (xs : List Setting) : Prop :=
  let st := (storeOpen (storeNew dir) fs).2
  let fs' := (storeWrite (st.setAll xs) fs).2.2
  let fresh := storeOpen (storeNew dir) fs'
  fresh.1 = true ∧ (∀ k, k ∈ fresh.2.keys ↔ k ∈ st.keys ∨ k ∈ xs.map Setting.key) ∧
    ∀ k ∈ fresh.2.keys, fresh.2.dataSet fs' k = setAll (st.dataSet fs) xs k

/-- The keys of a store `st` in which some values were set are fit to be lines of the info file and
names of files: `D` is the data set that the store is to give. -/
structure Store.Fits (st : Store) (fs : Fs) (xs : List Setting)
    (D : CStr → Option (List UInt8 × UInt8)) : Prop where
  lines : ∀ k ∈ xs.map Setting.key, newline ∉ k
  small : ∀ k ∈ xs.map Setting.key, ∀ r ∈ D k, r.1.length < 2 ^ 32
  /-- A key that names the file of a key that was set has the same value. -/
  apart : ∀ k ∈ xs.map Setting.key, ∀ k' ∈ st.keys,
    (st.prepare fs).reaches (st.configFilename k') = true → st.path k' = st.path k → D k' = D k
  /-- A key that names the info file has the value that a reader makes of its text. -/
  info : ∀ k ∈ st.keys, (st.prepare fs).reaches (st.configFilename k) = true →
    st.path k = st.infoPath → D k = parseConfigFile (infoBytes st.numKeys st.keys)

section

variable {st : Store} {fs : Fs} {xs : List Setting}

/-- The values that are set are those of the configs in memory, if there were none before. -/
theorem Store.mem_unstored (hempty : st.unstoredConfigs = []) (k : CStr) :
    (∃ c ∈ (st.setAll xs).unstoredConfigs, c.key = k) ↔ k ∈ xs.map Setting.key := by
  rw [← List.mem_map, Store.mem_setAll_unstored, hempty]
  simp

theorem Store.unstored_ne_nil (hempty : st.unstoredConfigs = []) (hxs : xs ≠ []) :
    (st.setAll xs).unstoredConfigs ≠ [] := by
  obtain ⟨x, hx⟩ := List.exists_mem_of_ne_nil xs hxs
  obtain ⟨c, hc, -⟩ := (Store.mem_unstored hempty x.key).mpr (List.mem_map_of_mem hx)
  exact List.ne_nil_of_mem hc

/-- A store that is fit for its values gives them back from the disk. -/
theorem Store.Fits.onDisk (hok : st.Ok) (hempty : st.unstoredConfigs = [])
    (hthere : st.keys ≠ [] → fs.lashDirExists st.dir = true) (hxs : xs ≠ [])
    (hw : (storeWrite (st.setAll xs) fs).1 = true)
    (h : (st.setAll xs).Fits fs xs (Lash.setAll (st.dataSet fs) xs)) {k : CStr}
    (hk : k ∈ (st.setAll xs).keys) :
    (st.setAll xs).onDisk (storeWrite (st.setAll xs) fs).2.2 k
      = Lash.setAll (st.dataSet fs) xs k := by
  have hok₁ := hok.setAll xs
  have hne := Store.unstored_ne_nil hempty hxs
  have hdir := st.setAll_dir xs
  -- a key that was not set was there before, so its directory was not made just now
  have hold : k ∉ xs.map Setting.key → (st.setAll xs).prepare fs = fs ∧
      Lash.setAll (st.dataSet fs) xs k = (st.setAll xs).onDisk fs k := by
    intro hnot
    have hmem : k ∈ st.keys := ((Store.mem_setAll_keys st xs k).mp hk).resolve_right hnot
    refine ⟨?_, ?_⟩
    · rw [Store.prepare, hdir, if_pos (hthere (List.ne_nil_of_mem hmem))]
    · rw [setAll_of_not_mem hnot, Store.dataSet_of_unstored_nil hempty]
      simp only [Store.onDisk, Store.configFilename, hdir]
  rw [storeWrite_onDisk hok₁.kept hne hw k]
  by_cases hreach : ((st.setAll xs).prepare fs).reaches ((st.setAll xs).configFilename k) = true
  · rw [if_pos hreach]
    by_cases hpath : (st.setAll xs).path k = (st.setAll xs).infoPath
    · rw [if_pos hpath, h.info k hk hreach hpath]
    · rw [if_neg hpath]
      cases hlast : lastConfig (st.setAll xs) ((st.setAll xs).path k)
          (st.setAll xs).unstoredConfigs with
      | some c =>
          obtain ⟨hc, hcpath⟩ := lastConfig_some hlast
          have hset := (Store.mem_unstored hempty c.key).mp ⟨c, hc, rfl⟩
          have hval : Lash.setAll (st.dataSet fs) xs c.key = some (c.value, c.type) := by
            rw [← Store.setAll_dataSet]
            exact hok₁.dataSet_unstored fs hc
          have htype : ApiType c.type := by
            obtain ⟨x, hx, heq⟩ := setAll_mem (D := st.dataSet fs) hset
            rw [hval] at heq
            rw [(Prod.mk.inj (Option.some.inj heq)).2]
            exact x.type_ok
          dsimp only
          rw [h.apart c.key hset k hk hreach hcpath.symm, hval,
            (parseConfigFile_configBytes c.value c.type).mpr
              ⟨hok₁.filled c hc, h.small c.key hset _ hval, htype⟩]
      | none =>
          have hnot : k ∉ xs.map Setting.key := by
            intro hset
            obtain ⟨c, hc, rfl⟩ := (Store.mem_unstored hempty k).mpr hset
            exact lastConfig_none hlast c hc rfl
          rw [(hold hnot).2, (hold hnot).1]
  · rw [if_neg hreach]
    have hnot : k ∉ xs.map Setting.key := by
      intro hset
      obtain ⟨c, hc, rfl⟩ := (Store.mem_unstored hempty k).mpr hset
      exact hreach (storeWrite_reaches hok₁.kept hw c hc)
    rw [(hold hnot).2, Store.onDisk, Fs.read, ← (hold hnot).1, if_neg hreach, Option.bind_none]

/-- A store that gives the values back from the disk is fit for them. -/
theorem Store.Fits.of_onDisk (hok : st.Ok) (hempty : st.unstoredConfigs = []) (hxs : xs ≠ [])
    (hw : (storeWrite (st.setAll xs) fs).1 = true) (hlines : ∀ k ∈ xs.map Setting.key, newline ∉ k)
    (h : ∀ k ∈ (st.setAll xs).keys, (st.setAll xs).onDisk (storeWrite (st.setAll xs) fs).2.2 k
      = Lash.setAll (st.dataSet fs) xs k) :
    (st.setAll xs).Fits fs xs (Lash.setAll (st.dataSet fs) xs) := by
  have hok₁ := hok.setAll xs
  have hne := Store.unstored_ne_nil hempty hxs
  have hkeys : ∀ k ∈ xs.map Setting.key, k ∈ (st.setAll xs).keys :=
    fun k hk => (Store.mem_setAll_keys st xs k).mpr (Or.inr hk)
  have hreach : ∀ f, (storeWrite (st.setAll xs) fs).2.2.reaches f
      = ((st.setAll xs).prepare fs).reaches f := by
    obtain ⟨heq, -⟩ | ⟨-, hwrites, -⟩ := storeWrite_frame hok₁.kept fs
    · exact absurd heq hne
    · exact hwrites.reaches
  refine ⟨hlines, ?_, ?_, ?_⟩
  · intro k hk r hr
    rw [← h k (hkeys k hk), Option.mem_def, Store.onDisk, Option.bind_eq_some_iff] at hr
    obtain ⟨data, -, hparse⟩ := hr
    exact (parseConfigFile_length (v := r.1) (t := r.2) hparse).2.1
  · intro k hk k' hk' hr hpath
    obtain ⟨c, hc, rfl⟩ := (Store.mem_unstored hempty k).mpr hk
    have hr' := storeWrite_reaches hok₁.kept hw c hc
    rw [← hreach] at hr hr'
    rw [← h k' hk', ← h c.key (hkeys _ hk), Store.onDisk, Store.onDisk,
      Fs.read_eq_of_resolve hr hr' hpath]
  · intro k hk hr hpath
    rw [← h k hk, storeWrite_onDisk hok₁.kept hne hw k, if_pos hr, if_pos hpath]

end

/-- **A store reads back** if and only if nothing is set and the store was there, or something is
set, the number of keys fits into a `long`, and the keys are fit to be lines and file names. -/
theorem store_reads_back_iff {dir : CStr} {fs : Fs} {xs : List Setting}
    (hw : (storeWrite ((storeOpen (storeNew dir) fs).2.setAll xs) fs).1 = true) :
    ReadsBack dir fs xs ↔
      xs = [] ∧ (storeOpen (storeNew dir) fs).1 = true ∨
        xs ≠ [] ∧ ((storeOpen (storeNew dir) fs).2.setAll xs).keys.length < 2 ^ 63 ∧
          ((storeOpen (storeNew dir) fs).2.setAll xs).Fits fs xs
            (setAll ((storeOpen (storeNew dir) fs).2.dataSet fs) xs) := by
  obtain ⟨hok, hdir, hempty, hlines, hthere⟩ := storeOpen_spec dir fs
  unfold ReadsBack
  dsimp only
  generalize hst : (storeOpen (storeNew dir) fs).2 = st at hw hok hdir hempty hlines hthere ⊢
  by_cases hxs : xs = []
  · subst hxs
    have hsame : (storeWrite st fs).2.2 = fs := by
      rcases storeWrite_frame hok.kept fs with ⟨-, heq⟩ | ⟨hne, -⟩
      · rw [heq]
      · exact absurd hempty hne
    simp [Store.setAll, setAll, hsame, hst]
  · obtain ⟨hok', hdir', hempty', hlines', -⟩ :=
      storeOpen_spec dir (storeWrite (st.setAll xs) fs).2.2
    have hfile : (storeNew dir).infoFilename = (st.setAll xs).infoFilename := by
      rw [Store.infoFilename, Store.infoFilename, st.setAll_dir, hdir]
      rfl
    have hopen := storeOpen_infoBytes (hfile ▸
      (storeWrite_read (hok.setAll xs).kept (Store.unstored_ne_nil hempty hxs) hw).1)
    have hcount := (hok.setAll xs).count
    have hfresh : ∀ o : Store, o.dir = dir → o.unstoredConfigs = [] → ∀ k,
        o.dataSet (storeWrite (st.setAll xs) fs).2.2 k
          = (st.setAll xs).onDisk (storeWrite (st.setAll xs) fs).2.2 k := by
      intro o hod hou k
      rw [Store.dataSet_of_unstored_nil hou]
      simp only [Store.onDisk, Store.configFilename, hod, st.setAll_dir, hdir]
    rw [or_iff_right (fun h => hxs h.1), and_iff_right hxs]
    constructor
    · rintro ⟨hsucc, hmem, hdata⟩
      have hall : ∀ k ∈ (st.setAll xs).keys,
          k ∈ (storeOpen (storeNew dir) (storeWrite (st.setAll xs) fs).2.2).2.keys :=
        fun k hk => (hmem k).mpr ((st.mem_setAll_keys xs k).mp hk)
      refine ⟨?_, .of_onDisk hok hempty hxs hw ?_ ?_⟩
      · by_contra hbig
        rw [hopen, if_neg (by rwa [hcount])] at hsucc
        simp at hsucc
      · intro k hk
        exact (hlines' k ((hmem k).mpr (Or.inr hk))).2
      · intro k hk
        rw [← hfresh _ hdir' hempty', hdata k (hall k hk)]
    · rintro ⟨hfew, hfits⟩
      have hline : ∀ k ∈ (st.setAll xs).keys, LineKey k := by
        intro k hk
        rcases (st.mem_setAll_keys xs k).mp hk with hk | hk
        · exact hlines k hk
        · obtain ⟨x, hx, rfl⟩ := List.mem_map.mp hk
          exact ⟨x.key_ok.2, hfits.lines _ hk⟩
      rw [hcount, if_pos hfew, readKeys_keyLines hline] at hopen
      have hkeys : (storeOpen (storeNew dir) (storeWrite (st.setAll xs) fs).2.2).2.keys
          = (st.setAll xs).keys := by
        rw [hopen]
      refine ⟨by rw [hopen], fun k => by rw [hkeys, st.mem_setAll_keys], fun k hk => ?_⟩
      rw [hfresh _ hdir' hempty', hfits.onDisk hok hempty (by rwa [hdir]) hxs hw (hkeys ▸ hk)]

/-- A disk with a store that holds the value `x` under the key `a`. -/
def diskWithStore : Fs where
  entries := [([cstr "s"], .dir), ([cstr "s", cstr ".store_info"], .file (cstr "1\na\n")),
    ([cstr "s", cstr "a"], .file [0, 0, 0, 1, 120, 45])]
  faults := []

/-- A byte set under a key. -/
def byteSetting (key : CStr) (h : key ≠ [] ∧ 0 ∉ key) (b : UInt8) : Setting :=
  { key, value := [b], type := typeRaw, key_ok := h, value_ok := by simp, type_ok := by decide }

/-- One key is there, one is set, and both are read back. -/
theorem store_reads_back_two :
    ReadsBack (cstr "/s") diskWithStore [byteSetting (cstr "b") (by decide) 121] :=
  (store_reads_back_iff (by decide +kernel)).mpr
    (Or.inr ⟨by simp, by decide +kernel,
      ⟨by decide +kernel, by decide +kernel, by decide +kernel, by decide +kernel⟩⟩)

/-- A key with a newline is two lines of the info file. -/
theorem store_does_not_read_back :
    (storeWrite ((storeOpen (storeNew (cstr "/s")) diskWithStore).2.setAll
        [byteSetting (cstr "b\nc") (by decide) 121]) diskWithStore).1 = true ∧
      ¬ ReadsBack (cstr "/s") diskWithStore [byteSetting (cstr "b\nc") (by decide) 121] := by
  refine ⟨by decide +kernel, fun h => ?_⟩
  exact absurd ((h.2.1 (cstr "b\nc")).mpr (by decide +kernel)) (by decide +kernel)

end Lash
