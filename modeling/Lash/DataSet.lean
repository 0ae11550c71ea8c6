import Lash.Disk

/-!
# A store as a data set

For its users a store is a finite map from keys to typed values (`Store.dataSet`); setting a config
updates the map, whatever is in memory and whatever is on the disk. `storeWrite` moves the values in
memory to the disk, and its spec lemmas say what is in which file afterwards.
-/

namespace Lash

/-! ## Well-formed stores -/

/-- The file of a key. -/
def Store.path (st : Store) (key : CStr) : Path := resolve (st.configFilename key)

/-- The info file. -/
def Store.infoPath (st : Store) : Path := resolve st.infoFilename

/-- What every store fulfils between two calls. No function ever removes a key. -/
structure Store.Ok (st : Store) : Prop where
  count : st.numKeys = st.keys.length
  listed : ∀ c ∈ st.unstoredConfigs, c.key ∈ st.keys
  distinct : (st.unstoredConfigs.map StoreConfig.key).Nodup
  filled : ∀ c ∈ st.unstoredConfigs, c.value ≠ []
  kept : st.removedKeys = []

theorem storeNew_ok (dir : CStr) : (storeNew dir).Ok where
  count := rfl
  listed := by simp [storeNew]
  distinct := List.nodup_nil
  filled := by simp [storeNew]
  kept := rfl

/-- What `storeOpen` makes of a new store. -/
theorem storeOpen_spec (dir : CStr) (fs : Fs) :
    (storeOpen (storeNew dir) fs).2.Ok ∧ (storeOpen (storeNew dir) fs).2.dir = dir ∧
      (storeOpen (storeNew dir) fs).2.unstoredConfigs = [] ∧
      (∀ k ∈ (storeOpen (storeNew dir) fs).2.keys, LineKey k) ∧
      ((storeOpen (storeNew dir) fs).2.keys ≠ [] → fs.lashDirExists dir = true) := by
  have hfail : ∀ st : Store, st = { storeNew dir with numKeys := 0 } → st.Ok ∧ st.dir = dir ∧
      st.unstoredConfigs = [] ∧ (∀ k ∈ st.keys, LineKey k) ∧
      (st.keys ≠ [] → fs.lashDirExists dir = true) := by
    rintro st rfl
    exact ⟨storeNew_ok dir, rfl, rfl, by simp [storeNew], by simp [storeNew]⟩
  unfold storeOpen
  split
  · exact hfail _ rfl
  · next hdir =>
      split
      · exact hfail _ rfl
      · split
        · exact hfail _ rfl
        · split
          · exact hfail _ rfl
          · split
            · exact hfail _ rfl
            · next ks hks =>
                refine ⟨⟨?_, by simp [storeNew], List.nodup_nil, by simp [storeNew], rfl⟩, rfl, rfl,
                  ?_, fun _ => by simpa [storeNew] using hdir⟩
                · simpa [storeNew] using (length_readKeys hks).symm
                · simpa [storeNew] using lineKey_of_readKeys hks

/-! ## The data set of a store -/

/-- The data set that a store gives back. -/
def Store.dataSet (st : Store) (fs : Fs) : CStr → Option (List UInt8 × UInt8) :=
  storeGetConfig st fs

/-- What is on the disk only. -/
def Store.onDisk (st : Store) (fs : Fs) (key : CStr) : Option (List UInt8 × UInt8) :=
  (fs.read (st.configFilename key)).bind parseConfigFile

theorem Store.dataSet_of_unstored_nil {st : Store} (h : st.unstoredConfigs = []) (fs : Fs) :
    st.dataSet fs = st.onDisk fs := by
  funext k
  simp [dataSet, storeGetConfig, storeGetUnstoredConfig, h, onDisk]

theorem putConfig_find (key k : CStr) (value : List UInt8) (type : UInt8) (l : List StoreConfig) :
    ((putConfig key value type l).find? (fun c => c.key = k)).map (fun c => (c.value, c.type))
      = if k = key then some (value, type)
        else (l.find? (fun c => c.key = k)).map (fun c => (c.value, c.type)) := by
  induction l with
  | nil =>
      by_cases hk : k = key
      · subst hk
        simp [putConfig]
      · simp [putConfig, hk, Ne.symm hk]
  | cons c cs ih =>
      rw [putConfig]
      by_cases hc : c.key = key
      · rw [if_pos hc]
        by_cases hk : k = key
        · subst hk
          simp
        · have hne : c.key ≠ k := fun he => hk (he.symm.trans hc)
          simp [hk, Ne.symm hk, hne]
      · rw [if_neg hc]
        by_cases hck : c.key = k
        · have hk : k ≠ key := fun he => hc (hck.trans he)
          simp [hck, hk]
        · rw [List.find?_cons_of_neg (by simpa using hck), ih,
            List.find?_cons_of_neg (by simpa using hck)]

/-- **Setting a config updates the data set**, and nothing else. -/
theorem storeSetConfig_dataSet {st : Store} {key : CStr} {value : List UInt8} (hkey : key ≠ [])
    (hvalue : value ≠ []) (type : UInt8) (fs : Fs) :
    (storeSetConfig st key value type).2.dataSet fs
      = Function.update (st.dataSet fs) key (some (value, type)) := by
  have hmem : ∀ (s : Store) (k : CStr), s.dir = st.dir →
      s.unstoredConfigs = putConfig key value type st.unstoredConfigs →
      s.dataSet fs k = if k = key then some (value, type) else st.dataSet fs k := by
    intro s k hdir huns
    have hfind := putConfig_find key k value type st.unstoredConfigs
    have hfile : s.configFilename k = st.configFilename k := by
      rw [Store.configFilename, Store.configFilename, hdir]
    simp only [Store.dataSet, storeGetConfig, storeGetUnstoredConfig, huns, hfile]
    by_cases hk : k = key
    · rw [if_pos hk] at hfind ⊢
      obtain ⟨c, hc, hval⟩ := Option.map_eq_some_iff.mp hfind
      rw [hc]
      exact congrArg some hval
    · rw [if_neg hk] at hfind ⊢
      cases hold : st.unstoredConfigs.find? (fun c => c.key = k) with
      | none =>
          rw [hold, Option.map_none, Option.map_eq_none_iff] at hfind
          rw [hfind]
      | some c =>
          rw [hold] at hfind
          obtain ⟨d, hd, hval⟩ := Option.map_eq_some_iff.mp hfind
          rw [hd]
          exact congrArg some hval
  funext k
  rw [Function.update_apply, storeSetConfig, if_neg (by simp [hkey, hvalue])]
  refine hmem _ k ?_ ?_
  · dsimp only
    split <;> rfl
  · dsimp only
    split <;> rfl

theorem putConfig_keys (key : CStr) (value : List UInt8) (type : UInt8) (l : List StoreConfig) :
    (putConfig key value type l).map StoreConfig.key
      = if key ∈ l.map StoreConfig.key then l.map StoreConfig.key
        else l.map StoreConfig.key ++ [key] := by
  induction l with
  | nil => simp [putConfig]
  | cons c cs ih =>
      rw [putConfig]
      by_cases hc : c.key = key
      · simp [hc]
      · rw [if_neg hc, List.map_cons, ih, List.map_cons]
        have hmem : key ∈ c.key :: cs.map StoreConfig.key ↔ key ∈ cs.map StoreConfig.key := by
          rw [List.mem_cons, or_iff_right (Ne.symm hc)]
        by_cases hin : key ∈ cs.map StoreConfig.key
        · rw [if_pos hin, if_pos (hmem.mpr hin)]
        · rw [if_neg hin, if_neg (fun h => hin (hmem.mp h)), List.cons_append]

theorem mem_putConfig {key : CStr} {value : List UInt8} {type : UInt8} {l : List StoreConfig}
    {c : StoreConfig} (h : c ∈ putConfig key value type l) :
    c ∈ l ∨ c.key = key ∧ c.value = value ∧ c.type = type := by
  induction l with
  | nil =>
      rw [putConfig, List.mem_singleton] at h
      subst h
      exact Or.inr ⟨rfl, rfl, rfl⟩
  | cons d cs ih =>
      rw [putConfig] at h
      split at h
      · rcases List.mem_cons.mp h with rfl | h
        · exact Or.inr ⟨rfl, rfl, rfl⟩
        · exact Or.inl (List.mem_cons_of_mem _ h)
      · rcases List.mem_cons.mp h with rfl | h
        · exact Or.inl (by simp)
        · exact (ih h).imp_left (List.mem_cons_of_mem _)

/-- What `storeSetConfig` does to the fields of a store. -/
theorem storeSetConfig_fields (st : Store) {key : CStr} {value : List UInt8} (hkey : key ≠ [])
    (hvalue : value ≠ []) (type : UInt8) :
    (storeSetConfig st key value type).1 = true ∧
      (storeSetConfig st key value type).2.dir = st.dir ∧
      (storeSetConfig st key value type).2.keys
        = (if key ∈ st.keys then st.keys else st.keys ++ [key]) ∧
      (storeSetConfig st key value type).2.unstoredConfigs
        = putConfig key value type st.unstoredConfigs := by
  rw [storeSetConfig, if_neg (by simp [hkey, hvalue])]
  refine ⟨rfl, ?_, ?_, ?_⟩
  · dsimp only
    split <;> rfl
  · dsimp only
    split <;> rfl
  · dsimp only
    split <;> rfl

theorem Store.Ok.set {st : Store} (h : st.Ok) (key : CStr) (value : List UInt8) (type : UInt8) :
    (storeSetConfig st key value type).2.Ok := by
  by_cases hbad : key = [] ∨ value = []
  · rw [storeSetConfig, if_pos hbad]
    exact h
  · obtain ⟨hkey, hvalue⟩ := not_or.mp hbad
    obtain ⟨-, -, hkeys, huns⟩ := storeSetConfig_fields st hkey hvalue type
    refine ⟨?_, ?_, ?_, ?_, ?_⟩
    · rw [hkeys, storeSetConfig, if_neg hbad]
      dsimp only
      split
      · exact h.count
      · rw [List.length_append, ← h.count]
        rfl
    · intro c hc
      rw [huns] at hc
      rw [hkeys]
      rcases mem_putConfig hc with hc | ⟨rfl, -, -⟩
      · have := h.listed c hc
        split
        · exact this
        · exact List.mem_append_left _ this
      · split
        · assumption
        · simp
    · rw [huns, putConfig_keys]
      split
      · exact h.distinct
      · next hnot =>
          exact h.distinct.append (List.nodup_singleton key) (List.disjoint_singleton.mpr hnot)
    · intro c hc
      rw [huns] at hc
      rcases mem_putConfig hc with hc | ⟨-, rfl, -⟩
      · exact h.filled c hc
      · exact hvalue
    · rw [storeSetConfig, if_neg hbad]
      dsimp only
      split <;> exact h.kept

/-! ## Writing the files -/

theorem storeWriteConfig_eq (st : Store) (fs : Fs) {c : StoreConfig} (h : c.value ≠ []) :
    storeWriteConfig st fs c
      = fs.writeFile (st.configFilename c.key) [be32 c.value.length, c.value, [c.type]] := by
  have hlen : c.value.length ≠ 0 := fun hl => h (List.length_eq_zero_iff.mp hl)
  rw [storeWriteConfig, if_neg hlen, Fs.writeFile]
  rcases h₁ : fs.creat (st.configFilename c.key) with ⟨_ | _, fs₁⟩
  · simp [h₁]
  · rcases h₂ : fs₁.write (st.configFilename c.key) (be32 c.value.length) with ⟨_ | _, fs₂⟩
    · simp [Fs.writeAll, h₁, h₂]
    · rcases h₃ : fs₂.write (st.configFilename c.key) c.value with ⟨_ | _, fs₃⟩
      · simp [Fs.writeAll, h₁, h₂, h₃]
      · rcases h₄ : fs₃.write (st.configFilename c.key) [c.type] with ⟨_ | _, fs₄⟩ <;>
          simp [Fs.writeAll, h₁, h₂, h₃, h₄]

theorem writeKeyLines_eq (fs : Fs) (f : CStr) (keys : List CStr) :
    writeKeyLines fs f keys = fs.writeAll f (keys.map (· ++ [newline])) := by
  induction keys generalizing fs with
  | nil => rfl
  | cons key keys ih =>
      rw [writeKeyLines, List.map_cons, Fs.writeAll]
      dsimp only
      split
      · exact ih _
      · rfl

theorem storeWriteInfoFile_eq (st : Store) (fs : Fs) :
    storeWriteInfoFile st fs = fs.writeFile st.infoFilename
      ((decimal st.numKeys ++ [newline]) :: st.keys.map (· ++ [newline])) := by
  rw [storeWriteInfoFile, Fs.writeFile]
  rcases fs.creat st.infoFilename with ⟨_ | _, fs₁⟩
  · simp
  · rcases h₂ : fs₁.write st.infoFilename (decimal st.numKeys ++ [newline]) with ⟨_ | _, fs₂⟩ <;>
      simp [Fs.writeAll, writeKeyLines_eq, h₂]

/-- What `storeWriteConfig` does, whichever operations fail. -/
theorem storeWriteConfig_spec (st : Store) (fs : Fs) (c : StoreConfig) :
    fs.Writes (storeWriteConfig st fs c).2 (· = st.path c.key) ∧
      ((storeWriteConfig st fs c).1 = true → (storeWriteConfig st fs c).2.read
        (st.configFilename c.key) = some (configBytes c.value c.type)) := by
  by_cases hv : c.value = []
  · rw [storeWriteConfig, if_pos (by simp [hv])]
    exact ⟨.refl fs _, fun hok => by simp at hok⟩
  · obtain ⟨hwrites, hread⟩ := Fs.writeFile_spec fs (st.configFilename c.key)
      [be32 c.value.length, c.value, [c.type]]
    rw [storeWriteConfig_eq st fs hv]
    refine ⟨hwrites, fun hok => ?_⟩
    rw [hread hok, configBytes]
    simp

/-- What `storeWriteInfoFile` does, whichever operations fail. -/
theorem storeWriteInfoFile_spec (st : Store) (fs : Fs) :
    fs.Writes (storeWriteInfoFile st fs).2 (· = st.infoPath) ∧
      ((storeWriteInfoFile st fs).1 = true → (storeWriteInfoFile st fs).2.read
        st.infoFilename = some (infoBytes st.numKeys st.keys)) := by
  obtain ⟨hwrites, hread⟩ := Fs.writeFile_spec fs st.infoFilename
    ((decimal st.numKeys ++ [newline]) :: st.keys.map (· ++ [newline]))
  rw [storeWriteInfoFile_eq]
  refine ⟨hwrites, fun hok => ?_⟩
  rw [hread hok, infoBytes, keyLines, List.flatten_cons, List.append_assoc, List.flatMap_def]
  rfl

/-- One round of `storeWriteConfigs`. -/
theorem storeWriteConfigs_cons (st : Store) (fs : Fs) (c : StoreConfig) (rest : List StoreConfig) :
    storeWriteConfigs st fs (c :: rest) =
      let w := storeWriteConfig st fs c
      let r := storeWriteConfigs st w.2 rest
      if w.1 then r else (false, c :: r.2.1, r.2.2) := rfl

/-- `storeWriteConfigs` writes files of the configs, keeps those it could not write, and says so. -/
theorem storeWriteConfigs_frame (st : Store) (fs : Fs) (l : List StoreConfig) :
    fs.Writes (storeWriteConfigs st fs l).2.2 (fun q => ∃ c ∈ l, st.path c.key = q) ∧
      (storeWriteConfigs st fs l).2.1.Sublist l ∧
      ((storeWriteConfigs st fs l).1 = true ↔ (storeWriteConfigs st fs l).2.1 = []) := by
  induction l generalizing fs with
  | nil => exact ⟨.refl fs _, .slnil, by simp [storeWriteConfigs]⟩
  | cons c rest ih =>
      have hone := (storeWriteConfig_spec st fs c).1.mono
        (Q := fun q => ∃ d ∈ c :: rest, st.path d.key = q)
        (fun q hq => ⟨c, List.mem_cons_self, Eq.symm hq⟩)
      obtain ⟨hrest, hsub, hok⟩ := ih (storeWriteConfig st fs c).2
      have hwrites := hone.trans (hrest.mono (Q := fun q => ∃ d ∈ c :: rest, st.path d.key = q)
        (fun q ⟨d, hd, hq⟩ => ⟨d, List.mem_cons_of_mem _ hd, hq⟩))
      rw [storeWriteConfigs_cons]
      dsimp only
      split
      · exact ⟨hwrites, hsub.cons c, hok⟩
      · exact ⟨hwrites, hsub.cons_cons c, by simp⟩

/-- If the configs have different files, each is kept in memory or found in its file. -/
theorem storeWriteConfigs_written {st : Store} {fs : Fs} {l : List StoreConfig}
    (h : l.Pairwise (fun c d => st.path c.key ≠ st.path d.key)) :
    ∀ c ∈ l, c ∈ (storeWriteConfigs st fs l).2.1 ∨
      (storeWriteConfigs st fs l).2.2.read (st.configFilename c.key)
        = some (configBytes c.value c.type) := by
  induction l generalizing fs with
  | nil => simp
  | cons c rest ih =>
      obtain ⟨hhead, htail⟩ := List.pairwise_cons.mp h
      obtain ⟨-, hread⟩ := storeWriteConfig_spec st fs c
      have hframe := (storeWriteConfigs_frame st (storeWriteConfig st fs c).2 rest).1
      have hrest := @ih (storeWriteConfig st fs c).2 htail
      have hother : ¬ ∃ d ∈ rest, st.path d.key = resolve (st.configFilename c.key) :=
        fun ⟨d, hd, hp⟩ => hhead d hd hp.symm
      rw [storeWriteConfigs_cons]
      dsimp only
      intro d hd
      rcases List.mem_cons.mp hd with rfl | hd
      · by_cases hok : (storeWriteConfig st fs d).1 = true
        · rw [if_pos hok]
          exact Or.inr ((hframe.read hother).trans (hread hok))
        · rw [if_neg hok]
          exact Or.inl List.mem_cons_self
      · split
        · exact hrest d hd
        · exact (hrest d hd).imp_left (List.mem_cons_of_mem _)

/-- If all configs are written, their files could be reached. -/
theorem storeWriteConfigs_reaches {st : Store} {fs : Fs} {l : List StoreConfig}
    (h : (storeWriteConfigs st fs l).1 = true) :
    ∀ c ∈ l, fs.reaches (st.configFilename c.key) = true := by
  induction l generalizing fs with
  | nil => simp
  | cons c rest ih =>
      obtain ⟨hone, hread⟩ := storeWriteConfig_spec st fs c
      rw [storeWriteConfigs_cons] at h
      dsimp only at h
      split at h
      · next hok =>
          intro d hd
          rw [← hone.reaches]
          rcases List.mem_cons.mp hd with rfl | hd
          · exact Fs.reaches_of_read (hread hok)
          · exact ih h d hd
      · simp at h

/-- The last config of a list whose file is at a path. -/
def lastConfig (st : Store) (p : Path) : List StoreConfig → Option StoreConfig
  | [] => none
  | c :: cs => (lastConfig st p cs).or (if st.path c.key = p then some c else none)

theorem lastConfig_some {st : Store} {p : Path} {l : List StoreConfig} {c : StoreConfig}
    (h : lastConfig st p l = some c) : c ∈ l ∧ st.path c.key = p := by
  induction l with
  | nil => simp [lastConfig] at h
  | cons d cs ih =>
      rw [lastConfig] at h
      cases hrest : lastConfig st p cs with
      | some e =>
          rw [hrest, Option.some_or] at h
          obtain ⟨hmem, hpath⟩ := ih (hrest.trans h)
          exact ⟨List.mem_cons_of_mem _ hmem, hpath⟩
      | none =>
          rw [hrest, Option.none_or] at h
          split at h
          · next hd =>
              rw [← Option.some.inj h]
              exact ⟨List.mem_cons_self, hd⟩
          · simp at h

theorem lastConfig_none {st : Store} {p : Path} {l : List StoreConfig}
    (h : lastConfig st p l = none) : ∀ c ∈ l, st.path c.key ≠ p := by
  induction l with
  | nil => simp
  | cons d cs ih =>
      rw [lastConfig, Option.or_eq_none_iff] at h
      intro c hc
      rcases List.mem_cons.mp hc with rfl | hc
      · intro hp
        rw [if_pos hp] at h
        simp at h
      · exact ih h.1 c hc

/-- If all configs are written, each file holds the last one that belongs there. -/
theorem storeWriteConfigs_read {st : Store} {fs : Fs} {l : List StoreConfig}
    (h : (storeWriteConfigs st fs l).1 = true) (key : CStr) :
    (storeWriteConfigs st fs l).2.2.read (st.configFilename key) =
      match lastConfig st (st.path key) l with
      | some c => if fs.reaches (st.configFilename key) then some
        (configBytes c.value c.type) else none
      | none => fs.read (st.configFilename key) := by
  induction l generalizing fs with
  | nil => rfl
  | cons c rest ih =>
      obtain ⟨hone, hread⟩ := storeWriteConfig_spec st fs c
      have hframe := (storeWriteConfigs_frame st (storeWriteConfig st fs c).2 rest).1
      rw [storeWriteConfigs_cons] at h ⊢
      dsimp only at h ⊢
      split at h
      · next hok =>
          rw [if_pos hok, ih h, lastConfig]
          cases hlast : lastConfig st (st.path key) rest with
          | some d => simp only [Option.some_or, hone.reaches]
          | none =>
              rw [Option.none_or]
              dsimp only
              by_cases hp : st.path c.key = st.path key
              · rw [if_pos hp]
                dsimp only
                have := hread hok
                rw [Fs.read] at this ⊢
                rw [show resolve (st.configFilename key) = resolve
                  (st.configFilename c.key) from hp.symm]
                split at this
                · rw [this, hone.reaches]
                · simp at this
              · rw [if_neg hp]
                exact hone.read (Ne.symm hp)
      · simp at h

/-! ## Writing the store -/

/-- The directory of a store is made if it is not there. -/
def Store.prepare (st : Store) (fs : Fs) : Fs :=
  if fs.lashDirExists st.dir then fs else fs.lashCreateDir st.dir

theorem Store.prepare_makesDirs (st : Store) (fs : Fs) : fs.MakesDirs (st.prepare fs) := by
  rw [prepare]
  split
  · exact fun q => Or.inl rfl
  · exact fs.lashCreateDir_makesDirs st.dir

/-- The files that a store writes: those of the values in memory, and the info file. -/
def Store.Owns (st : Store) (q : Path) : Prop :=
  q = st.infoPath ∨ ∃ c ∈ st.unstoredConfigs, st.path c.key = q

/-- How `storeWrite` goes when it has something to do: the values cannot all be written, the info
file cannot, or both can. -/
theorem storeWrite_cases {st : Store} (h : st.removedKeys = []) (hne : st.unstoredConfigs ≠ [])
    (fs : Fs) : ∃ ok left fs₁,
      storeWriteConfigs st (st.prepare fs) st.unstoredConfigs = (ok, left, fs₁) ∧
        (ok = false ∧ storeWrite st fs = (false, { st with unstoredConfigs := left }, fs₁) ∨
          ok = true ∧ ∃ ok' fs₂, storeWriteInfoFile st fs₁ = (ok', fs₂) ∧
            storeWrite st fs = (ok', { st with unstoredConfigs := [] }, fs₂)) := by
  rcases hw : storeWriteConfigs st (st.prepare fs) st.unstoredConfigs with ⟨ok, left, fs₁⟩
  have hleft := (storeWriteConfigs_frame st (st.prepare fs) st.unstoredConfigs).2.2
  rw [hw] at hleft
  refine ⟨ok, left, fs₁, rfl, ?_⟩
  rw [Store.prepare] at hw
  cases ok with
  | false =>
      left
      simp [storeWrite, hne, hw]
  | true =>
      right
      have hnil : left = [] := hleft.mp rfl
      subst hnil
      have hinfo : ∀ removed fs, storeWriteInfoFile
          { st with removedKeys := removed, unstoredConfigs := [] } fs
            = storeWriteInfoFile st fs := fun _ _ => rfl
      rcases hi : storeWriteInfoFile st fs₁ with ⟨_ | _, fs₂⟩
      · refine ⟨rfl, false, fs₂, rfl, ?_⟩
        simp [storeWrite, hne, hw, hinfo, hi, h]
      · refine ⟨rfl, true, fs₂, rfl, ?_⟩
        simp [storeWrite, hne, hw, hinfo, hi, h, storeDeleteRemovedConfigs]

/-- What `storeWrite` does, whichever operations fail. If it has nothing to write it does nothing;
else it works on the files it owns, and forgets the values it could write. -/
theorem storeWrite_frame {st : Store} (h : st.removedKeys = []) (fs : Fs) :
    st.unstoredConfigs = [] ∧ storeWrite st fs = (true, st, fs) ∨
      st.unstoredConfigs ≠ [] ∧ (st.prepare fs).Writes (storeWrite st fs).2.2 st.Owns ∧
        ∃ left, left.Sublist st.unstoredConfigs ∧
          (storeWrite st fs).2.1 = { st with unstoredConfigs := left } ∧
          ((storeWrite st fs).1 = true → left = []) := by
  by_cases hne : st.unstoredConfigs = []
  · exact Or.inl ⟨hne, if_pos hne⟩
  · obtain ⟨hconfigs, hsub, -⟩ := storeWriteConfigs_frame st (st.prepare fs) st.unstoredConfigs
    have hconfigs := hconfigs.mono (Q := st.Owns) (fun q hq => Or.inr hq)
    refine Or.inr ⟨hne, ?_⟩
    obtain ⟨ok, left, fs₁, hw, ⟨-, heq⟩ | ⟨-, ok', fs₂, hi, heq⟩⟩ := storeWrite_cases h hne fs
    · rw [hw] at hconfigs hsub
      rw [heq]
      exact ⟨hconfigs, left, hsub, rfl, fun hok => by simp at hok⟩
    · rw [hw] at hconfigs
      have hinfo := (storeWriteInfoFile_spec st fs₁).1.mono (Q := st.Owns) (fun q hq => Or.inl hq)
      rw [hi] at hinfo
      rw [heq]
      exact ⟨hconfigs.trans hinfo, [], List.nil_sublist _, rfl, fun _ => rfl⟩

/-- **What is on the disk after a successful write** that had something to do: the info file lists
the keys, and under every other path there is what the last config there says, or what was there. -/
theorem storeWrite_read {st : Store} {fs : Fs} (h : st.removedKeys = [])
    (hne : st.unstoredConfigs ≠ []) (hok : (storeWrite st fs).1 = true) :
    (storeWrite st fs).2.2.read st.infoFilename = some (infoBytes st.numKeys st.keys) ∧
      ∀ key, st.path key ≠ st.infoPath → (storeWrite st fs).2.2.read (st.configFilename key) =
        match lastConfig st (st.path key) st.unstoredConfigs with
        | some c => if (st.prepare fs).reaches (st.configFilename key) then
            some (configBytes c.value c.type) else none
        | none => (st.prepare fs).read (st.configFilename key) := by
  have hread := @storeWriteConfigs_read st (st.prepare fs) st.unstoredConfigs
  obtain ⟨ok, left, fs₁, hw, ⟨-, heq⟩ | ⟨rfl, ok', fs₂, hi, heq⟩⟩ := storeWrite_cases h hne fs
  · rw [heq] at hok
    simp at hok
  · rw [hw] at hread
    obtain ⟨hframe, hinfo⟩ := storeWriteInfoFile_spec st fs₁
    rw [heq] at hok ⊢
    rw [hi] at hframe hinfo
    exact ⟨hinfo hok, fun key hkey => (hframe.read hkey).trans (hread rfl key)⟩

/-- A store that was written could reach the files of the values in memory. -/
theorem storeWrite_reaches {st : Store} {fs : Fs} (h : st.removedKeys = [])
    (hok : (storeWrite st fs).1 = true) :
    ∀ c ∈ st.unstoredConfigs, (st.prepare fs).reaches (st.configFilename c.key) = true := by
  by_cases hne : st.unstoredConfigs = []
  · simp [hne]
  · obtain ⟨ok, left, fs₁, hw, ⟨-, heq⟩ | ⟨rfl, -⟩⟩ := storeWrite_cases h hne fs
    · rw [heq] at hok
      simp at hok
    · exact storeWriteConfigs_reaches (congrArg Prod.fst hw)

/-- **The data set on the disk after a successful write** that had something to do. -/
theorem storeWrite_onDisk {st : Store} {fs : Fs} (h : st.removedKeys = [])
    (hne : st.unstoredConfigs ≠ []) (hok : (storeWrite st fs).1 = true) (key : CStr) :
    st.onDisk (storeWrite st fs).2.2 key =
      if (st.prepare fs).reaches (st.configFilename key) then
        if st.path key = st.infoPath then parseConfigFile (infoBytes st.numKeys st.keys)
        else match lastConfig st (st.path key) st.unstoredConfigs with
          | some c => parseConfigFile (configBytes c.value c.type)
          | none => st.onDisk (st.prepare fs) key
      else none := by
  obtain ⟨hinfo, hread⟩ := storeWrite_read h hne hok
  obtain ⟨heq, -⟩ | ⟨-, hwrites, -⟩ := storeWrite_frame h fs
  · exact absurd heq hne
  · by_cases hreach : (st.prepare fs).reaches (st.configFilename key) = true
    · rw [if_pos hreach]
      by_cases hpath : st.path key = st.infoPath
      · have hreach' : (storeWrite st fs).2.2.reaches (st.configFilename key) = true :=
          (hwrites.reaches _).trans hreach
        rw [if_pos hpath, Store.onDisk,
          Fs.read_eq_of_resolve hreach' (Fs.reaches_of_read hinfo) hpath, hinfo, Option.bind_some]
      · rw [if_neg hpath, Store.onDisk, hread key hpath]
        cases lastConfig st (st.path key) st.unstoredConfigs with
        | none => rfl
        | some c =>
            dsimp only
            rw [if_pos hreach, Option.bind_some]
    · rw [if_neg hreach, Store.onDisk, Fs.read, hwrites.reaches, if_neg hreach, Option.bind_none]

/-- A well-formed store stays so. -/
theorem Store.Ok.write {st : Store} (h : st.Ok) (fs : Fs) : (storeWrite st fs).2.1.Ok := by
  rcases storeWrite_frame h.kept fs with ⟨-, heq⟩ | ⟨-, -, left, hsub, heq, -⟩
  · rw [heq]
    exact h
  · rw [heq]
    exact ⟨h.count, fun c hc => h.listed c (hsub.subset hc), h.distinct.sublist (hsub.map _),
      fun c hc => h.filled c (hsub.subset hc), h.kept⟩

end Lash
