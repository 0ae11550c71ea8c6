import Lash.Round
import Lash.Commit

/-!
# Data sets that are refused

A `CommitDataSet` call with an entry that cannot be taken is answered with an error, but the entries
in front of that one are in the store by then, and every later use of the store writes them.
`CommitAtomic` says that nobody can tell such a call from none. It is so if each of these entries
repeats what is still in memory under its key — in particular if the bad entry is the first one —
and for stores whose keys have files of their own only then (`refused_is_atomic`).
-/

namespace Lash

/-! ## Uses of a store -/

/-- The data set that a store gives back: what `storeGetConfig` finds under the keys it lists. -/
def Store.content (st : Store) (fs : Fs) (k : CStr) : Option (List UInt8 × UInt8) :=
  if k ∈ st.keys then st.dataSet fs k else none

/-- Something the daemon does with the store of a client. -/
inductive StoreUse where
  | write
  | openAt (dir : CStr)
  | close
  /-- The client is lost. -/
  | lose (p : Project)

/-- The client and the disk after a use. -/
def StoreUse.run (fs : Fs) (c : Client) : StoreUse → Client × Fs
  | .write =>
    match c.store with
    | none => (c, fs)
    | some st => ({ c with store := some (storeWrite st fs).2.1 }, (storeWrite st fs).2.2)
  | .openAt dir => (clientStoreOpen fs c dir).2
  | .close => (clientStoreClose fs c).2
  | .lose p => ((loseStore fs c).1, loseDirs p (loseStore fs c).2 (loseStore fs c).1)

/-- The client and the disk after some uses, each with its own outcomes of the operations. -/
def runUses (x : Client × Fs) (uses : List (StoreUse × List Fault)) : Client × Fs :=
  uses.foldl (fun x u => u.1.run (x.2.withFaults u.2) x.1) x

/-- Nobody can tell the client `c` from one whose store is `st'`: neither from what the store
gives back now, nor from what it gives back or what is on the disk after any later uses. -/
def SameToAll (fs : Fs) (c : Client) (st st' : Store) : Prop :=
  (∀ k, st'.content fs k = st.content fs k) ∧
    ∀ uses k,
      let x := runUses (c, fs) uses
      let y := runUses ({ c with store := some st' }, fs) uses
      y.1.store.map (·.content y.2 k) = x.1.store.map (·.content x.2 k) ∧
        st.onDisk y.2 k = st.onDisk x.2 k

/-- A call whose array is `elems` leaves nothing behind. -/
def CommitAtomic (fs : Fs) (c : Client) (st : Store) (elems : List ArrayElem) : Prop :=
  SameToAll fs c st (commitConfigs st elems).2

/-- Each entry that is taken repeats, in the end, what is in memory under its key. -/
def Repeats (st : Store) (elems : List ArrayElem) : Prop :=
  ∀ k ∈ (taken elems).map Setting.key, ∃ c ∈ st.unstoredConfigs, c.key = k ∧
    setAll (fun _ => none) (taken elems) k = some (c.value, c.type)

/-- The keys of a store have files of their own. -/
def Store.Apart (st : Store) : Prop :=
  ∀ k ∈ st.keys, ∀ k' ∈ st.keys, st.path k = st.path k' → k = k'

/-! ## Stores that differ in their buffers only -/

/-- What a config is, apart from the size of its buffer. -/
def StoreConfig.content (c : StoreConfig) : CStr × List UInt8 × UInt8 := (c.key, c.value, c.type)

structure Store.Alike (st st' : Store) : Prop where
  dir : st'.dir = st.dir
  numKeys : st'.numKeys = st.numKeys
  keys : st'.keys = st.keys
  kept : st.removedKeys = [] ∧ st'.removedKeys = []
  unstored : st'.unstoredConfigs.map StoreConfig.content =
    st.unstoredConfigs.map StoreConfig.content

section

variable {st st' : Store} {fs : Fs}

theorem storeWriteConfig_congr {c c' : StoreConfig} (hdir : st'.dir = st.dir)
    (h : c'.content = c.content) : storeWriteConfig st' fs c' = storeWriteConfig st fs c := by
  simp only [StoreConfig.content, Prod.mk.injEq] at h
  by_cases hv : c.value = []
  · rw [storeWriteConfig, storeWriteConfig, if_pos (by simp [h.2.1, hv]), if_pos (by simp [hv])]
  · rw [storeWriteConfig_eq st fs hv, storeWriteConfig_eq st' fs (by rwa [h.2.1]),
      Store.configFilename, Store.configFilename, hdir, h.1, h.2.1, h.2.2]

theorem storeWriteConfigs_congr (hdir : st'.dir = st.dir) {l l' : List StoreConfig}
    (h : l'.map StoreConfig.content = l.map StoreConfig.content) :
    (storeWriteConfigs st' fs l').1 = (storeWriteConfigs st fs l).1 ∧
      (storeWriteConfigs st' fs l').2.1.map StoreConfig.content
        = (storeWriteConfigs st fs l).2.1.map StoreConfig.content ∧
      (storeWriteConfigs st' fs l').2.2 = (storeWriteConfigs st fs l).2.2 := by
  induction l generalizing l' fs with
  | nil =>
      rw [List.map_nil, List.map_eq_nil_iff] at h
      subst h
      exact ⟨rfl, rfl, rfl⟩
  | cons c l ih =>
      cases l' with
      | nil => simp at h
      | cons c' l' =>
          obtain ⟨hc, hl⟩ := List.cons.inj h
          rw [storeWriteConfigs_cons, storeWriteConfigs_cons, storeWriteConfig_congr hdir hc]
          obtain ⟨hok, hleft, hfs⟩ := @ih (storeWriteConfig st fs c).2 l' hl
          dsimp only
          split
          · exact ⟨hok, hleft, hfs⟩
          · exact ⟨rfl, by simp only [List.map_cons, hc, hleft], hfs⟩

/-- Stores that are alike are written alike. -/
theorem Store.Alike.write (h : st.Alike st') (fs : Fs) :
    (storeWrite st fs).2.1.Alike (storeWrite st' fs).2.1 ∧
      (storeWrite st' fs).2.2 = (storeWrite st fs).2.2 := by
  by_cases hne : st.unstoredConfigs = []
  · have hne' : st'.unstoredConfigs = [] := by
      have := h.unstored
      rwa [hne, List.map_nil, List.map_eq_nil_iff] at this
    rw [storeWrite, storeWrite, if_pos hne, if_pos hne']
    exact ⟨h, rfl⟩
  · have hne' : st'.unstoredConfigs ≠ [] := by
      intro hnil
      have := h.unstored
      rw [hnil, List.map_nil, eq_comm, List.map_eq_nil_iff] at this
      exact hne this
    have hprepare : st'.prepare fs = st.prepare fs := by rw [Store.prepare, Store.prepare, h.dir]
    obtain ⟨hok, hleft, hfs⟩ := @storeWriteConfigs_congr st st' (st.prepare fs) h.dir _ _ h.unstored
    have hinfo : ∀ fs, storeWriteInfoFile st' fs = storeWriteInfoFile st fs := by
      intro fs
      rw [storeWriteInfoFile_eq, storeWriteInfoFile_eq, Store.infoFilename, Store.infoFilename,
        h.dir, h.numKeys, h.keys]
    obtain ⟨ok, left, fs₁, hw, hcases⟩ := storeWrite_cases h.kept.1 hne fs
    obtain ⟨ok', left', fs₁', hw', hcases'⟩ := storeWrite_cases h.kept.2 hne' fs
    rw [hprepare] at hw'
    rw [hw, hw'] at hok hleft hfs
    dsimp only at hok hleft hfs
    subst hok hfs
    obtain ⟨hbad, heq⟩ | ⟨hgood, ok, fs₂, hi, heq⟩ := hcases
    · obtain ⟨-, heq'⟩ | ⟨hgood, -⟩ := hcases'
      · rw [heq, heq']
        exact ⟨⟨h.dir, h.numKeys, h.keys, h.kept, hleft⟩, rfl⟩
      · simp [hbad] at hgood
    · obtain ⟨hbad, -⟩ | ⟨-, ok', fs₂', hi', heq'⟩ := hcases'
      · simp [hgood] at hbad
      · rw [hinfo, hi] at hi'
        obtain ⟨rfl, rfl⟩ := Prod.mk.inj hi'
        rw [heq, heq']
        exact ⟨⟨h.dir, h.numKeys, h.keys, h.kept, rfl⟩, rfl⟩

/-- Stores that are alike give the same data set. -/
theorem Store.Alike.content (h : st.Alike st') (fs : Fs) (k : CStr) :
    st'.content fs k = st.content fs k := by
  have hfind : ∀ l l' : List StoreConfig,
      l'.map StoreConfig.content = l.map StoreConfig.content →
      (l'.find? (fun c => c.key = k)).map StoreConfig.content
        = (l.find? (fun c => c.key = k)).map StoreConfig.content := by
    intro l
    induction l with
    | nil =>
        intro l' hl
        rw [List.map_nil, List.map_eq_nil_iff] at hl
        rw [hl]
    | cons c l ih =>
        intro l' hl
        cases l' with
        | nil => simp at hl
        | cons c' l' =>
            obtain ⟨hc, hl⟩ := List.cons.inj hl
            have hkey : c'.key = c.key := congrArg Prod.fst hc
            by_cases hk : c.key = k
            · rw [List.find?_cons_of_pos (by simpa [hkey] using hk),
                List.find?_cons_of_pos (by simpa using hk), Option.map_some, Option.map_some, hc]
            · rw [List.find?_cons_of_neg (by simpa [hkey] using hk),
                List.find?_cons_of_neg (by simpa using hk), ih l' hl]
  have := hfind _ _ h.unstored
  rw [Store.content, Store.content, h.keys]
  congr 1
  simp only [Store.dataSet, storeGetConfig, storeGetUnstoredConfig, Store.configFilename, h.dir]
  cases hl : st.unstoredConfigs.find? (fun c => c.key = k) with
  | none =>
      rw [hl, Option.map_none, Option.map_eq_none_iff] at this
      rw [this]
  | some c =>
      rw [hl, Option.map_some] at this
      obtain ⟨c', hc', heq⟩ := Option.map_eq_some_iff.mp this
      simp only [StoreConfig.content, Prod.mk.injEq] at heq
      rw [hc']
      simp only [heq.2.1, heq.2.2]

/-- Two clients that are the same, up to stores that are alike. -/
inductive SameClient (c : Client) : Client → Prop
  | refl : SameClient c c
  | store {s₁ s₂ : Store} (hst : c.store = some s₁) (h : s₁.Alike s₂) :
      SameClient c { c with store := some s₂ }

/-- Clients that are the same are used alike. -/
theorem SameClient.run {c c' : Client} (h : SameClient c c') (fs : Fs) (u : StoreUse) :
    SameClient (u.run fs c).1 (u.run fs c').1 ∧ (u.run fs c').2 = (u.run fs c).2 := by
  cases h with
  | refl => exact ⟨.refl, rfl⟩
  | @store st st' hst halike =>
      obtain ⟨hafter, hfs⟩ := halike.write fs
      cases u with
      | write =>
          simp only [StoreUse.run, hst]
          exact ⟨.store rfl hafter, hfs⟩
      | openAt dir =>
          simp only [StoreUse.run, clientStoreOpen, hst, hfs]
          exact ⟨.refl, trivial⟩
      | close =>
          simp only [StoreUse.run, clientStoreClose, hst, hfs]
          exact ⟨.refl, trivial⟩
      | lose p =>
          have hlose : SameClient (loseStore fs c).1 (loseStore fs { c with store := some st' }).1 ∧
              (loseStore fs { c with store := some st' }).2 = (loseStore fs c).2 := by
            simp only [loseStore, hst]
            split
            · exact ⟨.store hst halike, rfl⟩
            · simp only [halike.keys, halike.dir]
              split
              · exact ⟨.store rfl hafter, hfs⟩
              · exact ⟨.store hst halike, rfl⟩
          have hdirs : ∀ c₁ c₂ : Client, SameClient c₁ c₂ → ∀ fs,
              loseDirs p fs c₂ = loseDirs p fs c₁ := by
            intro c₁ c₂ hsame fs
            cases hsame <;> rfl
          simp only [StoreUse.run]
          exact ⟨hlose.1, by rw [hlose.2, hdirs _ _ hlose.1]⟩

theorem SameClient.runUses {c c' : Client} (h : SameClient c c') (fs : Fs)
    (uses : List (StoreUse × List Fault)) :
    SameClient (runUses (c, fs) uses).1 (runUses (c', fs) uses).1 ∧
      (Lash.runUses (c', fs) uses).2 = (Lash.runUses (c, fs) uses).2 := by
  induction uses generalizing c c' fs with
  | nil => exact ⟨h, rfl⟩
  | cons u uses ih =>
      obtain ⟨hsame, hfs⟩ := h.run (fs.withFaults u.2) u.1
      have hnext : u.1.run (fs.withFaults u.2) c'
          = ((u.1.run (fs.withFaults u.2) c').1, (u.1.run (fs.withFaults u.2) c).2) :=
        Prod.ext rfl hfs
      show SameClient (Lash.runUses (u.1.run (fs.withFaults u.2) c) uses).1
          (Lash.runUses (u.1.run (fs.withFaults u.2) c') uses).1 ∧
        (Lash.runUses (u.1.run (fs.withFaults u.2) c') uses).2
          = (Lash.runUses (u.1.run (fs.withFaults u.2) c) uses).2
      rw [hnext]
      exact ih hsame _

/-- **Nobody tells stores apart that are alike.** -/
theorem Store.Alike.sameToAll {c : Client} (h : st.Alike st') (hc : c.store = some st) (fs : Fs) :
    SameToAll fs c st st' := by
  refine ⟨h.content fs, fun uses k => ?_⟩
  obtain ⟨hsame, hfs⟩ := (SameClient.store hc h).runUses fs uses
  dsimp only
  rw [hfs]
  refine ⟨?_, rfl⟩
  generalize (runUses (c, fs) uses).1 = x at hsame ⊢
  generalize (runUses ({ c with store := some st' }, fs) uses).1 = y at hsame ⊢
  cases hsame with
  | refl => rfl
  | store hst halike => rw [hst, Option.map_some, Option.map_some, halike.content]

/-! ## Repeating what is in memory -/

/-- The value a list of settings leaves under a key that it sets depends on nothing else. -/
theorem setAll_congr {D D' : CStr → Option (List UInt8 × UInt8)} {xs : List Setting} {k : CStr}
    (h : k ∈ xs.map Setting.key) : setAll D xs k = setAll D' xs k := by
  induction xs generalizing D D' with
  | nil => simp at h
  | cons x xs ih =>
      show setAll (Function.update D x.key _) xs k = setAll (Function.update D' x.key _) xs k
      by_cases hk : k ∈ xs.map Setting.key
      · exact ih hk
      · rw [List.map_cons, List.mem_cons, or_iff_left hk] at h
        rw [setAll_of_not_mem hk, setAll_of_not_mem hk, h, Function.update_self,
          Function.update_self]

/-- Setting keys that are in memory adds none. -/
theorem Store.setAll_keys_eq {st : Store} (hok : st.Ok) {xs : List Setting}
    (h : ∀ k ∈ xs.map Setting.key, k ∈ st.unstoredConfigs.map StoreConfig.key) :
    (st.setAll xs).keys = st.keys ∧
      (st.setAll xs).unstoredConfigs.map StoreConfig.key
        = st.unstoredConfigs.map StoreConfig.key := by
  induction xs generalizing st with
  | nil => exact ⟨rfl, rfl⟩
  | cons x xs ih =>
      have hx := h x.key (by simp)
      obtain ⟨-, -, hkeys, huns⟩ := storeSetConfig_fields st x.key_ok.1 x.value_ok x.type
      obtain ⟨c, hc, hcx⟩ := List.mem_map.mp hx
      have hlisted : x.key ∈ st.keys := hcx ▸ hok.listed c hc
      have huns' := congrArg (List.map StoreConfig.key) huns
      rw [putConfig_keys, if_pos hx] at huns'
      rw [if_pos hlisted] at hkeys
      obtain ⟨hk, hu⟩ := ih (hok.set x.key x.value x.type) (fun k hk => by
        rw [huns']
        exact h k (List.mem_cons_of_mem _ hk))
      exact ⟨hk.trans hkeys, hu.trans huns'⟩

/-- The configs in memory are what the data set says about their keys. -/
theorem Store.Ok.unstored_content (hok : st.Ok) (fs : Fs) :
    st.unstoredConfigs.map StoreConfig.content = (st.unstoredConfigs.map StoreConfig.key).map
      (fun k => (k, (st.dataSet fs k).getD ([], 0))) := by
  rw [List.map_map]
  apply List.map_congr_left
  intro c hc
  rw [Function.comp_apply, hok.dataSet_unstored fs hc]
  rfl

/-- What is in memory stays in front. -/
theorem Store.setAll_unstored_prefix (st : Store) (xs : List Setting) :
    st.unstoredConfigs.map StoreConfig.key
      <+: (st.setAll xs).unstoredConfigs.map StoreConfig.key := by
  induction xs generalizing st with
  | nil => exact List.prefix_refl _
  | cons x xs ih =>
      refine List.IsPrefix.trans ?_ (ih (storeSetConfig st x.key x.value x.type).2)
      rw [(storeSetConfig_fields st x.key_ok.1 x.value_ok x.type).2.2.2, putConfig_keys]
      split
      · exact List.prefix_refl _
      · exact List.prefix_append _ _

theorem Repeats.alike (hok : st.Ok) {elems : List ArrayElem} (h : Repeats st elems) :
    st.Alike (st.setAll (taken elems)) := by
  have hmem : ∀ k ∈ (taken elems).map Setting.key, k ∈ st.unstoredConfigs.map StoreConfig.key := by
    intro k hk
    obtain ⟨c, hc, rfl, -⟩ := h k hk
    exact List.mem_map_of_mem hc
  have hok' := hok.setAll (taken elems)
  obtain ⟨hkeys, huns⟩ := Store.setAll_keys_eq hok hmem
  have fs : Fs := ⟨[], []⟩
  refine ⟨st.setAll_dir _, ?_, hkeys, ⟨hok.kept, hok'.kept⟩, ?_⟩
  · rw [hok'.count, hok.count, hkeys]
  · rw [hok'.unstored_content fs, hok.unstored_content fs, huns]
    apply List.map_congr_left
    intro k hk
    have hsame : (st.setAll (taken elems)).dataSet fs k = st.dataSet fs k := by
      rw [Store.setAll_dataSet]
      by_cases htaken : k ∈ (taken elems).map Setting.key
      · obtain ⟨c, hc, rfl, hval⟩ := h k htaken
        rw [setAll_congr htaken, hval, hok.dataSet_unstored fs hc]
      · exact setAll_of_not_mem htaken
    rw [hsame]

/-! ## Telling a refused call -/

@[simp] theorem Fs.fault_withFaults (fs : Fs) (f : Fault) (rest : List Fault) :
    (fs.withFaults (f :: rest)).fault = f := rfl

@[simp] theorem Fs.next_withFaults (fs : Fs) (f : Fault) (rest : List Fault) :
    (fs.withFaults (f :: rest)).next = fs.withFaults rest := rfl

@[simp] theorem Fs.reaches_withFaults (fs : Fs) (faults : List Fault) (f : CStr) :
    (fs.withFaults faults).reaches f = fs.reaches f :=
  @Fs.reachesFrom_congr fs (fs.withFaults faults) (fun _ => rfl) [] (splitSlash f)

/-- The files of the first configs cannot be created. -/
theorem storeWriteConfigs_refused {l₁ : List StoreConfig} (h : ∀ c ∈ l₁, c.value ≠ [])
    (l : List StoreConfig) (fs : Fs) (rest : List Fault) :
    let w := storeWriteConfigs st (fs.withFaults (List.replicate l₁.length (some 0) ++ rest))
      (l₁ ++ l)
    let r := storeWriteConfigs st (fs.withFaults rest) l
    (w.1 = true → l₁ = [] ∧ r.1 = true) ∧ w.2.2 = r.2.2 := by
  induction l₁ with
  | nil => exact ⟨fun hw => ⟨rfl, hw⟩, rfl⟩
  | cons c l₁ ih =>
      have hone : ∀ faults, storeWriteConfig st (fs.withFaults (some 0 :: faults)) c
          = (false, fs.withFaults faults) := by
        intro faults
        rw [storeWriteConfig_eq st _ (h c List.mem_cons_self), Fs.writeFile, Fs.creat]
        simp
      obtain ⟨-, hfs⟩ := ih fun d hd => h d (List.mem_cons_of_mem _ hd)
      rw [List.length_cons, List.replicate_succ, List.cons_append, List.cons_append]
      dsimp only
      rw [storeWriteConfigs_cons, hone]
      exact ⟨fun hw => by simp at hw, hfs⟩

/-- A file is created, and then nothing can be written into it. -/
theorem storeWriteConfig_emptied {fs : Fs} {c : StoreConfig} {data : List UInt8}
    (hc : c.value ≠ []) (h : fs.read (st.configFilename c.key) = some data) :
    (storeWriteConfig st (fs.withFaults [none, some 0]) c).1 = false ∧
      (storeWriteConfig st (fs.withFaults [none, some 0]) c).2.read (st.configFilename c.key)
        = some [] := by
  have hreach := Fs.reaches_of_read h
  have hbytes : fs.bytes (resolve (st.configFilename c.key)) = some data := by
    rwa [Fs.read, if_pos hreach] at h
  have hfile := Fs.isDir_of_bytes hbytes
  obtain ⟨hframe, -⟩ := storeWriteConfig_spec st (fs.withFaults [none, some 0]) c
  rw [storeWriteConfig_eq st _ hc] at hframe ⊢
  have hcreat : (fs.withFaults [none, some 0]).creat (st.configFilename c.key)
      = (true, (fs.withFaults [some 0]).put (resolve (st.configFilename c.key)) (.file [])) :=
    if_pos ⟨by rw [Fs.reaches_withFaults, hreach],
      fun hdir => by simp [show fs.isDir _ = true from hdir] at hfile, rfl⟩
  rw [Fs.writeFile, hcreat] at hframe ⊢
  have hopen : ((fs.withFaults [some 0]).put (resolve (st.configFilename c.key)) (.file [])).bytes
      (resolve (st.configFilename c.key)) = some [] := Fs.bytes_put hfile []
  simp only [Fs.writeAll, Fs.write, hopen] at hframe ⊢
  refine ⟨rfl, ?_⟩
  rw [Fs.read, hframe.reaches, Fs.reaches_withFaults, if_pos hreach]
  exact Fs.bytes_put (Fs.isDir_of_bytes hopen) []

/-- If the file of a key can be reached, the directory is there. -/
theorem Store.lashDirExists_of_read {fs : Fs} {key : CStr} {data : List UInt8}
    (h : fs.read (st.configFilename key) = some data) : fs.lashDirExists st.dir = true := by
  have hway : ∀ (cs ds : List CStr) (p : Path), cs ≠ [] → ds ≠ [] →
      fs.reachesFrom p (cs ++ ds) = true →
        fs.reachesFrom p cs = true ∧ fs.isDir (cs.foldl walk p) = true := by
    intro cs ds p hcs hds
    induction cs generalizing p with
    | nil => exact absurd rfl hcs
    | cons c cs ih =>
        cases cs with
        | nil =>
            cases ds with
            | nil => exact absurd rfl hds
            | cons d ds =>
                intro hreach
                obtain ⟨hdir, hrest⟩ := Bool.and_eq_true_iff.mp hreach
                refine ⟨hdir, ?_⟩
                cases ds with
                | nil => exact hrest
                | cons d' ds => exact (Bool.and_eq_true_iff.mp hrest).1
        | cons c' cs =>
            intro hreach
            obtain ⟨hdir, hrest⟩ := Bool.and_eq_true_iff.mp hreach
            obtain ⟨hcs, hend⟩ := ih (walk p c) (by simp) hrest
            exact ⟨Bool.and_eq_true_iff.mpr ⟨hdir, hcs⟩, hend⟩
  have hreach := Fs.reaches_of_read h
  rw [Store.configFilename, Fs.reaches, splitSlash_fqn] at hreach
  obtain ⟨hdir, hend⟩ := hway _ _ _ (splitSlash_ne_nil _) (splitSlash_ne_nil _) hreach
  exact Bool.and_eq_true_iff.mpr ⟨hdir, hend⟩

theorem Store.prepare_of_dir {fs : Fs} (h : fs.lashDirExists st.dir = true) (faults : List Fault) :
    st.prepare (fs.withFaults faults) = fs.withFaults faults := by
  have hdir : (fs.withFaults faults).lashDirExists st.dir = fs.lashDirExists st.dir := by
    rw [Fs.lashDirExists, Fs.reaches_withFaults]
    rfl
  rw [Store.prepare, hdir, if_pos h]

/-- If a config is in memory and on the disk, a write can leave an empty file behind. -/
theorem storeWrite_emptied (hok : st.Ok) {fs : Fs} {l₁ l₂ : List StoreConfig} {c : StoreConfig}
    (huns : st.unstoredConfigs = l₁ ++ c :: l₂) {data : List UInt8}
    (hdisk : fs.read (st.configFilename c.key) = some data)
    (hpaths : ∀ d ∈ l₂, st.path d.key ≠ st.path c.key) :
    st.onDisk (storeWrite st (fs.withFaults
      (List.replicate l₁.length (some 0) ++ [none, some 0]))).2.2 c.key = none := by
  have hfilled : ∀ d ∈ l₁ ++ c :: l₂, d.value ≠ [] := huns ▸ hok.filled
  obtain ⟨hall, hfs⟩ := @storeWriteConfigs_refused st l₁
    (fun d hd => hfilled d (List.mem_append_left _ hd)) (c :: l₂) fs [none, some 0]
  obtain ⟨hbad, hempty⟩ := storeWriteConfig_emptied (hfilled c (by simp)) hdisk
  rw [storeWriteConfigs_cons] at hall hfs
  dsimp only at hall hfs
  rw [hbad, if_neg (by simp)] at hall hfs
  obtain ⟨hframe, -, -⟩ := storeWriteConfigs_frame st
    (storeWriteConfig st (fs.withFaults [none, some 0]) c).2 l₂
  have hne : st.unstoredConfigs ≠ [] := by simp [huns]
  obtain ⟨ok, left, fs₁, hw, hcases⟩ := storeWrite_cases hok.kept hne
    (fs.withFaults (List.replicate l₁.length (some 0) ++ [none, some 0]))
  rw [Store.prepare_of_dir (Store.lashDirExists_of_read hdisk), huns] at hw
  rw [hw] at hall hfs
  dsimp only at hall hfs
  obtain ⟨-, heq⟩ | ⟨hgood, -⟩ := hcases
  · have hlast : fs₁.read (st.configFilename c.key) = some [] := by
      rw [hfs, hframe.read (fun ⟨d, hd, hp⟩ => hpaths d hd hp), hempty]
    rw [heq, Store.onDisk, hlast]
    rfl
  · have := (hall hgood).2
    simp at this

/-- A write whose first operations all fail changes no file. -/
theorem storeWrite_refused (hok : st.Ok) {fs : Fs} {n : Nat} (hn : st.unstoredConfigs.length ≤ n)
    (hdir : fs.lashDirExists st.dir = true) (rest : List Fault) (f : CStr) :
    (storeWrite st (fs.withFaults (List.replicate n (some 0) ++ rest))).2.2.read f = fs.read f := by
  by_cases hne : st.unstoredConfigs = []
  · rw [storeWrite, if_pos hne, Fs.read_withFaults]
  · obtain ⟨m, rfl⟩ := Nat.exists_eq_add_of_le hn
    rw [List.replicate_add, List.append_assoc]
    obtain ⟨hall, hfs⟩ := @storeWriteConfigs_refused st st.unstoredConfigs hok.filled [] fs
      (List.replicate m (some 0) ++ rest)
    rw [List.append_nil] at hall hfs
    obtain ⟨ok, left, fs₁, hw, hcases⟩ := storeWrite_cases hok.kept hne
      (fs.withFaults (List.replicate st.unstoredConfigs.length (some 0)
        ++ (List.replicate m (some 0) ++ rest)))
    rw [Store.prepare_of_dir hdir] at hw
    rw [hw] at hall hfs
    dsimp only at hall hfs
    obtain ⟨-, heq⟩ | ⟨hgood, -⟩ := hcases
    · rw [heq]
      show fs₁.read f = _
      rw [hfs]
      exact Fs.read_withFaults fs _ f
    · exact absurd (hall hgood).1 hne

/-! ## The main results -/

theorem CommitAtomic.repeats (hok : st.Ok) {c : Client} {fs : Fs} (hc : c.store = some st)
    (hapart : st.Apart) {elems : List ArrayElem} (h : CommitAtomic fs c st elems) :
    Repeats st elems := by
  obtain ⟨hnow, hlater⟩ := h
  have hstore := (commitConfigs_eq st elems).1
  rw [hstore] at hnow hlater
  have hok' := hok.setAll (taken elems)
  have hdir' := st.setAll_dir (taken elems)
  -- every key that was taken is listed already, and has the value set last
  have hvalue : ∀ k ∈ (taken elems).map Setting.key, k ∈ st.keys ∧
      st.dataSet fs k = Lash.setAll (fun _ => none) (taken elems) k := by
    intro k hk
    have := hnow k
    rw [Store.content, if_pos ((Store.mem_setAll_keys st _ k).mpr (Or.inr hk)),
      Store.setAll_dataSet,
      @setAll_congr _ (fun _ => none) _ _ hk, Store.content] at this
    split at this
    · next hlisted => exact ⟨hlisted, this.symm⟩
    · obtain ⟨x, -, hx⟩ := @setAll_mem (fun _ => none) (taken elems) k hk
      rw [hx] at this
      simp at this
  intro k hk
  obtain ⟨hlisted, hval⟩ := hvalue k hk
  by_cases hmem : k ∈ st.unstoredConfigs.map StoreConfig.key
  · obtain ⟨d, hd, rfl⟩ := List.mem_map.mp hmem
    exact ⟨d, hd, rfl, by rw [← hval, hok.dataSet_unstored fs hd]⟩
  · exfalso
    obtain ⟨x, -, hx⟩ := @setAll_mem (fun _ => none) (taken elems) k hk
    -- the value is on the disk now
    have hdisk : st.onDisk fs k = some (x.value, x.type) := by
      rw [← hx, ← hval, Store.dataSet, storeGetConfig, storeGetUnstoredConfig,
        List.find?_eq_none.mpr]
      · rfl
      · intro d hd hdk
        exact hmem (List.mem_map.mpr ⟨d, hd, by simpa using hdk⟩)
    obtain ⟨data, hread, -⟩ := Option.bind_eq_some_iff.mp hdisk
    -- its config comes after those that were in memory before
    obtain ⟨d, hd, rfl⟩ := List.mem_map.mp
      ((Store.mem_setAll_unstored st (taken elems) k).mpr (Or.inr hk))
    obtain ⟨l₁, l₂, hsplit⟩ := List.append_of_mem hd
    have hlen : st.unstoredConfigs.length ≤ l₁.length := by
      by_contra hlt
      obtain ⟨keys, hkeys⟩ := Store.setAll_unstored_prefix st (taken elems)
      have hget := congrArg (fun l => l[l₁.length]?) hkeys
      rw [hsplit] at hget
      simp only [List.map_append, List.map_cons] at hget
      rw [List.getElem?_append_left (by simpa using hlt),
        List.getElem?_append_right (by simp)] at hget
      simp only [List.length_map, Nat.sub_self, List.getElem?_cons_zero] at hget
      exact hmem (List.mem_of_getElem? hget)
    have hpaths : ∀ e ∈ l₂, (st.setAll (taken elems)).path e.key
        ≠ (st.setAll (taken elems)).path d.key := by
      intro e he hp
      have hdistinct := hok'.distinct
      rw [hsplit, List.map_append, List.map_cons] at hdistinct
      have hne := (List.nodup_cons.mp (List.nodup_append.mp hdistinct).2.1).1
      have hlisted' : e.key ∈ st.keys := by
        rcases (Store.mem_setAll_keys st _ e.key).mp (hok'.listed e (by simp [hsplit, he]))
          with h | h
        · exact h
        · exact (hvalue _ h).1
      simp only [Store.path, Store.configFilename, hdir'] at hp
      exact hne (hapart _ hlisted' _ hlisted hp ▸ List.mem_map_of_mem he)
    -- let all files before its own be impossible to create, and its own to fill
    have htell := (hlater [(.write, List.replicate l₁.length (some 0) ++ [none, some 0])] d.key).2
    simp only [runUses, List.foldl_cons, List.foldl_nil, StoreUse.run, hc] at htell
    have hsame : ∀ fs', (st.setAll (taken elems)).onDisk fs' d.key = st.onDisk fs' d.key := by
      intro fs'
      rw [Store.onDisk, Store.onDisk, Store.configFilename, Store.configFilename, hdir']
    have hread' : fs.read ((st.setAll (taken elems)).configFilename d.key) = some data := by
      rwa [Store.configFilename, hdir']
    rw [← hsame, storeWrite_emptied hok' hsplit hread' hpaths, Store.onDisk,
      storeWrite_refused hok hlen (Store.lashDirExists_of_read hread)] at htell
    rw [Store.onDisk] at hdisk
    rw [hdisk] at htell
    simp at htell

end

/-! ## The call -/

namespace Server

/-- The daemon accepts a `CommitDataSet` call of the client `c`, with its store `st`, up to an
entry of the array. -/
structure Refuses (s : Server) (sender : CStr) (args : List Arg) (a : Addr) (c : Client)
    (st : Store) (elems : List ArrayElem) : Prop where
  found : s.findClientByDbusName sender = some (a, c)
  task : ∃ more, checkTasks "CommitDataSet" c args = .ok (.array elems :: more)
  store : c.store = some st
  bad : ∃ elem ∈ elems, takenEntry elem = none

variable {s : Server} {sender : CStr} {args : List Arg} {a : Addr} {c : Client} {st : Store}
  {elems : List ArrayElem}

theorem clientTaskCompleted_failed (v : Session) (c : Client) :
    ∃ v' d, clientTaskCompleted v c false = some v' ∧ d.addr = c.addr ∧ d.store = c.store ∧
      v'.p.clients = putClient d v.p.clients := by
  unfold clientTaskCompleted
  dsimp only
  by_cases htask : c.taskType = .unknown
  · rw [if_pos htask]
    exact ⟨_, c.clearTask, rfl, rfl, rfl, rfl⟩
  · rw [if_neg htask]
    have hfin : ∀ u : Session, clientFinishTask u c false = some (u, c) := fun u => rfl
    rw [hfin, Option.map_some]
    generalize hv : v.emit _ = u
    have hu : u.p.clients = v.p.clients := by rw [← hv]; rfl
    obtain ⟨hclients, hprofile, -⟩ := projectClientProgress_clients u c 100
    have hstore : (projectClientProgress u c 100).2.store = c.store := by
      unfold projectClientProgress
      dsimp only
      split <;> rfl
    refine ⟨_, (projectClientProgress u c 100).2.clearTask, rfl, congrArg Prod.fst hprofile,
      hstore, ?_⟩
    have hput : (projectCountDown (projectClientProgress u c 100).1
        (projectClientProgress u c 100).2).p.clients
        = putClient (projectClientProgress u c 100).2 v.p.clients := by
      rw [projectCountDown_clients, hclients, hu]
    exact (congrArg (putClient _) hput).trans (Keyed.put_put rfl)

/-- The caller is told, but the entries in front of the bad one are in its store. -/
theorem Refuses.answer (h : s.Refuses sender args a c st elems) :
    ∃ t d, s.dbusCommitDataSet sender args
        = some (t, lashDbusError .generic [cstr "Config data is corrupt"]) ∧
      d ∈ (t.project a).clients ∧ d.addr = c.addr ∧ d.store = some (commitConfigs st elems).2 := by
  obtain ⟨more, hcheck⟩ := h.task
  obtain ⟨-, hc⟩ := findClientByDbusName_some h.found
  obtain ⟨elem, helem, hnone⟩ := h.bad
  have hbad : (commitConfigs st elems).1 = false := by
    rw [Bool.eq_false_iff]
    intro hok
    have := (commitConfigs_eq st elems).2.mp hok elem helem
    rw [hnone] at this
    simp at this
  obtain ⟨e, es, rfl⟩ := List.exists_cons_of_ne_nil (List.ne_nil_of_mem helem)
  rcases hcommit : commitConfigs st (e :: es) with ⟨ok, st'⟩
  rw [hcommit] at hbad
  subst hbad
  obtain ⟨v, d, hdone, haddr, hstore, hclients⟩ := clientTaskCompleted_failed
    ((s.session a).put { c with store := some st' }) { c with store := some st' }
  refine ⟨s.setSession a v, d, ?_, ?_, haddr, hstore⟩
  · simp only [dbusCommitDataSet, h.found, hcheck, h.store, hcommit, hdone]
    rfl
  · rw [setSession_project_self, hclients]
    refine Keyed.mem_put_self (Keyed.mem_put_self hc rfl) (Eq.symm haddr)

/-- **When a refused call leaves nothing behind.** The caller gets an error, and its store is what
`commitConfigs` left. Nobody can tell if the entries in front of the bad one repeat what is in
memory; for a store whose keys have files of their own, only then. -/
theorem refused_is_atomic (hok : st.Ok) (h : s.Refuses sender args a c st elems) :
    (∃ t d, s.dbusCommitDataSet sender args
        = some (t, lashDbusError .generic [cstr "Config data is corrupt"]) ∧
      d ∈ (t.project a).clients ∧ d.addr = c.addr ∧ d.store = some (commitConfigs st elems).2) ∧
    (Repeats st elems → CommitAtomic s.g.fs c st elems) ∧
      (st.Apart → CommitAtomic s.g.fs c st elems → Repeats st elems) := by
  refine ⟨h.answer, fun hrep => ?_, fun hapart hat => hat.repeats hok h.store hapart⟩
  rw [CommitAtomic, (commitConfigs_eq st elems).1]
  exact (hrep.alike hok).sameToAll h.store s.g.fs

theorem isDbusString_a : IsDbusString (cstr "a") := by decide +kernel

/-- A good entry, and one that is no entry. -/
def halfGood : List ArrayElem :=
  [.dictEntry (some ⟨cstr "a", isDbusString_a⟩) (some (.uint32 1)), .other]

/-- A call with that array is refused whenever the caller has a store and a task. -/
theorem refuses_halfGood {task : Nat} (hfind : s.findClientByDbusName sender = some (a, c))
    (htask : c.pendingTask = task) (hpend : task ≠ 0) (hst : c.store = some st) :
    s.Refuses sender [.uint64 task, .array halfGood] a c st halfGood where
  found := hfind
  task := ⟨[], by rw [checkTasks, if_neg (htask ▸ hpend), if_neg (by simp [htask])]⟩
  store := hst
  bad := ⟨.other, by simp [halfGood], rfl⟩

/-- The first entry of a first data set stays. -/
theorem refused_leaves_traces :
    ∃ s, Reachable FreshId emptyDisk (cstr "/p") s ∧ ∃ c st,
      s.Refuses (cstr ":1") [.uint64 1, .array halfGood] 1 c st halfGood ∧ st.Ok ∧
        ¬ CommitAtomic s.g.fs c st halfGood := by
  have hrun : (runFrom FreshId
      [.connect (cstr ":1") 5 (cstr "synth") flagConfigDataSet [] [cstr "synth"] 1,
        .projectSave (cstr "New Project")]).any
      (fun s => ((s.findClientByDbusName (cstr ":1")).any (fun r => r.1 = 1 ∧ r.2.pendingTask = 1 ∧
        r.2.store.any (fun st => st = storeNew st.dir)))) = true := by
    decide +kernel
  obtain ⟨s, hs, hgood⟩ := exists_of_runFrom hrun
  obtain ⟨⟨a, c⟩, hfind, hc⟩ := (Option.any_eq_true _ _).mp hgood
  obtain ⟨rfl, htask, hstore⟩ := of_decide_eq_true hc
  obtain ⟨st, hst, hnew⟩ := (Option.any_eq_true _ _).mp hstore
  have hnew : st = storeNew st.dir := of_decide_eq_true hnew
  have hkeys : st.keys = [] := congrArg Store.keys hnew
  have huns : st.unstoredConfigs = [] := congrArg Store.unstoredConfigs hnew
  have hok : st.Ok := hnew ▸ storeNew_ok st.dir
  refine ⟨s, hs, c, st, refuses_halfGood hfind htask (by decide) hst, hok, fun hat => ?_⟩
  have happart : st.Apart := by simp [Store.Apart, hkeys]
  obtain ⟨d, hd, -⟩ := hat.repeats hok hst happart (cstr "a") (by decide +kernel)
  simp [huns] at hd

/-- If the same call is made in the next save, it leaves nothing new behind. -/
theorem refused_twice_is_atomic :
    ∃ s, Reachable FreshId emptyDisk (cstr "/p") s ∧ ∃ c st,
      s.Refuses (cstr ":1") [.uint64 2, .array halfGood] 1 c st halfGood ∧
        CommitAtomic s.g.fs c st halfGood := by
  have hrun : (runFrom FreshId
      [.connect (cstr ":1") 5 (cstr "synth") flagConfigDataSet [] [cstr "synth"] 1,
        .projectSave (cstr "New Project"),
        .commitDataSet (cstr ":1") [.uint64 1, .array halfGood],
        .projectSave (cstr "New Project")]).any
      (fun s => ((s.findClientByDbusName (cstr ":1")).any (fun r => r.1 = 1 ∧ r.2.pendingTask = 2 ∧
        r.2.store.any (fun st => st = (commitConfigs (storeNew st.dir) halfGood).2)))) = true := by
    decide +kernel
  obtain ⟨s, hs, hgood⟩ := exists_of_runFrom hrun
  obtain ⟨⟨a, c⟩, hfind, hc⟩ := (Option.any_eq_true _ _).mp hgood
  obtain ⟨rfl, htask, hstore⟩ := of_decide_eq_true hc
  obtain ⟨st, hst, hnew⟩ := (Option.any_eq_true _ _).mp hstore
  have hnew : st = (commitConfigs (storeNew st.dir) halfGood).2 := of_decide_eq_true hnew
  have hset := (commitConfigs_eq (storeNew st.dir) halfGood).1
  have hok : st.Ok := by
    rw [hnew, hset]
    exact (storeNew_ok _).setAll _
  have hrefuses := refuses_halfGood hfind htask (by decide) hst
  refine ⟨s, hs, c, st, hrefuses, (refused_is_atomic hok hrefuses).2.1 ?_⟩
  intro k hk
  have huns : st.unstoredConfigs = [⟨cstr "a", leBytes 4 1, 4, typeInteger⟩] := by
    rw [hnew]
    rfl
  rw [huns]
  revert k hk
  decide +kernel

end Server

end Lash
