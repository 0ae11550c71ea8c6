import Lash.Commit
import Lash.Lifecycle

/-!
# The data set a client gets back

A data-set client saves a number of data sets, is lost and comes back, and the daemon sends it the
data set in its store. Each commit is merged into the store and no key ever leaves it, so the client
gets the last data set back if and only if that one has every key that the store gave a value for
before (`loads_back_iff`).
-/

namespace Lash

/-! ## Data sets -/

/-- A key that is a name of a file of its own in the directory of a store, and a line of the info
file. -/
def FileKey (k : CStr) : Prop := PlainName k ∧ LineKey k ∧ k ≠ storeInfoFile

instance (k : CStr) : Decidable (FileKey k) :=
  inferInstanceAs (Decidable (_ ∧ (_ ∧ _) ∧ _))

/-- A data set that the daemon accepts. -/
structure CommittedSet where
  entries : List Entry
  nonempty : entries ≠ []
  distinct : (entries.map (fun e => e.1.1)).Nodup
  storable : ∀ e ∈ entries, e.2.Storable
  files : ∀ e ∈ entries, FileKey e.1.1
  /-- It came in one message. -/
  bounded : entries.length ≤ 2 ^ 26

namespace CommittedSet

def keys (D : CommittedSet) : List CStr := D.entries.map (fun e => e.1.1)

/-- The array of the `CommitDataSet` call. -/
def elems (D : CommittedSet) : List ArrayElem := D.entries.map Entry.elem

/-- What the daemon takes of a list of entries: a setting for each. -/
theorem taken_entries {l : List Entry} (h : ∀ e ∈ l, e.1.1 ≠ [] ∧ e.2.Storable) :
    (∀ elem ∈ l.map Entry.elem, (takenEntry elem).isSome) ∧
      (taken (l.map Entry.elem)).map Setting.key = l.map (fun e => e.1.1) ∧
      (∀ x ∈ taken (l.map Entry.elem), x.value.length < 2 ^ 32) ∧
      ∀ e ∈ l, ∃ x ∈ taken (l.map Entry.elem), x.key = e.1.1 ∧
        configVariant x.value x.type = some (some e.2) := by
  induction l with
  | nil => simp [taken]
  | cons e l ih =>
      obtain ⟨hkey, hvalue⟩ := h e List.mem_cons_self
      obtain ⟨x, hx, hxkey, hlen, hvar⟩ := takenEntry_elem hkey hvalue
      obtain ⟨hall, hkeys, hsmall, hfound⟩ := ih fun e he => h e (List.mem_cons_of_mem _ he)
      simp only [List.map_cons, taken, hx, List.forall_mem_cons, Option.isSome_some, true_and]
      refine ⟨hall, by rw [hxkey, hkeys], ⟨hlen, hsmall⟩, ⟨x, List.mem_cons_self, hxkey, hvar⟩, ?_⟩
      intro e' he'
      obtain ⟨x', hx', hrest⟩ := hfound e' he'
      exact ⟨x', List.mem_cons_of_mem _ hx', hrest⟩

theorem taken_elems (D : CommittedSet) :
    (∀ elem ∈ D.elems, (takenEntry elem).isSome) ∧ (taken D.elems).map Setting.key = D.keys ∧
      (∀ x ∈ taken D.elems, x.value.length < 2 ^ 32) ∧
      ∀ e ∈ D.entries, ∃ x ∈ taken D.elems, x.key = e.1.1 ∧
        configVariant x.value x.type = some (some e.2) :=
  taken_entries fun e he => ⟨(D.files e he).1.1, D.storable e he⟩

/-- A data set that was put over another one. -/
def overlay (D : CommittedSet) (E : CStr → Option (List UInt8 × UInt8)) :
    CStr → Option (List UInt8 × UInt8) := setAll E (taken D.elems)

theorem overlay_isSome (D : CommittedSet) (E : CStr → Option (List UInt8 × UInt8)) (k : CStr) :
    (D.overlay E k).isSome ↔ k ∈ D.keys ∨ (E k).isSome := by
  rw [overlay, setAll_isSome, D.taken_elems.2.1]

/-- Under the key of an entry there is its value. -/
theorem overlay_entry (D : CommittedSet) (E : CStr → Option (List UInt8 × UInt8)) {e : Entry}
    (he : e ∈ D.entries) :
    ∃ value type, D.overlay E e.1.1 = some (value, type) ∧ configVariant value type = some
      (some e.2) := by
  obtain ⟨-, hkeys, -, hfound⟩ := D.taken_elems
  obtain ⟨x, hx, hkey, hvar⟩ := hfound e he
  have hdist : ((taken D.elems).map Setting.key).Nodup := hkeys ▸ D.distinct
  exact ⟨x.value, x.type, hkey ▸ setAll_of_mem hdist hx, hvar⟩

/-- The daemon accepts the data set, and puts it into the store. -/
theorem commitConfigs_elems (D : CommittedSet) (st : Store) :
    commitConfigs st D.elems = (true, st.setAll (taken D.elems)) := by
  obtain ⟨hstore, hok⟩ := commitConfigs_eq st D.elems
  exact Prod.ext (hok.mpr D.taken_elems.1) hstore

end CommittedSet

/-! ## Stores between saves -/

/-- A store with nothing in memory whose keys are names of files of their own. -/
structure Store.Neat (st : Store) (fs : Fs) : Prop where
  ok : st.Ok
  empty : st.unstoredConfigs = []
  nodup : st.keys.Nodup
  files : ∀ k ∈ st.keys, FileKey k
  there : st.keys ≠ [] → fs.lashDirExists st.dir = true

theorem Store.path_of_plain (st : Store) {k : CStr} (h : PlainName k) :
    st.path k = resolve st.dir ++ [k] := resolve_fqn st.dir h

theorem FileKey.path_ne_infoPath {k : CStr} (h : FileKey k) (st : Store) :
    st.path k ≠ st.infoPath := by
  intro he
  rw [st.path_of_plain h.1, Store.infoPath, Store.infoFilename,
    resolve_fqn st.dir (f := storeInfoFile) (by decide)] at he
  exact h.2.2 (List.singleton_inj.mp (List.append_cancel_left he))

theorem FileKey.eq_of_path {k k' : CStr} (h : FileKey k) (h' : FileKey k') {st : Store}
    (he : st.path k = st.path k') : k = k' := by
  rw [st.path_of_plain h.1, st.path_of_plain h'.1] at he
  exact List.singleton_inj.mp (List.append_cancel_left he)

/-- What a save of a data set does to a store and the disk. -/
structure Store.Saved (st : Store) (fs : Fs) (D : CommittedSet) (st' : Store)
    (fs' : Fs) : Prop where
  neat : st'.Neat fs'
  dir : st'.dir = st.dir
  keys : ∀ k, k ∈ st'.keys ↔ k ∈ st.keys ∨ k ∈ D.keys
  info : fs'.read st'.infoFilename = some (infoBytes st'.numKeys st'.keys)
  data : ∀ k ∈ st'.keys, st'.onDisk fs' k = D.overlay (st.onDisk fs) k

/-- **A save puts the data set over what was there.** -/
theorem Store.Neat.save {st : Store} {fs : Fs} (h : st.Neat fs) (D : CommittedSet)
    (hw : (storeWrite (commitConfigs st D.elems).2 fs).1 = true) :
    st.Saved fs D (storeWrite (commitConfigs st D.elems).2 fs).2.1
      (storeWrite (commitConfigs st D.elems).2 fs).2.2 := by
  obtain ⟨-, hkeys, hsmall, -⟩ := D.taken_elems
  rw [D.commitConfigs_elems st] at hw ⊢
  dsimp only at hw ⊢
  have hxs : taken D.elems ≠ [] := by
    intro hnil
    rw [hnil, CommittedSet.keys] at hkeys
    exact D.nonempty (List.map_eq_nil_iff.mp hkeys.symm)
  have hempty := h.empty
  have hfiles : ∀ k ∈ (st.setAll (taken D.elems)).keys, FileKey k := by
    intro k hk
    rcases (st.mem_setAll_keys _ k).mp hk with hk | hk
    · exact h.files k hk
    · obtain ⟨e, he, rfl⟩ := List.mem_map.mp (hkeys ▸ hk)
      exact D.files e he
  have hset : ∀ k ∈ (taken D.elems).map Setting.key, k ∈ (st.setAll (taken D.elems)).keys :=
    fun k hk => (st.mem_setAll_keys _ k).mpr (Or.inr hk)
  have hfits : (st.setAll (taken D.elems)).Fits fs (taken D.elems)
      (Lash.setAll (st.dataSet fs) (taken D.elems)) := by
    refine ⟨fun k hk => (hfiles k (hset k hk)).2.1.2, ?_, ?_, ?_⟩
    · intro k hk r hr
      obtain ⟨x, hx, heq⟩ := setAll_mem (D := st.dataSet fs) hk
      rw [heq] at hr
      rw [← Option.some.inj hr]
      exact hsmall x hx
    · intro k hk k' hk' _ hpath
      rw [(hfiles k' hk').eq_of_path (hfiles k (hset k hk)) hpath]
    · intro k hk _ hpath
      exact absurd hpath ((hfiles k hk).path_ne_infoPath _)
  have hok := h.ok.setAll (taken D.elems)
  have hne := Store.unstored_ne_nil hempty hxs
  obtain ⟨heq, -⟩ | ⟨-, -, left, -, hst, hleft⟩ := storeWrite_frame hok.kept fs
  · exact absurd heq hne
  · rw [hleft hw] at hst
    have hinfo := (storeWrite_read hok.kept hne hw).1
    have hdata := fun k hk => hfits.onDisk h.ok hempty h.there hxs hw (k := k) hk
    have hok' := hok.write fs
    rw [hst] at hok' ⊢
    refine ⟨⟨hok', rfl, Store.setAll_nodup h.nodup _, hfiles, fun _ => ?_⟩, st.setAll_dir _, ?_,
      hinfo, ?_⟩
    · have hreach := Fs.reaches_of_read hinfo
      rwa [Store.infoFilename, Fs.reaches_fqn _ _ (by decide)] at hreach
    · intro k
      rw [← hkeys]
      exact st.mem_setAll_keys _ k
    · intro k hk
      rw [CommittedSet.overlay, ← Store.dataSet_of_unstored_nil hempty]
      exact hdata k hk

/-! ## Saves -/

/-- A client saves data sets one after the other, and each is written. -/
inductive Saves : Session × Client → List CommittedSet → Session × Client → Prop
  | nil (x) : Saves x [] x
  | save {s c st D Ds x y} (hstore : c.store = some st)
      (hio : (storeWrite (commitConfigs st D.elems).2 s.g.fs).1 = true)
      (hfinish : clientFinishTask s
        { c with store := some (commitConfigs st D.elems).2, taskType := .saveDataSet }
        (commitConfigs st D.elems).1 = some x)
      (hrest : Saves x Ds y) : Saves (s, c) (D :: Ds) y

/-- A client that saves data sets, between two saves. -/
structure DataSetClient (s : Session) (c : Client) (st : Store) : Prop where
  store : c.store = some st
  neat : st.Neat s.g.fs
  dir : st.dir = projectGetClientConfigDir s.p c
  dataPath : c.dataPath = some (projectGetClientDir s.p c)
  idStr : c.idStr = uuidUnparse c.id
  flags : configDataSet c.flags = true ∧ configFile c.flags = false

section

variable {s s' : Session} {c c' : Client} {st : Store} {D : CommittedSet} {Ds : List CommittedSet}

theorem flags_saved (f : Flags) : isSaved (f ||| flagSaved) = true ∧
    configDataSet (f ||| flagSaved) = configDataSet f ∧
      configFile (f ||| flagSaved) = configFile f := by
  unfold isSaved configDataSet configFile
  refine ⟨?_, ?_, ?_⟩
  · rw [bne_iff_ne]
    intro h
    have hbit : ((f ||| flagSaved) &&& flagSaved).getLsbD 24 = true := by
      simp [flagSaved]
    rw [h] at hbit
    simp at hbit
  · rw [BitVec.and_or_distrib_right, show flagSaved &&& flagConfigDataSet = 0#32 by decide,
      BitVec.or_zero]
  · rw [BitVec.and_or_distrib_right, show flagSaved &&& flagConfigFile = 0#32 by decide,
      BitVec.or_zero]

theorem flags_restored (f : Flags) : isSaved (f ||| flagRestored) = isSaved f ∧
    configDataSet (f ||| flagRestored) = configDataSet f ∧
    configFile (f ||| flagRestored) = configFile f := by
  unfold isSaved configDataSet configFile
  refine ⟨?_, ?_, ?_⟩
  · rw [BitVec.and_or_distrib_right, show flagRestored &&& flagSaved = 0#32 by decide,
      BitVec.or_zero]
  · rw [BitVec.and_or_distrib_right, show flagRestored &&& flagConfigDataSet = 0#32 by decide,
      BitVec.or_zero]
  · rw [BitVec.and_or_distrib_right, show flagRestored &&& flagConfigFile = 0#32 by decide,
      BitVec.or_zero]

theorem hasInternalState_of_configDataSet {f : Flags} (h : configDataSet f = true) :
    hasInternalState f = true := by
  unfold hasInternalState
  unfold configDataSet at h
  rw [bne_iff_ne] at h ⊢
  intro hzero
  apply h
  have hsub : flagConfigDataSet = (flagConfigDataSet ||| flagConfigFile) &&& flagConfigDataSet := by
    decide
  rw [hsub, ← BitVec.and_assoc, hzero]
  exact BitVec.zero_and

/-- What is under a key of the data set does not depend on what was there before. -/
theorem CommittedSet.overlay_congr (D : CommittedSet) {E E' : CStr → Option (List UInt8 × UInt8)}
    {k : CStr} (h : k ∈ D.keys ∨ E k = E' k) : D.overlay E k = D.overlay E' k := by
  obtain ⟨-, hkeys, -⟩ := D.taken_elems
  by_cases hk : k ∈ (taken D.elems).map Setting.key
  · have hdist : ((taken D.elems).map Setting.key).Nodup := hkeys ▸ D.distinct
    obtain ⟨x, hx, rfl⟩ := List.mem_map.mp hk
    rw [overlay, overlay, setAll_of_mem hdist hx, setAll_of_mem hdist hx]
  · rw [overlay, overlay, setAll_of_not_mem hk, setAll_of_not_mem hk]
    exact h.resolve_left (hkeys ▸ hk)

/-- The data sets that were saved, one over the other. -/
def layers (Ds : List CommittedSet) (E : CStr → Option (List UInt8 × UInt8)) :
    CStr → Option (List UInt8 × UInt8) := Ds.foldl (fun E D => D.overlay E) E

theorem layers_congr {E E' : CStr → Option (List UInt8 × UInt8)} {k : CStr}
    (h : (∃ D ∈ Ds, k ∈ D.keys) ∨ E k = E' k) : layers Ds E k = layers Ds E' k := by
  induction Ds generalizing E E' with
  | nil => exact h.resolve_left (by simp)
  | cons D Ds ih =>
      apply ih
      by_cases hk : k ∈ D.keys ∨ E k = E' k
      · exact Or.inr (D.overlay_congr hk)
      · obtain ⟨hD, hE⟩ := not_or.mp hk
        obtain ⟨D', hD', hmem⟩ := h.resolve_right hE
        rcases List.mem_cons.mp hD' with rfl | hD'
        · exact absurd hmem hD
        · exact Or.inl ⟨D', hD', hmem⟩

theorem layers_isSome {E : CStr → Option (List UInt8 × UInt8)} {k : CStr} :
    (layers Ds E k).isSome ↔ (∃ D ∈ Ds, k ∈ D.keys) ∨ (E k).isSome := by
  induction Ds generalizing E with
  | nil => simp [layers]
  | cons D Ds ih =>
      show (layers Ds (D.overlay E) k).isSome ↔ _
      rw [ih, D.overlay_isSome]
      simp only [List.mem_cons, exists_eq_or_imp]
      rw [or_left_comm, or_assoc]

/-- What a number of saves comes to. -/
theorem Saves.spec {x y : Session × Client} (h : Saves x Ds y) (hx : DataSetClient x.1 x.2 st) :
    ∃ st', DataSetClient y.1 y.2 st' ∧ y.1.p = x.1.p ∧ y.2.addr = x.2.addr ∧
      (∀ k, k ∈ st'.keys ↔ k ∈ st.keys ∨ ∃ D ∈ Ds, k ∈ D.keys) ∧
      (Ds ≠ [] → isSaved y.2.flags = true ∧
        y.1.g.fs.read st'.infoFilename = some (infoBytes st'.numKeys st'.keys)) ∧
      ∀ k ∈ st'.keys, st'.onDisk y.1.g.fs k = layers Ds (st.onDisk x.1.g.fs) k := by
  induction h generalizing st with
  | nil => exact ⟨st, hx, rfl, rfl, by simp, by simp, fun k _ => rfl⟩
  | @save s c st₀ D Ds x y hstore hio hfinish hrest ih =>
      obtain ⟨hcst, hneat, hdir, hpath, hid, hflags⟩ := hx
      have hst : st₀ = st := Option.some.inj (hstore.symm.trans hcst)
      subst hst
      have hsaved := hneat.save D hio
      rw [D.commitConfigs_elems st₀] at hfinish hio hsaved
      simp only [clientFinishTask, if_true] at hfinish
      generalize storeWrite (st₀.setAll (taken D.elems)) s.g.fs = r at hfinish hio hsaved
      obtain ⟨ok, st₁, fs₁⟩ := r
      dsimp only at hio hsaved hfinish
      subst hio
      rw [if_pos rfl, Option.some.injEq] at hfinish
      subst hfinish
      have hx : DataSetClient (s.setFs fs₁)
          { c with store := some st₁, taskType := .saveDataSet, flags :=
            c.flags ||| flagSaved } st₁ :=
        ⟨rfl, hsaved.neat, hsaved.dir.trans hdir, hpath, hid,
          (flags_saved c.flags).2.1.trans hflags.1, (flags_saved c.flags).2.2.trans hflags.2⟩
      obtain ⟨st', hy, hp, haddr, hkeys, hinfo, hdata⟩ := ih hx
      refine ⟨st', hy, hp, haddr, ?_, ?_, ?_⟩
      · intro k
        rw [hkeys, hsaved.keys]
        simp only [List.mem_cons, exists_eq_or_imp, or_assoc]
      · intro _
        cases hrest with
        | nil => exact ⟨(flags_saved c.flags).1, by
            rw [← Option.some.inj hy.store]
            exact hsaved.info⟩
        | save => exact hinfo (by simp)
      · intro k hk
        rw [hdata k hk]
        refine layers_congr ?_
        rcases (hkeys k).mp hk with hk | hk
        · exact Or.inr (hsaved.data k hk)
        · exact Or.inl hk

/-! ## Loss and return -/

/-- A store that was written is read back as it was. -/
theorem Store.Neat.reopen {fs : Fs} (h : st.Neat fs)
    (hinfo : fs.read st.infoFilename = some (infoBytes st.numKeys st.keys)) :
    storeOpen (storeNew st.dir) fs =
      if st.keys.length < 2 ^ 63 then (true, st) else (false, storeNew st.dir) := by
  have hline : ∀ k ∈ st.keys, LineKey k := fun k hk => (h.files k hk).2.1
  rw [storeOpen_infoBytes hinfo, h.ok.count, readKeys_keyLines hline]
  have hst : { storeNew st.dir with numKeys := st.keys.length, keys := st.keys } = st := by
    have hcount := h.ok.count
    have hkept := h.ok.kept
    have hempty := h.empty
    cases st
    simp_all [storeNew]
  dsimp only
  rw [hst]

theorem hexDigit_ne_slash {n : Nat} (h : n < 16) : hexDigit n ≠ slash := by
  have : ∀ n : Fin 16, hexDigit n.val ≠ slash := by decide
  exact this ⟨n, h⟩

/-- The text of an id is a file name. -/
theorem uuidUnparse_plain (id : Uuid) : PlainName (uuidUnparse id) := by
  have hlen : (uuidUnparse id).length = 36 := by
    simp [uuidUnparse]
  have hslash : slash ∉ uuidUnparse id := by
    intro hmem
    have hdigit : ∀ l : List Nat,
        slash ∉ l.map (fun i => hexDigit (id.toNat / 16 ^ (31 - i) % 16)) := by
      intro l hl
      obtain ⟨i, -, hi⟩ := List.mem_map.mp hl
      exact hexDigit_ne_slash (Nat.mod_lt _ (by norm_num)) hi
    have hdash : slash ∉ ([45] : CStr) := by decide
    have hpart : ∀ m n : Nat, slash ∉ (((List.range 32).map
        (fun i => hexDigit (id.toNat / 16 ^ (31 - i) % 16))).drop m).take n :=
      fun m n h => hdigit _ (List.mem_of_mem_drop (List.mem_of_mem_take h))
    simp only [uuidUnparse, List.mem_append] at hmem
    rcases hmem with ((((((((h | h) | h) | h) | h) | h) | h) | h) | h)
    · exact hpart 0 8 h
    · exact hdash h
    · exact hpart 8 4 h
    · exact hdash h
    · exact hpart 12 4 h
    · exact hdash h
    · exact hpart 16 4 h
    · exact hdash h
    · exact hdigit _ (List.mem_of_mem_drop h)
  refine ⟨fun h => by simp [h] at hlen, hslash, fun h => ?_, fun h => ?_⟩
  · rw [h] at hlen
    exact absurd hlen (by decide)
  · rw [h] at hlen
    exact absurd hlen (by decide)

/-- A directory with something below it is not empty. -/
theorem Fs.lashDirEmpty_eq_false {fs : Fs} {d : CStr} {q : Path} (hne : q ≠ [])
    (h : (fs.get (resolve d ++ q)).isSome) : fs.lashDirEmpty d = false := by
  have hlookup : (fs.entries.lookup (resolve d ++ q)).isSome := by
    rwa [Fs.get, if_neg (by simp [hne])] at h
  obtain ⟨n, hn⟩ := Option.isSome_iff_exists.mp hlookup
  have hmem : (resolve d ++ q, n) ∈ fs.entries := by
    obtain ⟨l₁, l₂, heq, -⟩ := List.lookup_eq_some_iff.mp hn
    rw [heq]
    simp
  rw [Fs.lashDirEmpty, Bool.and_eq_false_iff]
  right
  rw [List.isEmpty_eq_false_iff]
  refine List.ne_nil_of_mem (List.mem_filter.mpr ⟨hmem, ?_⟩)
  simp [hne]

/-- A client that has a store on the disk leaves no empty directory. -/
theorem DataSetClient.loseDirs (h : DataSetClient s c st)
    (hinfo : s.g.fs.read st.infoFilename = some (infoBytes st.numKeys st.keys)) :
    Lash.loseDirs s.p s.g.fs c = s.g.fs := by
  have hget : (s.g.fs.get (resolve st.infoFilename)).isSome := by
    rw [Fs.read, if_pos (Fs.reaches_of_read hinfo), Fs.bytes] at hinfo
    split at hinfo
    · next hg => simp [hg]
    · simp at hinfo
  have hconfig : resolve st.infoFilename
      = resolve (projectGetClientDir s.p c) ++ [projectConfigDir, storeInfoFile] := by
    rw [Store.infoFilename, resolve_fqn _ (by decide), h.dir, projectGetClientConfigDir,
      resolve_fqn _ (by decide), List.append_assoc]
    rfl
  have hid : resolve st.infoFilename = resolve (lashGetFqn s.p.directory projectIdDir)
      ++ [c.idStr, projectConfigDir, storeInfoFile] := by
    rw [hconfig, projectGetClientDir, resolve_fqn _ (h.idStr ▸ uuidUnparse_plain c.id),
      List.append_assoc]
    rfl
  have hempty₁ := Fs.lashDirEmpty_eq_false (by simp) (hconfig ▸ hget)
  have hempty₂ := Fs.lashDirEmpty_eq_false (by simp) (hid ▸ hget)
  unfold Lash.loseDirs
  split
  · rw [h.dataPath, Option.getD_some]
    simp only [hempty₁, hempty₂, Bool.false_eq_true, and_false, if_false]
  · rfl

/-- A client is lost and comes back in the process `pid`: the session and the client before it is
made to load. -/
def comeBack (s : Session) (c : Client) (sender : CStr) (pid : Int) : Session × Client :=
  let lost := (loseStore s.g.fs c).1
  resumePrepare (projectLoseClient s c) ({ lost with pid := pid }.reconnect sender)

/-- A client that is lost and comes back gets the data set. -/
def LoadsBack (s : Session) (c : Client) (sender : CStr) (pid : Int) (D : CommittedSet) : Prop :=
  let r := comeBack s c sender pid
  ∃ s' c' task configs, resumeLoad r.1 r.2 = some (s', c', false) ∧
    s'.g.log = r.1.g.log ++ [.loadDataSet s.p.addr c.addr sender task configs] ∧
    configs.Perm D.entries

theorem projectSetModifiedStatus_kept (s : Session) (status : Bool) :
    (projectSetModifiedStatus s status).g.fs = s.g.fs ∧
      (projectSetModifiedStatus s status).p.directory = s.p.directory ∧
      (projectSetModifiedStatus s status).p.addr = s.p.addr := by
  unfold projectSetModifiedStatus
  split <;> exact ⟨rfl, rfl, rfl⟩

/-- What `project_load_data_set` does for a client whose store can be read back. -/
theorem projectLoadDataSet_eq (h : c.store = some st) (hneat : st.Neat s.g.fs)
    (hdir : st.dir = projectGetClientConfigDir s.p c) (hkeys : st.keys ≠ [])
    (hinfo : s.g.fs.read st.infoFilename = some (infoBytes st.numKeys st.keys)) :
    projectLoadDataSet s c =
      if st.keys.length < 2 ^ 63 then
        match storeCreateConfigArray st s.g.fs st.keys with
        | none => none
        | some none => some ({ s with g := s.g.nextTask }, c)
        | some (some configs) => some
            ({ s with g := s.g.nextTask.emit (.loadDataSet s.p.addr c.addr (c.dbusName.getD [])
                s.g.nextTask.taskIter configs) },
              { c with
                pendingTask := s.g.nextTask.taskIter
                taskType := .restoreDataSet
                taskProgress := 0 })
      else some (s, { c with store := some (storeNew st.dir) }) := by
  have hwrite : storeWrite st s.g.fs = (true, st, s.g.fs) := if_pos hneat.empty
  have hopen := hneat.reopen hinfo
  have hself : { c with store := some st } = c := by rw [← h]
  have hfs : s.setFs s.g.fs = s := rfl
  rw [projectLoadDataSet, ← hdir, clientStoreOpen, h]
  dsimp only
  rw [hwrite, hopen]
  by_cases hfew : st.keys.length < 2 ^ 63
  · rcases harray : storeCreateConfigArray st s.g.fs st.keys with _ | _ | _
    all_goals simp only [if_pos hfew, hself, hfs, not_true_eq_false, if_false, hkeys, harray]
  · simp only [if_neg hfew, hfs, Bool.false_eq_true, not_false_eq_true, if_true]

/-- What a client that saved a data set gets when it is back. -/
theorem DataSetClient.loadsBack (h : DataSetClient s c st) (hsaved : isSaved c.flags = true)
    (hinfo : s.g.fs.read st.infoFilename = some (infoBytes st.numKeys st.keys))
    (hkeys : st.keys ≠ []) (sender : CStr) (pid : Int) (D : CommittedSet) :
    LoadsBack s c sender pid D ↔ st.keys.length < 2 ^ 63 ∧
      ∃ configs, storeCreateConfigArray st (s.g.fs.lashCreateDir (projectGetClientDir s.p c))
          st.keys = some (some configs) ∧ configs.Perm D.entries := by
  have hlose : loseStore s.g.fs c = (c, s.g.fs) := by
    have hwrite : storeWrite st s.g.fs = (true, st, s.g.fs) := if_pos h.neat.empty
    have hself : { c with store := some st } = c := by rw [← h.store]
    rw [loseStore, h.store]
    dsimp only
    rw [if_neg (by simp [h.flags.1]), if_pos hkeys, hwrite]
    dsimp only
    rw [hself]
  have hlost : (projectLoseClient s c).g.fs = s.g.fs ∧
      (projectLoseClient s c).p.directory = s.p.directory ∧
      (projectLoseClient s c).p.addr = s.p.addr := by
    obtain ⟨hfs, hdir, haddr⟩ := projectSetModifiedStatus_kept
      ({ s.emit (.lost s.p.addr c.addr) with p := { s.p with
        lostClients := { c with pid := 0 } :: s.p.lostClients } }.setFs s.g.fs) true
    have heq : loseStore (s.emit (.lost s.p.addr c.addr)).g.fs c = (c, s.g.fs) := hlose
    have hdirs : Lash.loseDirs (s.emit (.lost s.p.addr c.addr)).p s.g.fs c = s.g.fs :=
      h.loseDirs hinfo
    unfold projectLoseClient
    simp only [heq, hdirs]
    exact ⟨hfs, hdir, haddr⟩
  obtain ⟨hsavedFlag, hdataSet, hfile⟩ := flags_restored c.flags
  have hpath : (projectGetClientDir s.p c) ≠ [] := by
    rw [projectGetClientDir, lashGetFqn]
    simp
  unfold LoadsBack comeBack
  simp only [hlose]
  generalize projectLoseClient s c = t at hlost
  obtain ⟨hfs, hdir, haddr⟩ := hlost
  -- the client as it comes back, and the session in which its store is opened
  have hprepared : resumePrepare t ({ c with pid := pid }.reconnect sender) =
      ({ t.emit (.resumed t.p.addr c.addr) with p := { t.p with
          lostClients := delClient c.addr t.p.lostClients } }.setFs
        (s.g.fs.lashCreateDir (projectGetClientDir s.p c)),
        { c with pid := pid }.reconnect sender) := by
    have hstate := hasInternalState_of_configDataSet (hdataSet.trans h.flags.1)
    rw [resumePrepare]
    simp only [Client.reconnect, h.dataPath, Option.getD_some, hpath, if_false, hstate, if_true,
      Session.emit, Globals.emit, hfs]
    rfl
  rw [hprepared]
  generalize hu : Session.setFs { t.emit (.resumed t.p.addr c.addr) with p := { t.p with
    lostClients := delClient c.addr t.p.lostClients } }
    (s.g.fs.lashCreateDir (projectGetClientDir s.p c)) = u
  have hufs : u.g.fs = s.g.fs.lashCreateDir (projectGetClientDir s.p c) := by rw [← hu]; rfl
  have huaddr : u.p.addr = s.p.addr := by rw [← hu, ← haddr]; rfl
  have hudir : projectGetClientConfigDir u.p ({ c with pid := pid }.reconnect sender)
      = projectGetClientConfigDir s.p c := by
    rw [projectGetClientConfigDir, projectGetClientDir, projectGetClientConfigDir,
      projectGetClientDir, ← hdir, ← hu]
    rfl
  have hdirs := s.g.fs.lashCreateDir_makesDirs (projectGetClientDir s.p c)
  have hload := projectLoadDataSet_eq (s := u) (c := { c with pid := pid }.reconnect sender)
    h.store ⟨h.neat.ok, h.neat.empty, h.neat.nodup, h.neat.files, fun hne =>
      hufs ▸ hdirs.lashDirExists (h.neat.there hne)⟩ (h.dir.trans hudir.symm) hkeys
    (hufs ▸ hdirs.read hinfo)
  have hresume : resumeLoad u ({ c with pid := pid }.reconnect sender) =
      (projectLoadDataSet u ({ c with pid := pid }.reconnect sender)).map
        (fun r => (r.1, r.2, false)) := by
    have hs : isSaved ({ c with pid := pid }.reconnect sender).flags = true :=
      hsavedFlag.trans hsaved
    have hf : configFile ({ c with pid := pid }.reconnect sender).flags = false :=
      hfile.trans h.flags.2
    have hd : configDataSet ({ c with pid := pid }.reconnect sender).flags = true :=
      hdataSet.trans h.flags.1
    rw [resumeLoad, if_pos hs, if_neg (by simp [hf]), if_pos hd]
  rw [hresume, hload, hufs]
  dsimp only
  by_cases hfew : st.keys.length < 2 ^ 63
  · rw [if_pos hfew, and_iff_right hfew]
    rcases storeCreateConfigArray st (s.g.fs.lashCreateDir (projectGetClientDir s.p c)) st.keys
      with _ | _ | configs
    · simp
    · constructor
      · rintro ⟨s', c', task, configs, hsome, hlog, -⟩
        obtain ⟨rfl, -⟩ := Prod.mk.inj (Option.some.inj hsome)
        simp [Globals.nextTask] at hlog
      · rintro ⟨configs, hsome, -⟩
        simp at hsome
    · constructor
      · rintro ⟨s', c', task, configs', hsome, hlog, hperm⟩
        obtain ⟨rfl, -⟩ := Prod.mk.inj (Option.some.inj hsome)
        simp only [Globals.emit, Globals.nextTask, List.append_cancel_left_eq, List.cons.injEq,
          Event.loadDataSet.injEq, and_true] at hlog
        refine ⟨configs, rfl, ?_⟩
        rw [hlog.2.2.2.2]
        exact hperm
      · rintro ⟨configs', hsome, hperm⟩
        obtain rfl := Option.some.inj (Option.some.inj hsome)
        refine ⟨_, _, u.g.nextTask.taskIter, configs, rfl, ?_, hperm⟩
        simp [Globals.emit, Globals.nextTask, huaddr, Client.reconnect]
  · rw [if_neg hfew]
    refine iff_of_false ?_ (fun h => hfew h.1)
    rintro ⟨s', c', task, configs, hsome, hlog, -⟩
    obtain ⟨rfl, -⟩ := Prod.mk.inj (Option.some.inj hsome)
    simp at hlog

/-- The keys under which a store gave a value, at the beginning or by one of some data sets. -/
def GaveBefore (st : Store) (fs : Fs) (Ds : List CommittedSet) (k : CStr) : Prop :=
  k ∈ st.keys ∧ (st.onDisk fs k).isSome ∨ ∃ D ∈ Ds, k ∈ D.keys

/-- **A client gets its last data set back** if and only if that has every key that the store gave a
value for before. -/
theorem loads_back_iff (hc : DataSetClient s c st) (hfew : st.keys.length ≤ 2 ^ 62)
    (h : Saves (s, c) (Ds ++ [D]) (s', c')) (sender : CStr) (pid : Int) :
    LoadsBack s' c' sender pid D ↔ ∀ k, GaveBefore st s.g.fs Ds k → k ∈ D.keys := by
  obtain ⟨st', hc', -, -, hkeys, hinfo, hdata⟩ := h.spec hc
  obtain ⟨hsaved, hinfo⟩ := hinfo (by simp)
  dsimp only at hc' hkeys hsaved hinfo hdata
  have hlast : ∀ k ∈ D.keys, k ∈ st'.keys := fun k hk => (hkeys k).mpr (Or.inr ⟨D, by simp, hk⟩)
  have hne : st'.keys ≠ [] := by
    obtain ⟨e, he⟩ := List.exists_mem_of_ne_nil _ D.nonempty
    exact List.ne_nil_of_mem (hlast _ (List.mem_map_of_mem he))
  -- making the directory of the client again does not touch the values
  have hget : ∀ k ∈ st'.keys, storeGetConfig st'
      (s'.g.fs.lashCreateDir (projectGetClientDir s'.p c')) k
        = D.overlay (layers Ds (st.onDisk s.g.fs)) k := by
    intro k hk
    have hreach : s'.g.fs.reaches (st'.configFilename k) = true := by
      rw [Store.configFilename, Fs.reaches_fqn _ _ (hc'.neat.files k hk).1.2.1]
      exact hc'.neat.there hne
    have hread := (s'.g.fs.lashCreateDir_makesDirs (projectGetClientDir s'.p c')).read_eq hreach
    have hlayers : layers (Ds ++ [D])
        (st.onDisk s.g.fs) = D.overlay (layers Ds (st.onDisk s.g.fs)) := by
      rw [layers, List.foldl_append]
      rfl
    show st'.dataSet _ k = _
    rw [Store.dataSet_of_unstored_nil hc'.neat.empty, Store.onDisk, hread, ← hlayers]
    exact hdata k hk
  rw [hc'.loadsBack hsaved hinfo hne]
  constructor
  · rintro ⟨-, configs, harray, hperm⟩ k hk
    by_contra hnot
    have hmem : k ∈ st'.keys := by
      rcases hk with ⟨hk, -⟩ | ⟨D', hD', hk⟩
      · exact (hkeys k).mpr (Or.inl hk)
      · exact (hkeys k).mpr (Or.inr ⟨D', by simp [hD'], hk⟩)
    have hsome :
        (storeGetConfig st' (s'.g.fs.lashCreateDir (projectGetClientDir s'.p c')) k).isSome := by
      rw [hget k hmem, D.overlay_isSome, layers_isSome]
      rcases hk with ⟨-, hk⟩ | hk
      · exact Or.inr (Or.inr hk)
      · exact Or.inr (Or.inl hk)
    obtain ⟨e, he, rfl⟩ := mem_storeCreateConfigArray harray hmem hsome
    exact hnot (List.mem_map_of_mem (hperm.mem_iff.mp he))
  · intro hgiven
    have hsub : ∀ k ∈ st'.keys, k ∈ st.keys ∨ k ∈ D.keys := by
      intro k hk
      rcases (hkeys k).mp hk with hk | ⟨D', hD', hk⟩
      · exact Or.inl hk
      · rcases List.mem_append.mp hD' with hD' | hD'
        · exact Or.inr (hgiven k (Or.inr ⟨D', hD', hk⟩))
        · rw [List.mem_singleton.mp hD'] at hk
          exact Or.inr hk
    refine ⟨?_, st'.keys.filterMap (fun k => D.entries.find? (fun e => e.1.1 = k)), ?_, ?_⟩
    · have hle : st'.keys.length ≤ (st.keys ++ D.keys).length :=
        (hc'.neat.nodup.subperm fun k hk => List.mem_append.mpr (hsub k hk)).length_le
      have hD : D.keys.length ≤ 2 ^ 26 := by
        rw [CommittedSet.keys, List.length_map]
        exact D.bounded
      rw [List.length_append] at hle
      omega
    · refine storeCreateConfigArray_eq fun k hk => ?_
      rw [hget k hk]
      cases hfind : D.entries.find? (fun e => e.1.1 = k) with
      | none =>
          left
          have hnot : k ∉ D.keys := by
            intro hmem
            obtain ⟨e, he, hkey⟩ := List.mem_map.mp hmem
            simpa [hkey] using List.find?_eq_none.mp hfind e he
          refine ⟨?_, rfl⟩
          rw [← Option.not_isSome_iff_eq_none, D.overlay_isSome, layers_isSome]
          rintro (hk' | hk' | hk')
          · exact hnot hk'
          · exact hnot (hgiven k (Or.inr hk'))
          · rcases hsub k hk with hmem | hmem
            · exact hnot (hgiven k (Or.inl ⟨hmem, hk'⟩))
            · exact hnot hmem
      | some e =>
          right
          have he := List.mem_of_find?_eq_some hfind
          have hkey : e.1.1 = k := by simpa using List.find?_some hfind
          obtain ⟨value, type, hval, hvar⟩ := D.overlay_entry (layers Ds (st.onDisk s.g.fs)) he
          exact ⟨e, value, type, rfl, hkey, hkey ▸ hval, hvar⟩
    · have hmem : ∀ e, e ∈ st'.keys.filterMap (fun k => D.entries.find? (fun e => e.1.1 = k)) ↔
          e ∈ D.entries := by
        intro e
        rw [List.mem_filterMap]
        constructor
        · rintro ⟨k, -, hfind⟩
          exact List.mem_of_find?_eq_some hfind
        · intro he
          exact ⟨e.1.1, hlast _ (List.mem_map_of_mem he), Keyed.find_key D.distinct he⟩
      refine (List.perm_ext_iff_of_nodup ?_ (List.Nodup.of_map _ D.distinct)).mpr hmem
      refine hc'.neat.nodup.filterMap fun k k' e hk hk' => ?_
      have h₁ := List.find?_some hk
      have h₂ := List.find?_some hk'
      simp only [decide_eq_true_eq] at h₁ h₂
      rw [← h₁, ← h₂]

end

/-! ## A client with one and with two data sets -/

/-- A data set with one raw byte. -/
def oneByte (key : DbusString) (h : FileKey key.1) (b : UInt8) : CommittedSet where
  entries := [(key, .bytes ⟨[b], by simp⟩)]
  nonempty := by simp
  distinct := by simp
  storable := by simp [Variant.Storable]
  files := by simpa using h
  bounded := by simp

/-- `a` is 1. -/
def setA : CommittedSet := oneByte ⟨cstr "a", by decide +kernel⟩ (by decide +kernel) 1

/-- `b` is 2. -/
def setB : CommittedSet := oneByte ⟨cstr "b", by decide +kernel⟩ (by decide +kernel) 2

/-- A project in `/p`, on an empty disk. -/
def emptyProject : Session where
  g := { taskIter := 0, projectsDir := [], fs := { entries := [], faults := [] }, forks := [],
         childs := [], nextAddr := 2, log := [] }
  p := { projectNew 0 with name := cstr "p", directory := cstr "/p" }

/-- A data-set client that has just joined. -/
def newDataSetClient : Client :=
  let c := { clientNew 1 with id := 7, idStr := uuidUnparse 7, flags := flagConfigDataSet }
  { c with
    dataPath := some (projectGetClientDir emptyProject.p c)
    store := some (storeNew (projectGetClientConfigDir emptyProject.p c)) }

theorem newDataSetClient_store : DataSetClient emptyProject newDataSetClient
    (storeNew (projectGetClientConfigDir emptyProject.p newDataSetClient)) where
  store := rfl
  neat := ⟨storeNew_ok _, rfl, List.nodup_nil, by simp [storeNew], by simp [storeNew]⟩
  dir := rfl
  dataPath := rfl
  idStr := rfl
  flags := by decide

/-- The client and its session after a save. -/
def afterSave (x : Session × Client) (D : CommittedSet) : Option (Session × Client) :=
  x.2.store.bind fun st =>
    clientFinishTask x.1
      { x.2 with store := some (commitConfigs st D.elems).2, taskType := .saveDataSet }
      (commitConfigs st D.elems).1

/-- A save that is written is the beginning of some saves. -/
theorem Saves.of_afterSave {x y z : Session × Client} {D : CommittedSet} {Ds : List CommittedSet}
    (h : afterSave x D = some y)
    (hio : (x.2.store.any fun st => (storeWrite (commitConfigs st D.elems).2 x.1.g.fs).1) = true)
    (hrest : Saves y Ds z) : Saves x (D :: Ds) z := by
  obtain ⟨st, hstore, hfinish⟩ := Option.bind_eq_some_iff.mp h
  rw [hstore] at hio
  exact .save hstore hio hfinish hrest

/-- `a` was saved. -/
def savedA : Session × Client :=
  (afterSave (emptyProject, newDataSetClient) setA).get (by decide +kernel)

/-- `a` was saved, and then another data set. -/
def savedThen (D : CommittedSet) (h : (afterSave savedA D).isSome) : Session × Client :=
  (afterSave savedA D).get h

theorem saves_two (D : CommittedSet) (h : (afterSave savedA D).isSome)
    (hio : (savedA.2.store.any fun st =>
      (storeWrite (commitConfigs st D.elems).2 savedA.1.g.fs).1) = true) :
    Saves (emptyProject, newDataSetClient) ([setA] ++ [D]) (savedThen D h) :=
  .of_afterSave (Option.some_get _).symm (by decide +kernel)
    (.of_afterSave (Option.some_get h).symm hio (.nil _))

/-- A client that saves the same key again gets its last data set back. -/
theorem loads_back_same : LoadsBack (savedThen setA (by decide +kernel)).1
    (savedThen setA (by decide +kernel)).2 (cstr ":2") 5 setA := by
  refine (loads_back_iff newDataSetClient_store (by decide)
    (saves_two setA (by decide +kernel) (by decide +kernel)) (cstr ":2") 5).mpr ?_
  rintro k (⟨hk, -⟩ | ⟨D, hD, hk⟩)
  · simp [storeNew] at hk
  · rwa [List.mem_singleton.mp hD] at hk

/-- The number of entries in the last message of a log, if that is a `LoadDataSet` call. -/
def lastLoaded (log : List Event) : Option Nat :=
  match log.getLast? with
  | some (.loadDataSet _ _ _ _ configs) => some configs.length
  | _ => none

/-- A client that saves `a` and then `b` gets both back. -/
theorem drops_nothing : Saves (emptyProject, newDataSetClient) ([setA] ++ [setB])
      (savedThen setB (by decide +kernel)) ∧
    ¬ LoadsBack (savedThen setB (by decide +kernel)).1 (savedThen setB (by decide +kernel)).2
      (cstr ":2") 5 setB := by
  refine ⟨saves_two setB (by decide +kernel) (by decide +kernel), ?_⟩
  rintro ⟨s, c, task, configs, hload, hlog, hperm⟩
  have htwo : (resumeLoad (comeBack (savedThen setB (by decide +kernel)).1
      (savedThen setB (by decide +kernel)).2 (cstr ":2") 5).1
      (comeBack (savedThen setB (by decide +kernel)).1 (savedThen setB (by decide +kernel)).2
        (cstr ":2") 5).2).map (fun x => lastLoaded x.1.g.log) = some (some 2) := by
    decide +kernel
  rw [hload, Option.map_some, hlog, lastLoaded, List.getLast?_concat] at htwo
  have hlen := hperm.length_eq
  simp only [Option.some.injEq] at htwo
  simp [htwo, setB, oneByte] at hlen

end Lash
