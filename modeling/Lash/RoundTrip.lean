import Lash.LastDataSet
import Lash.Liblash.Config

/-!
# The whole way of a data set

A client writes a data set into the message of its `CommitDataSet` call, the daemon puts it into
the client's store and the store on the disk, opens the store again and sends what is in it back,
and the client reads it. A key is a line of the info file and the name of a file on the way, and
strings come back a byte shorter than they are documented to: the theorem says which data sets
survive.
-/

namespace Lash

/-! ## The way -/

/-- The daemon accepts a data set for a store that it has opened, and writes the store. -/
def Commits (dir : CStr) (fs : Fs) (elems : List ArrayElem) (fs' : Fs) : Prop :=
  let (ok, st) := commitConfigs (storeOpen (storeNew dir) fs).2 elems
  elems ≠ [] ∧ ok = true ∧ (storeWrite st fs).1 = true ∧ (storeWrite st fs).2.2 = fs'

/-- The store is opened again, and the client that is sent what is in it reads each config that was
written once, as documented, and then no more. -/
def ComesBack (dir : CStr) (fs' : Fs) (cs : List ConfigCall) : Prop :=
  let (ok, st) := storeOpen (storeNew dir) fs'
  ok = true ∧ ∃ configs rs, storeCreateConfigArray st fs' st.keys = some (some configs) ∧
    Gives ⟨true, configs.map Entry.elem⟩ rs ∧ rs.Perm (cs.map ConfigCall.documented)

/-- A value in a file of a store that is read as documented. -/
def ConfigCall.FoundIn (c : ConfigCall) (data : Option (List UInt8 × UInt8)) : Prop :=
  ∃ value type k v, data = some (value, type) ∧ configVariant value type = some (some v) ∧
    k.1 = c.key ∧ configRead (Entry.elem (k, v)) = some c.documented

namespace Store

/-- The keys of a store after some were set. -/
def keysWith (st : Store) (ks : List CStr) : List CStr := st.keys ++ ks.filter (· ∉ st.keys)

/-- The text of the info file with these keys. -/
def infoWith (st : Store) (ks : List CStr) : List UInt8 :=
  infoBytes (st.keysWith ks).length (st.keysWith ks)

/-- The data set suits the opened store `st`. -/
structure Suits (st : Store) (fs : Fs) (cs : List ConfigCall) : Prop where
  /-- The size of a string is not the documented one. -/
  strings : ∀ c ∈ cs, ¬ c.IsString
  /-- The number of keys is read as a `long`. -/
  few : (st.keysWith (cs.map ConfigCall.key)).length < 2 ^ 63
  lines : ∀ c ∈ cs, newline ∉ c.key
  once : ∀ c ∈ cs, st.keys.count c.key ≤ 1
  /-- Two keys that name one file have one value. -/
  apart : ∀ c ∈ cs, ∀ c' ∈ cs, st.path c.key = st.path c'.key →
    c.value = c'.value ∧ c.type = c'.type
  /-- A key that names the info file has the value that is in its text. -/
  info : ∀ c ∈ cs, st.path c.key = st.infoPath →
    c.FoundIn (parseConfigFile (st.infoWith (cs.map ConfigCall.key)))
  /-- No other key of the store gives a value. -/
  others : ∀ k ∈ st.keys, k ∉ cs.map ConfigCall.key → fs.reaches (st.configFilename k) = true →
    if st.path k = st.infoPath then parseConfigFile (st.infoWith (cs.map ConfigCall.key)) = none
    else (∀ c ∈ cs, st.path c.key ≠ st.path k) ∧ st.onDisk fs k = none

end Store

/-! ## The store after the write -/

/-- A value that is found under one key is found under another with the same value. -/
theorem ConfigCall.FoundIn.of_eq {c c' : ConfigCall} {data : Option (List UInt8 × UInt8)}
    (h : c'.FoundIn data) (hvalue : c.value = c'.value) (htype : c.type = c'.type) {k : DbusString}
    (hk : k.1 = c.key) : c.FoundIn data := by
  obtain ⟨value, type, k', v, hdata, hvar, hk', hread⟩ := h
  refine ⟨value, type, k, v, hdata, hvar, hk, ?_⟩
  rw [(configRead_key hread k).2, hk]
  unfold documented
  rw [hvalue, htype]

/-- Two calls whose values are found in the same place have the same value. -/
theorem ConfigCall.FoundIn.eq {c c' : ConfigCall} {data : Option (List UInt8 × UInt8)}
    (h : c.FoundIn data) (h' : c'.FoundIn data) : c.value = c'.value ∧ c.type = c'.type := by
  obtain ⟨value, type, k, v, hdata, hvar, -, hread⟩ := h
  obtain ⟨value', type', k', v', hdata', hvar', -, hread'⟩ := h'
  obtain ⟨rfl, rfl⟩ := Prod.mk.inj (Option.some.inj (hdata.symm.trans hdata'))
  obtain rfl := Option.some.inj (Option.some.inj (hvar.symm.trans hvar'))
  have hmoved := (configRead_key hread k').2
  have hsame := Option.some.inj (hmoved.symm.trans hread')
  exact ⟨congrArg ConfigRead.value hsame, congrArg ConfigRead.type hsame⟩

theorem ConfigCall.FoundIn.isSome {c : ConfigCall} {data : Option (List UInt8 × UInt8)}
    (h : c.FoundIn data) : data.isSome := by
  obtain ⟨value, type, k, v, rfl, -⟩ := h
  rfl

theorem Store.setAll_keys (st : Store) {xs : List Setting} (hxs : (xs.map Setting.key).Nodup) :
    (st.setAll xs).keys = st.keysWith (xs.map Setting.key) := by
  induction xs generalizing st with
  | nil =>
      unfold keysWith
      simp [setAll]
  | cons x xs ih =>
      rw [List.map_cons, List.nodup_cons] at hxs
      show (Store.setAll _ xs).keys = _
      rw [ih _ hxs.2]
      unfold keysWith
      have hkeys := (storeSetConfig_fields st x.key_ok.1 x.value_ok x.type).2.2.1
      rw [hkeys, List.map_cons]
      split
      · next hmem => rw [List.filter_cons_of_neg (by simpa using hmem)]
      · next hmem =>
          rw [List.filter_cons_of_pos (by simpa using hmem), List.append_assoc]
          congr 1
          rw [List.singleton_append]
          congr 1
          apply List.filter_congr
          intro k hk
          have hne : k ≠ x.key := fun he => hxs.1 (he ▸ hk)
          simp [hne]

theorem Store.setAll_configFilename (st : Store) (xs : List Setting) (k : CStr) :
    (st.setAll xs).configFilename k = st.configFilename k := by
  unfold Store.configFilename
  rw [st.setAll_dir]

theorem Store.setAll_path (st : Store) (xs : List Setting) (k : CStr) :
    (st.setAll xs).path k = st.path k :=
  congrArg resolve (st.setAll_configFilename xs k)

theorem Store.setAll_infoPath (st : Store) (xs : List Setting) :
    (st.setAll xs).infoPath = st.infoPath := by
  unfold Store.infoPath Store.infoFilename
  rw [st.setAll_dir]

/-- **What the disk has under a key** once the settings are written: what is in the info file if it
is there, else the last of the settings in its place, else what was there before. -/
theorem Store.Ok.onDisk_written {st : Store} {xs : List Setting} {fs : Fs} (h : st.Ok)
    (hempty : st.unstoredConfigs = []) (hdist : (xs.map Setting.key).Nodup) (hxs : xs ≠ [])
    (hw : (storeWrite (st.setAll xs) fs).1 = true) (k : CStr) :
    (st.setAll xs).onDisk (storeWrite (st.setAll xs) fs).2.2 k =
      if ((st.setAll xs).prepare fs).reaches (st.configFilename k) then
        if st.path k = st.infoPath then parseConfigFile (st.infoWith (xs.map Setting.key))
        else (lastConfig (st.setAll xs) (st.path k) (st.setAll xs).unstoredConfigs).elim
          (st.onDisk ((st.setAll xs).prepare fs) k)
          (fun d => parseConfigFile (configBytes d.value d.type))
      else none := by
  have hold : (st.setAll xs).onDisk ((st.setAll xs).prepare fs) k =
      st.onDisk ((st.setAll xs).prepare fs) k := by
    unfold Store.onDisk
    rw [st.setAll_configFilename]
  rw [storeWrite_onDisk (h.setAll xs).kept (Store.unstored_ne_nil hempty hxs) hw,
    st.setAll_configFilename, st.setAll_path, st.setAll_infoPath, (h.setAll xs).count,
    st.setAll_keys hdist, hold]
  cases lastConfig (st.setAll xs) (st.path k) (st.setAll xs).unstoredConfigs with
  | none =>
      rw [Option.elim_none]
      rfl
  | some d =>
      rw [Option.elim_some]
      rfl

/-- What a store `st`, opened again after the calls `cs` were committed to it, gives: `reach` is
whether the directory of a key's file is there, `data` is what is found under a key, `opened` the
opened store. -/
structure Store.Reread (st : Store) (fs : Fs) (cs : List ConfigCall) (reach : CStr → Prop)
    (data : CStr → Option (List UInt8 × UInt8)) (opened : Bool × Store) : Prop where
  opened_iff : opened.1 = true → (st.keysWith (cs.map ConfigCall.key)).length < 2 ^ 63
  opened_lines : ∀ k ∈ opened.2.keys, newline ∉ k
  opened_keys : (st.keysWith (cs.map ConfigCall.key)).length < 2 ^ 63 →
    (∀ c ∈ cs, newline ∉ c.key) →
    opened.1 = true ∧ opened.2.keys = st.keysWith (cs.map ConfigCall.key)
  kept_reach : ∀ k ∈ st.keys, (reach k ↔ fs.reaches (st.configFilename k) = true)
  call_reach : ∀ c ∈ cs, reach c.key
  unreached : ∀ k, ¬ reach k → data k = none
  info : ∀ k, reach k → st.path k = st.infoPath →
    data k = parseConfigFile (st.infoWith (cs.map ConfigCall.key))
  alike : ∀ k k', reach k → reach k' → st.path k = st.path k' → data k = data k'
  own : ∀ c ∈ cs, st.path c.key ≠ st.infoPath → ∃ c' ∈ cs, st.path c.key = st.path c'.key ∧
    (¬ c'.IsString → c'.FoundIn (data c.key))
  kept : ∀ k ∈ st.keys, reach k → st.path k ≠ st.infoPath → (∀ c ∈ cs, st.path c.key ≠ st.path k) →
    data k = st.onDisk fs k

section

variable {dir : CStr} {fs fs' : Fs} {cs : List ConfigCall} {es : List Entry}

/-- There is a setting for each call, and nothing else. -/
structure Carries (cs : List ConfigCall) (xs : List Setting) : Prop where
  keys : xs.map Setting.key = cs.map ConfigCall.key
  calls : ∀ c ∈ cs, (∃ k : DbusString, k.1 = c.key) ∧ ∃ x ∈ xs, x.key = c.key ∧
    x.value.length < 2 ^ 32 ∧ (¬ c.IsString → c.FoundIn (some (x.value, x.type)))

/-- What the daemon takes of a data set. -/
theorem taken_carries {elems : List ArrayElem} (h : writeCalls cs = some elems) :
    (∀ elem ∈ elems, (takenEntry elem).isSome) ∧ Carries cs (taken elems) := by
  obtain ⟨ps, rfl, hps, rfl⟩ := writeCalls_some h
  have hgood : ∀ e ∈ ps.map Prod.snd, e.1.1 ≠ [] ∧ e.2.Storable := by
    intro e he
    obtain ⟨p, hp, rfl⟩ := List.mem_map.mp he
    exact ⟨(hps p hp).key.symm ▸ (hps p hp).key_ne, (hps p hp).storable⟩
  obtain ⟨hall, hkeys, hsmall, hfound⟩ := CommittedSet.taken_entries hgood
  refine ⟨hall, ?_, ?_⟩
  · rw [hkeys, List.map_map, List.map_map]
    exact List.map_congr_left fun p hp => (hps p hp).key
  · intro c hc
    obtain ⟨p, hp, rfl⟩ := List.mem_map.mp hc
    obtain ⟨x, hx, hkey, hvar⟩ := hfound p.2 (List.mem_map_of_mem hp)
    refine ⟨⟨p.2.1, (hps p hp).key⟩, x, hx, hkey.trans (hps p hp).key, hsmall x hx, fun hnot => ?_⟩
    exact ⟨x.value, x.type, p.2.1, p.2.2, rfl, hvar, (hps p hp).key, (hps p hp).read hnot⟩

section carries

variable {xs : List Setting} {st : Store} {d : StoreConfig}

/-- What is in memory is the value of a call. -/
theorem Carries.call_of_config (h : Carries cs xs) (hdist : (cs.map ConfigCall.key).Nodup)
    (hok : st.Ok) (hempty : st.unstoredConfigs = []) (hd : d ∈ (st.setAll xs).unstoredConfigs) :
    ∃ c ∈ cs, d.key = c.key ∧
      (¬ c.IsString → c.FoundIn (parseConfigFile (configBytes d.value d.type))) := by
  have hset : d.key ∈ xs.map Setting.key := (Store.mem_unstored hempty d.key).mp ⟨d, hd, rfl⟩
  rw [h.keys] at hset
  obtain ⟨c, hc, hckey⟩ := List.mem_map.mp hset
  obtain ⟨-, x, hx, hxkey, hsmall, hfound⟩ := h.calls c hc
  -- what is in memory hides the disk
  have hval := (hok.setAll xs).dataSet_unstored ⟨[], []⟩ hd
  rw [Store.setAll_dataSet, ← hckey, ← hxkey, setAll_of_mem (h.keys ▸ hdist) hx] at hval
  obtain ⟨hvalue, htype⟩ := Prod.mk.inj (Option.some.inj hval)
  refine ⟨c, hc, hckey.symm, fun hnot => ?_⟩
  rw [(parseConfigFile_configBytes d.value d.type).mpr
    ⟨(hok.setAll xs).filled d hd, hvalue ▸ hsmall, htype ▸ x.type_ok⟩, ← hvalue, ← htype]
  exact hfound hnot

/-- The value of a call is in memory. -/
theorem Carries.config_of_call (h : Carries cs xs) (hempty : st.unstoredConfigs = [])
    {c : ConfigCall} (hc : c ∈ cs) : ∃ d ∈ (st.setAll xs).unstoredConfigs, d.key = c.key := by
  apply (Store.mem_unstored hempty c.key).mpr
  rw [h.keys]
  exact List.mem_map_of_mem hc

/-- The keys in the info file are without line ends, if those of the calls are. -/
theorem Carries.lineKey (h : Carries cs xs) (hlines : ∀ k ∈ st.keys, LineKey k)
    (hnewline : ∀ c ∈ cs, newline ∉ c.key) :
    ∀ k ∈ st.keysWith (cs.map ConfigCall.key), LineKey k := by
  intro k hk
  rcases List.mem_append.mp hk with hk | hk
  · exact hlines k hk
  · obtain ⟨c, hc, rfl⟩ := List.mem_map.mp (List.mem_of_mem_filter hk)
    obtain ⟨x, -, hxkey, -⟩ := (h.calls c hc).2
    exact ⟨hxkey ▸ x.key_ok.2, hnewline c hc⟩

end carries

/-- **What the daemon finds** when it opens the store again. -/
theorem Commits.reread {elems : List ArrayElem} (hdist : (cs.map ConfigCall.key).Nodup)
    (hwrite : writeCalls cs = some elems) (h : Commits dir fs elems fs') :
    ∃ reach, (storeOpen (storeNew dir) fs).2.Reread fs cs reach
      ((storeOpen (storeNew dir) fs').2.dataSet fs') (storeOpen (storeNew dir) fs') := by
  obtain ⟨hok, hdir, hempty, hlines, hthere⟩ := storeOpen_spec dir fs
  obtain ⟨-, hdir', hempty', hlines', -⟩ := storeOpen_spec dir fs'
  unfold Commits at h
  dsimp only at h
  generalize (storeOpen (storeNew dir) fs).2 = st at *
  obtain ⟨hall, hcarry⟩ := taken_carries hwrite
  obtain ⟨hstore, -⟩ := commitConfigs_eq st elems
  rw [hstore] at h
  obtain ⟨hne, -, hw, rfl⟩ := h
  have hxs : taken elems ≠ [] := by
    obtain ⟨elem, rest, rfl⟩ := List.exists_cons_of_ne_nil hne
    obtain ⟨x, hx⟩ := Option.isSome_iff_exists.mp (hall elem List.mem_cons_self)
    rw [taken, hx]
    exact List.cons_ne_nil _ _
  generalize taken elems = xs at *
  have hxsdist : (xs.map Setting.key).Nodup := hcarry.keys ▸ hdist
  have hok₁ := hok.setAll xs
  have hkeys₁ : (st.setAll xs).keys = st.keysWith (cs.map ConfigCall.key) := by
    rw [st.setAll_keys hxsdist, hcarry.keys]
  have hfile : (storeNew dir).infoFilename = (st.setAll xs).infoFilename := by
    unfold Store.infoFilename
    rw [st.setAll_dir, hdir]
    rfl
  have hopen := storeOpen_infoBytes
    (hfile ▸ (storeWrite_read hok₁.kept (Store.unstored_ne_nil hempty hxs) hw).1)
  rw [hok₁.count, hkeys₁] at hopen
  have hdisk : ∀ k, (storeOpen (storeNew dir) (storeWrite (st.setAll xs) fs).2.2).2.dataSet
      (storeWrite (st.setAll xs) fs).2.2 k =
        if ((st.setAll xs).prepare fs).reaches (st.configFilename k) then
          if st.path k = st.infoPath then
            parseConfigFile (st.infoWith (cs.map ConfigCall.key))
          else (lastConfig (st.setAll xs) (st.path k) (st.setAll xs).unstoredConfigs).elim
            (st.onDisk ((st.setAll xs).prepare fs) k)
            (fun d => parseConfigFile (configBytes d.value d.type))
        else none := by
    intro k
    rw [← hcarry.keys, ← hok.onDisk_written hempty hxsdist hxs hw k,
      Store.dataSet_of_unstored_nil hempty']
    unfold Store.onDisk Store.configFilename
    rw [hdir', st.setAll_dir, hdir]
  have hcallReach : ∀ c ∈ cs,
      ((st.setAll xs).prepare fs).reaches (st.configFilename c.key) = true := by
    intro c hc
    obtain ⟨d, hd, hdkey⟩ := hcarry.config_of_call hempty hc
    have hreach := storeWrite_reaches hok₁.kept hw d hd
    rwa [st.setAll_configFilename, hdkey] at hreach
  have hprepare : ∀ k ∈ st.keys, (st.setAll xs).prepare fs = fs := by
    intro k hk
    unfold Store.prepare
    rw [st.setAll_dir, hdir, if_pos (hthere (List.ne_nil_of_mem hk))]
  refine ⟨fun k => ((st.setAll xs).prepare fs).reaches (st.configFilename k) = true, ?_⟩
  constructor
  case opened_iff =>
    intro hsucc
    by_contra hbig
    rw [hopen, if_neg hbig] at hsucc
    cases hsucc
  case opened_lines => exact fun k hk => (hlines' k hk).2
  case opened_keys =>
    intro hfew hnewline
    rw [hopen, if_pos hfew, readKeys_keyLines (hcarry.lineKey hlines hnewline)]
    exact ⟨rfl, rfl⟩
  case kept_reach =>
    intro k hk
    rw [hprepare k hk]
  case call_reach => exact hcallReach
  case unreached =>
    intro k hk
    rw [hdisk, if_neg hk]
  case info =>
    intro k hk hpk
    rw [hdisk, if_pos hk, if_pos hpk]
  case alike =>
    intro k k' hk hk' hpk
    rw [hdisk, hdisk, if_pos hk, if_pos hk', hpk]
    unfold Store.onDisk
    rw [Fs.read_eq_of_resolve hk hk' hpk]
  case own =>
    intro c hc hpc
    rw [hdisk, if_pos (hcallReach c hc), if_neg hpc]
    cases hlast : lastConfig (st.setAll xs) (st.path c.key) (st.setAll xs).unstoredConfigs with
    | none =>
        obtain ⟨d, hd, hdkey⟩ := hcarry.config_of_call hempty hc
        refine absurd ?_ (lastConfig_none hlast d hd)
        rw [st.setAll_path, hdkey]
    | some d =>
        obtain ⟨hd, hdpath⟩ := lastConfig_some hlast
        obtain ⟨c', hc', hkey', hfound'⟩ := hcarry.call_of_config hdist hok hempty hd
        rw [Option.elim_some]
        refine ⟨c', hc', ?_, hfound'⟩
        rw [← hdpath, st.setAll_path, hkey']
  case kept =>
    intro k hk hreach hpk hapart
    rw [hdisk, if_pos hreach, if_neg hpk]
    cases hlast : lastConfig (st.setAll xs) (st.path k) (st.setAll xs).unstoredConfigs with
    | none =>
        rw [Option.elim_none, hprepare k hk]
    | some d =>
        obtain ⟨hd, hdpath⟩ := lastConfig_some hlast
        obtain ⟨c, hc, hkey, -⟩ := hcarry.call_of_config hdist hok hempty hd
        refine absurd ?_ (hapart c hc)
        rw [← hdpath, st.setAll_path, hkey]

/-! ## Surviving -/

/-- What a client reads of the keys of a store: those of the calls, if each of them is found there
and the others give nothing. -/
theorem reads_of_found {ks : List CStr} {st : Store} (hdist : (cs.map ConfigCall.key).Nodup)
    (hmem : ∀ c ∈ cs, ks.count c.key = 1)
    (hfound : ∀ c ∈ cs, c.FoundIn (storeGetConfig st fs' c.key))
    (hothers : ∀ k ∈ ks, k ∉ cs.map ConfigCall.key → storeGetConfig st fs' k = none) :
    ∃ configs rs, storeCreateConfigArray st fs' ks = some (some configs) ∧
      Gives ⟨true, configs.map Entry.elem⟩ rs ∧ rs.Perm (cs.map ConfigCall.documented) := by
  have hfind : ∀ c ∈ cs, cs.find? (fun d => d.key = c.key) = some c :=
    fun c hc => Keyed.find_key hdist hc
  have hfindKey : ∀ k c, cs.find? (fun d => d.key = k) = some c → c ∈ cs ∧ c.key = k := by
    intro k c hk
    exact ⟨List.mem_of_find?_eq_some hk, by simpa using List.find?_some hk⟩
  have hfindNone : ∀ k ∉ cs.map ConfigCall.key, cs.find? (fun d => d.key = k) = none := by
    intro k hk
    apply List.find?_eq_none.mpr
    intro c hc hkey
    exact hk (List.mem_map.mpr ⟨c, hc, by simpa using hkey⟩)
  -- the keys give the configs of the calls that have them, in the order of the store
  have harray : ∀ ks : List CStr,
      (∀ k ∈ ks, k ∉ cs.map ConfigCall.key → storeGetConfig st fs' k = none) →
      ∃ configs, storeCreateConfigArray st fs' ks = some (some configs) ∧
        (configs.map Entry.elem).map configRead = (ks.filterMap (fun k =>
          (cs.find? (fun d => d.key = k)).map ConfigCall.documented)).map some := by
    intro ks hks
    induction ks with
    | nil => exact ⟨[], rfl, rfl⟩
    | cons k ks ih =>
        obtain ⟨configs, hconfigs, hreads⟩ := ih fun k hk => hks k (List.mem_cons_of_mem _ hk)
        rw [storeCreateConfigArray]
        by_cases hk : k ∈ cs.map ConfigCall.key
        · obtain ⟨c, hc, rfl⟩ := List.mem_map.mp hk
          obtain ⟨value, type, s, v, hget, hvar, hs, hread⟩ := hfound c hc
          refine ⟨(s, v) :: configs, ?_, ?_⟩
          · rw [hget]
            dsimp only
            rw [← hs, toDbusString_val]
            dsimp only
            rw [hvar, hconfigs]
            rfl
          · rw [List.filterMap_cons_some (by rw [hfind c hc]; rfl), List.map_cons, List.map_cons,
              List.map_cons, hread, hreads]
        · refine ⟨configs, ?_, ?_⟩
          · rw [hks k List.mem_cons_self hk]
            exact hconfigs
          · rw [List.filterMap_cons_none (by rw [hfindNone k hk]; rfl)]
            exact hreads
  obtain ⟨configs, hconfigs, hreads⟩ := harray ks hothers
  refine ⟨configs, _, hconfigs, (gives_iff _ _).mpr hreads, ?_⟩
  have hnodup : (cs.map ConfigCall.documented).Nodup := by
    refine List.Nodup.of_map ConfigRead.key ?_
    rw [List.map_map]
    exact hdist
  refine (List.perm_ext_iff_of_nodup ?_ hnodup).mpr fun r => ?_
  · have hkeys : (ks.filterMap (fun k => (cs.find? (fun d => d.key = k)).map
        ConfigCall.documented)).map ConfigRead.key = ks.filter (· ∈ cs.map ConfigCall.key) := by
      rw [List.map_filterMap, ← List.filterMap_eq_filter]
      apply List.filterMap_congr
      intro k _
      rw [Option.map_map]
      by_cases hk : k ∈ cs.map ConfigCall.key
      · obtain ⟨c, hc, rfl⟩ := List.mem_map.mp hk
        unfold Option.guard
        rw [hfind c hc, if_pos (by simpa using hk)]
        rfl
      · unfold Option.guard
        rw [hfindNone k hk, if_neg (by simpa using hk)]
        rfl
    refine List.Nodup.of_map ConfigRead.key (List.nodup_iff_count_le_one.mpr fun k => ?_)
    rw [hkeys]
    by_cases hk : k ∈ cs.map ConfigCall.key
    · obtain ⟨c, hc, rfl⟩ := List.mem_map.mp hk
      rw [List.count_filter (by simpa using hk), hmem c hc]
    · rw [List.count_eq_zero_of_not_mem
        (fun hmem => hk (by simpa using (List.mem_filter.mp hmem).2))]
      exact Nat.zero_le 1
  · rw [List.mem_filterMap]
    constructor
    · rintro ⟨k, -, hk⟩
      obtain ⟨c, hc, rfl⟩ := Option.map_eq_some_iff.mp hk
      exact List.mem_map_of_mem (hfindKey k c hc).1
    · intro hr
      obtain ⟨c, hc, rfl⟩ := List.mem_map.mp hr
      refine ⟨c.key, ?_, by rw [hfind c hc]; rfl⟩
      apply List.count_pos_iff.mp
      rw [hmem c hc]
      exact Nat.one_pos

/-- What comes back says about the calls and the store. -/
theorem found_of_reads {ks : List CStr} {st : Store} {configs : List Entry} {rs : List ConfigRead}
    (hdist : (cs.map ConfigCall.key).Nodup)
    (harray : storeCreateConfigArray st fs' ks = some (some configs))
    (hgives : Gives ⟨true, configs.map Entry.elem⟩ rs)
    (hperm : rs.Perm (cs.map ConfigCall.documented)) :
    (∀ c ∈ cs, ¬ c.IsString ∧ ks.count c.key = 1 ∧ c.FoundIn (storeGetConfig st fs' c.key)) ∧
      ∀ k ∈ ks, k ∉ cs.map ConfigCall.key → storeGetConfig st fs' k = none := by
  obtain ⟨hkeys, hvalues⟩ := storeCreateConfigArray_spec harray
  rw [gives_iff, List.map_map] at hgives
  have hread : ∀ e ∈ configs, ∃ c ∈ cs, configRead e.elem = some c.documented := by
    intro e he
    have hmem : configRead e.elem ∈ rs.map some := by
      rw [← hgives]
      exact List.mem_map_of_mem he
    obtain ⟨r, hr, heq⟩ := List.mem_map.mp hmem
    obtain ⟨c, hc, rfl⟩ := List.mem_map.mp (hperm.mem_iff.mp hr)
    exact ⟨c, hc, heq.symm⟩
  have hkey : ∀ e c, configRead (Entry.elem e) = some (ConfigCall.documented c) →
      c.key = e.1.1 := by
    intro e c heq
    exact (configRead_key heq e.1).1
  have hback : ∀ c ∈ cs, ∃ e ∈ configs, configRead e.elem = some c.documented := by
    intro c hc
    have hmem : some c.documented ∈ configs.map (configRead ∘ Entry.elem) := by
      rw [hgives]
      exact List.mem_map_of_mem (hperm.mem_iff.mpr (List.mem_map_of_mem hc))
    obtain ⟨e, he, heq⟩ := List.mem_map.mp hmem
    exact ⟨e, he, heq⟩
  -- the keys that are read are those of the calls, each once
  have hkeysPerm : (ks.filter (fun k => (storeGetConfig st fs' k).isSome)).Perm
      (cs.map ConfigCall.key) := by
    have hmap : configs.map (fun e => e.1.1) = rs.map ConfigRead.key := by
      have hsome : (configs.map (fun e => e.1.1)).map some = (rs.map ConfigRead.key).map some := by
        rw [List.map_map, List.map_map]
        have hlift := congrArg (List.map (Option.map ConfigRead.key)) hgives
        rw [List.map_map, List.map_map] at hlift
        refine Eq.trans ?_ hlift
        apply List.map_congr_left
        intro e he
        obtain ⟨c, -, heq⟩ := hread e he
        show some e.1.1 = (configRead e.elem).map ConfigRead.key
        rw [heq, ← hkey e c heq]
        rfl
      exact List.map_injective_iff.mpr (Option.some_injective _) hsome
    rw [← hkeys, hmap]
    have hp := hperm.map ConfigRead.key
    rw [List.map_map] at hp
    exact hp
  refine ⟨fun c hc => ?_, fun k hk hnot => ?_⟩
  · obtain ⟨e, he, heq⟩ := hback c hc
    obtain ⟨value, type, hget, hvar⟩ := hvalues e he
    have hce := hkey e c heq
    refine ⟨fun hstring => configRead_ne_documented hstring heq, ?_, ?_⟩
    · have hcount := hkeysPerm.count_eq c.key
      rw [List.count_eq_one_of_mem hdist (List.mem_map_of_mem hc)] at hcount
      rw [← hcount]
      refine (List.count_filter ?_).symm
      rw [hce, hget]
      rfl
    · exact ⟨value, type, e.1, e.2, hce ▸ hget, hvar, hce.symm, heq⟩
  · by_contra hsome
    apply hnot
    apply hkeysPerm.mem_iff.mp
    exact List.mem_filter.mpr ⟨hk, Option.isSome_iff_ne_none.mpr hsome⟩

/-- **A data set survives** the whole way exactly if it suits the store: it has no strings, and
its keys are fit to be lines of the info file and files of their own. -/
theorem data_set_survives_iff {elems : List ArrayElem} (hdist : (cs.map ConfigCall.key).Nodup)
    (hwrite : writeCalls cs = some elems) (h : Commits dir fs elems fs') :
    ComesBack dir fs' cs ↔ (storeOpen (storeNew dir) fs).2.Suits fs cs := by
  obtain ⟨reach, hre⟩ := h.reread hdist hwrite
  unfold ComesBack
  dsimp only
  generalize storeOpen (storeNew dir) fs' = opened at hre ⊢
  generalize (storeOpen (storeNew dir) fs).2 = st at hre ⊢
  have hcount : ∀ c ∈ cs, (st.keysWith (cs.map ConfigCall.key)).count c.key = 1 ↔
      st.keys.count c.key ≤ 1 := by
    intro c hc
    have hone : (cs.map ConfigCall.key).count c.key = 1 :=
      List.count_eq_one_of_mem hdist (List.mem_map_of_mem hc)
    unfold Store.keysWith
    rw [List.count_append]
    by_cases hmem : c.key ∈ st.keys
    · have hpos := List.count_pos_iff.mpr hmem
      rw [List.count_eq_zero_of_not_mem (l := List.filter _ _) (by simp [hmem])]
      omega
    · rw [List.count_filter (by simpa using hmem), hone, List.count_eq_zero_of_not_mem hmem]
      omega
  constructor
  · rintro ⟨hsucc, configs, rs, harray, hgives, hperm⟩
    obtain ⟨hcalls, hothers⟩ := found_of_reads hdist harray hgives hperm
    have hfew := hre.opened_iff hsucc
    have hlines : ∀ c ∈ cs, newline ∉ c.key := by
      intro c hc
      apply hre.opened_lines
      apply List.count_pos_iff.mp
      rw [(hcalls c hc).2.1]
      exact Nat.one_pos
    have hkeys := (hre.opened_keys hfew hlines).2
    rw [hkeys] at hcalls hothers
    refine ⟨fun c hc => (hcalls c hc).1, hfew, hlines,
      fun c hc => (hcount c hc).mp (hcalls c hc).2.1, ?_, ?_, ?_⟩
    · intro c hc c' hc' hpath
      have hsame := hre.alike _ _ (hre.call_reach c hc) (hre.call_reach c' hc') hpath
      have hfound : c.FoundIn (opened.2.dataSet fs' c.key) := (hcalls c hc).2.2
      rw [hsame] at hfound
      exact hfound.eq (hcalls c' hc').2.2
    · intro c hc hpath
      rw [← hre.info _ (hre.call_reach c hc) hpath]
      exact (hcalls c hc).2.2
    · intro k hk hnot hreach
      have hreach' := (hre.kept_reach k hk).mpr hreach
      have hnone : opened.2.dataSet fs' k = none := hothers k (List.mem_append_left _ hk) hnot
      split
      · next hpath =>
          rw [← hre.info k hreach' hpath]
          exact hnone
      · next hpath =>
          have hapart : ∀ c ∈ cs, st.path c.key ≠ st.path k := by
            intro c hc hsame
            have hfound := (hcalls c hc).2.2.isSome
            have halike := hre.alike _ _ (hre.call_reach c hc) hreach' hsame
            change (opened.2.dataSet fs' c.key).isSome at hfound
            rw [halike, hnone] at hfound
            cases hfound
          exact ⟨hapart, (hre.kept k hk hreach' hpath hapart).symm.trans hnone⟩
  · intro hsuits
    obtain ⟨hsucc, hkeys⟩ := hre.opened_keys hsuits.few hsuits.lines
    refine ⟨hsucc, ?_⟩
    rw [hkeys]
    refine reads_of_found hdist (fun c hc => (hcount c hc).mpr (hsuits.once c hc)) ?_ ?_
    · intro c hc
      show c.FoundIn (opened.2.dataSet fs' c.key)
      by_cases hpath : st.path c.key = st.infoPath
      · rw [hre.info _ (hre.call_reach c hc) hpath]
        exact hsuits.info c hc hpath
      · obtain ⟨c', hc', hsame, hfound⟩ := hre.own c hc hpath
        obtain ⟨hvalue, htype⟩ := hsuits.apart c hc c' hc' hsame
        obtain ⟨k, hk⟩ := ((taken_carries hwrite).2.calls c hc).1
        exact (hfound (hsuits.strings c' hc')).of_eq hvalue htype hk
    · intro k hk hnot
      show opened.2.dataSet fs' k = none
      by_cases hreach : reach k
      · have hmem : k ∈ st.keys := by
          rcases List.mem_append.mp hk with hk | hk
          · exact hk
          · exact absurd (List.mem_of_mem_filter hk) hnot
        have hother := hsuits.others k hmem hnot ((hre.kept_reach k hmem).mp hreach)
        split at hother
        · next hpath =>
            rw [hre.info k hreach hpath]
            exact hother
        · next hpath =>
            rw [hre.kept k hmem hreach hpath hother.1]
            exact hother.2
      · exact hre.unreached k hreach

end

/-! ## Two data sets -/

/-- What is written is accepted and stored, with a new store on an empty disk. -/
def storedAtFirst (cs : List ConfigCall) : Bool :=
  (writeCalls cs).any fun elems =>
    let (ok, st) := commitConfigs (storeOpen (storeNew (cstr "/s")) emptyProject.g.fs).2 elems
    !elems.isEmpty && ok && (storeWrite st emptyProject.g.fs).1

theorem commits_of_storedAtFirst {cs : List ConfigCall} (h : storedAtFirst cs = true) :
    ∃ elems fs', writeCalls cs = some elems ∧ Commits (cstr "/s") emptyProject.g.fs elems fs' := by
  obtain ⟨elems, helems, hcheck⟩ := (Option.any_eq_true _ _).mp h
  obtain ⟨hcheck, hstore⟩ := (Bool.and_eq_true _ _).mp hcheck
  obtain ⟨hne, hok⟩ := (Bool.and_eq_true _ _).mp hcheck
  refine ⟨elems, _, helems, ?_, hok, hstore, rfl⟩
  rintro rfl
  cases hne

/-- A number of each kind and two bytes. -/
def numbersAndBytes : List ConfigCall :=
  [.write (cstr "gain") (.double 0x3ff8000000000000), .write (cstr "voices") (.integer 16),
    .writeRaw (cstr "patch") [0, 255]]

theorem data_set_survives_numbersAndBytes : ∃ fs', ComesBack (cstr "/s") fs' numbersAndBytes := by
  have hstored : storedAtFirst numbersAndBytes = true := by decide +kernel
  obtain ⟨elems, fs', hwrite, hcommits⟩ := commits_of_storedAtFirst hstored
  have hinfo : ∀ c ∈ numbersAndBytes,
      (storeOpen (storeNew (cstr "/s")) emptyProject.g.fs).2.path c.key ≠
      (storeOpen (storeNew (cstr "/s")) emptyProject.g.fs).2.infoPath := by
    decide +kernel
  refine ⟨fs', (data_set_survives_iff (by decide +kernel) hwrite hcommits).mpr
    ⟨?_, ?_, ?_, ?_, ?_, ?_, ?_⟩⟩
  · decide +kernel
  · decide +kernel
  · decide +kernel
  · decide +kernel
  · decide +kernel
  · exact fun c hc hpath => absurd hpath (hinfo c hc)
  · decide +kernel

/-- A string: its size comes back one short of the documented one. -/
theorem string_does_not_survive :
    ¬ ∀ (cs : List ConfigCall) elems dir fs fs', (cs.map ConfigCall.key).Nodup →
      writeCalls cs = some elems → Commits dir fs elems fs' → ComesBack dir fs' cs := by
  intro hall
  have hstored : storedAtFirst [.write (cstr "name") (.string (cstr "lead") (by decide))] =
      true := by
    decide +kernel
  obtain ⟨elems, fs', hwrite, hcommits⟩ := commits_of_storedAtFirst hstored
  obtain ⟨-, configs, rs, harray, hgives, hperm⟩ :=
    hall _ elems _ _ fs' (by decide +kernel) hwrite hcommits
  have hread := (found_of_reads (by decide +kernel) harray hgives hperm).1 _ List.mem_cons_self
  exact hread.1 rfl

end Lash
