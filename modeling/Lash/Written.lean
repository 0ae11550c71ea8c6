import Lash.DataSet
import Lash.Lib.Keyed
import Lash.Lib.Runs

/-!
# What a successful write means

A store in use: configs are set and the store is written, any number of times and in any order, and
each write meets its own failures of the disk. `StoreRun.Written` is what a caller reads from the
result `true` of `storeWrite`.

It is wrong about a write with nothing in memory that comes after a failed one: the values are on
the disk by then, and forgotten, but the info file is not. Such a write is excluded by
`StoreRun.Meets`, as are keys that share a file.
-/

namespace Lash

/-- A call on a store. -/
inductive StoreCall where
  | set (key : CStr) (value : List UInt8) (type : UInt8)
  /-- `storeWrite`, with the outcomes of its operations. -/
  | write (faults : List Fault)

/-- A store in use. -/
structure StoreRun where
  st : Store
  fs : Fs
  /-- What was set last under each key since the store was opened. -/
  last : CStr → Option (List UInt8 × UInt8)
  /-- The info file may not be that of the store: it was not when the store was opened, or the last
  write that had something to do failed. -/
  stale : Bool

namespace StoreRun

/-- A store is opened. -/
def start (dir : CStr) (fs : Fs) : StoreRun :=
  let st := (storeOpen (storeNew dir) fs).2
  { st, fs, last := fun _ => none
    stale := fs.read st.infoFilename ≠ some (infoBytes st.numKeys st.keys) }

/-- The result of a write, and the store and the disk after it. -/
def written (s : StoreRun) (faults : List Fault) : Bool × StoreRun :=
  let r := storeWrite s.st (s.fs.withFaults faults)
  (r.1, { s with
    st := r.2.1, fs := r.2.2, stale := if s.st.unstoredConfigs = [] then s.stale else !r.1 })

/-- One call. -/
def step (s : StoreRun) : StoreCall → Option StoreRun
  | .set key value type =>
    let r := storeSetConfig s.st key value type
    some { s with
      st := r.2, last := if r.1 then Function.update s.last key (some (value, type)) else s.last }
  | .write faults => some (s.written faults).2

/-- The info file holds the number of keys and the keys, and the file of each key that was set holds
the value and the type that were set last. -/
def Written (s : StoreRun) : Prop :=
  s.fs.read s.st.infoFilename = some (infoBytes s.st.numKeys s.st.keys) ∧
    ∀ k, ∀ r ∈ s.last k, s.fs.read (s.st.configFilename k) = some (configBytes r.1 r.2)

/-- A key has a file of its own, and a write with nothing in memory does not come after a failed
one. -/
def Meets (s : StoreRun) : StoreCall → Prop
  | .set key _ _ => s.st.path key ≠ s.st.infoPath ∧
      ∀ k, (s.last k).isSome → k ≠ key → s.st.path k ≠ s.st.path key
  | .write _ => s.st.unstoredConfigs = [] → s.stale = false

/-! ## The invariant -/

/-- What holds between two calls. -/
structure Inv (s : StoreRun) : Prop where
  ok : s.st.Ok
  memory : ∀ c ∈ s.st.unstoredConfigs, s.last c.key = some (c.value, c.type)
  disk : ∀ k, ∀ r ∈ s.last k, k ∈ s.st.unstoredConfigs.map StoreConfig.key ∨
    s.fs.read (s.st.configFilename k) = some (configBytes r.1 r.2)
  apart : ∀ k k', (s.last k).isSome → (s.last k').isSome → k ≠ k' → s.st.path k ≠ s.st.path k'
  info : ∀ k, (s.last k).isSome → s.st.path k ≠ s.st.infoPath
  fresh : s.stale = false → s.st.unstoredConfigs = [] →
    s.fs.read s.st.infoFilename = some (infoBytes s.st.numKeys s.st.keys)

theorem start_inv (dir : CStr) (fs : Fs) : (start dir fs).Inv := by
  obtain ⟨hok, -, hempty, -⟩ := storeOpen_spec dir fs
  refine ⟨hok, ?_, ?_, ?_, ?_, ?_⟩
  · intro c hc
    rw [start, hempty] at hc
    simp at hc
  · intro k r hr
    simp [start] at hr
  · intro k k' hk
    simp [start] at hk
  · intro k hk
    simp [start] at hk
  · intro hstale _
    simpa [start] using hstale

variable {s : StoreRun}

theorem Inv.set (h : s.Inv) {key : CStr} {value : List UInt8} {type : UInt8} {u : StoreRun}
    (hm : s.Meets (.set key value type)) (hs : s.step (.set key value type) = some u) : u.Inv := by
  rw [step, Option.some.injEq] at hs
  by_cases hbad : key = [] ∨ value = []
  · rw [storeSetConfig, if_pos hbad] at hs
    rw [← hs]
    exact h
  · obtain ⟨hkey, hvalue⟩ := not_or.mp hbad
    obtain ⟨hone, hdir, -, huns⟩ := storeSetConfig_fields s.st hkey hvalue type
    have hok := h.ok.set key value type
    rw [if_pos hone] at hs
    generalize (storeSetConfig s.st key value type).2 = st at hs hdir huns hok
    subst hs
    have hpath : ∀ k, st.path k = s.st.path k := by
      intro k
      rw [Store.path, Store.path, Store.configFilename, Store.configFilename, hdir]
    have hinfo : st.infoPath = s.st.infoPath := by
      rw [Store.infoPath, Store.infoPath, Store.infoFilename, Store.infoFilename, hdir]
    have hset : ∀ k, (Function.update s.last key (some (value, type)) k).isSome →
        k = key ∨ (s.last k).isSome := by
      intro k hk
      by_cases he : k = key
      · exact Or.inl he
      · rw [Function.update_of_ne he] at hk
        exact Or.inr hk
    have hkeys : key ∈ st.unstoredConfigs.map StoreConfig.key ∧
        ∀ k ∈ s.st.unstoredConfigs.map StoreConfig.key,
          k ∈ st.unstoredConfigs.map StoreConfig.key := by
      rw [huns, putConfig_keys]
      split
      · next hmem => exact ⟨hmem, fun k hk => hk⟩
      · exact ⟨by simp, fun k hk => List.mem_append_left _ hk⟩
    refine ⟨hok, ?_, ?_, ?_, ?_, ?_⟩
    · intro c hc
      show Function.update s.last key (some (value, type)) c.key = some (c.value, c.type)
      have hfind := putConfig_find key c.key value type s.st.unstoredConfigs
      rw [← huns, Keyed.find_key hok.distinct hc, Option.map_some] at hfind
      by_cases he : c.key = key
      · rw [he, Function.update_self, hfind, if_pos he]
      · rw [Function.update_of_ne he]
        have hmem : c ∈ putConfig key value type s.st.unstoredConfigs := huns ▸ hc
        exact h.memory c ((mem_putConfig hmem).resolve_right fun hnew => he hnew.1)
    · intro k r hr
      replace hr : r ∈ Function.update s.last key (some (value, type)) k := hr
      by_cases he : k = key
      · subst he
        exact Or.inl hkeys.1
      · rw [Function.update_of_ne he] at hr
        refine (h.disk k r hr).imp (hkeys.2 k) fun hread => ?_
        show s.fs.read (st.configFilename k) = _
        rwa [Store.configFilename, hdir]
    · intro k k' hk hk' hne
      show st.path k ≠ st.path k'
      rw [hpath, hpath]
      rcases hset k hk with he | hold
      · rcases hset k' hk' with he' | hold'
        · exact absurd (he.trans he'.symm) hne
        · rw [he]
          exact Ne.symm (hm.2 k' hold' fun he' => hne (he.trans he'.symm))
      · rcases hset k' hk' with he' | hold'
        · rw [he']
          exact hm.2 k hold fun he => hne (he.trans he'.symm)
        · exact h.apart k k' hold hold' hne
    · intro k hk
      show st.path k ≠ st.infoPath
      rw [hpath, hinfo]
      rcases hset k hk with he | hold
      · rw [he]
        exact hm.1
      · exact h.info k hold
    · intro _ hnil
      replace hnil : st.unstoredConfigs = [] := hnil
      have := hkeys.1
      simp [hnil] at this

/-- Configs in memory have different files. -/
theorem Inv.pairwise (h : s.Inv) :
    s.st.unstoredConfigs.Pairwise (fun c d => s.st.path c.key ≠ s.st.path d.key) := by
  have hdist := h.ok.distinct
  rw [List.Nodup, List.pairwise_map] at hdist
  refine hdist.imp_of_mem fun {c d} hc hd hne => ?_
  exact h.apart c.key d.key (by simp [h.memory c hc]) (by simp [h.memory d hd]) hne

/-- After the values were written, what was set last is in memory or in its file. -/
theorem Inv.configs (h : s.Inv) (faults : List Fault) {ok : Bool} {left : List StoreConfig}
    {fs₁ : Fs}
    (hw : storeWriteConfigs s.st (s.st.prepare (s.fs.withFaults faults)) s.st.unstoredConfigs
      = (ok, left, fs₁)) :
    ∀ k, ∀ r ∈ s.last k, k ∈ left.map StoreConfig.key ∨
      fs₁.read (s.st.configFilename k) = some (configBytes r.1 r.2) := by
  have hdirs := s.st.prepare_makesDirs (s.fs.withFaults faults)
  have hframe := (storeWriteConfigs_frame s.st (s.st.prepare (s.fs.withFaults faults))
    s.st.unstoredConfigs).1
  have hwritten := @storeWriteConfigs_written s.st (s.st.prepare (s.fs.withFaults faults)) _
    h.pairwise
  rw [hw] at hframe hwritten
  intro k r hr
  by_cases hk : k ∈ s.st.unstoredConfigs.map StoreConfig.key
  · obtain ⟨c, hc, rfl⟩ := List.mem_map.mp hk
    have hval : r = (c.value, c.type) := by
      rw [h.memory c hc] at hr
      exact (Option.some.inj hr).symm
    subst hval
    exact (hwritten c hc).imp_left List.mem_map_of_mem
  · right
    -- a value that is only on the disk is not touched, because no config has its file
    have hread := (h.disk k r hr).resolve_left hk
    have hnone : ¬ ∃ c ∈ s.st.unstoredConfigs,
        s.st.path c.key = resolve (s.st.configFilename k) := by
      rintro ⟨c, hc, hp⟩
      refine h.apart c.key k (by simp [h.memory c hc]) (Option.isSome_of_mem hr) ?_ hp
      rintro rfl
      exact hk (List.mem_map_of_mem hc)
    rw [hframe.read hnone]
    exact hdirs.read ((Fs.read_withFaults s.fs faults _).trans hread)

/-- **A write keeps the invariant**, whichever of its operations fail. -/
theorem Inv.write (h : s.Inv) (faults : List Fault) : (s.written faults).2.Inv := by
  have hok := h.ok.write (s.fs.withFaults faults)
  unfold written
  by_cases hne : s.st.unstoredConfigs = []
  · have heq : storeWrite s.st (s.fs.withFaults faults)
        = (true, s.st, (s.fs.withFaults faults)) := if_pos hne
    rw [heq]
    dsimp only
    rw [if_pos hne]
    refine ⟨h.ok, h.memory, ?_, h.apart, h.info, ?_⟩
    · simpa using h.disk
    · simpa using h.fresh
  · obtain ⟨ok, left, fs₁, hw, hcases⟩ :=
      storeWrite_cases h.ok.kept hne (s.fs.withFaults faults)
    have hconfigs := h.configs faults hw
    dsimp only
    rw [if_neg hne]
    obtain ⟨-, heq⟩ | ⟨rfl, ok', fs₂, hi, heq⟩ := hcases
    · have hsub := (storeWriteConfigs_frame s.st (s.st.prepare (s.fs.withFaults faults))
        s.st.unstoredConfigs).2.1
      rw [hw] at hsub
      rw [heq] at hok ⊢
      exact ⟨hok, fun c hc => h.memory c (hsub.subset hc), hconfigs, h.apart, h.info,
        fun hstale => by simp at hstale⟩
    · have hleft : left = [] := by
        have := (storeWriteConfigs_frame s.st (s.st.prepare (s.fs.withFaults faults))
          s.st.unstoredConfigs).2.2
        rw [hw] at this
        exact this.mp rfl
      subst hleft
      obtain ⟨hframe, hinfo⟩ := storeWriteInfoFile_spec s.st fs₁
      rw [hi] at hframe hinfo
      rw [heq] at hok ⊢
      refine ⟨hok, by simp, ?_, h.apart, h.info, ?_⟩
      · intro k r hr
        have hread := (hconfigs k r hr).resolve_left (by simp)
        exact Or.inr ((hframe.read (h.info k (Option.isSome_of_mem hr))).trans hread)
      · intro hstale _
        exact hinfo (by simpa using hstale)

/-- **A store that was written is on the disk.** In every sequence of calls in which each meets the
condition, a write that returns `true` leaves the store on the disk as it is in memory, whichever
operations of it and of earlier writes fail. -/
theorem written_of_true {dir : CStr} {fs : Fs} {s : StoreRun}
    (h : Runs.Reach step Meets (start dir fs) s) {faults : List Fault}
    (hm : s.Meets (.write faults)) (hok : (s.written faults).1 = true) :
    (s.written faults).2.Written := by
  have hinv : s.Inv := by
    refine h.invariant (start_inv dir fs) fun t call u _ ht hc hs => ?_
    cases call with
    | set key value type => exact ht.set hc hs
    | write faults =>
        rw [← Option.some.inj hs]
        exact ht.write faults
  have hafter := hinv.write faults
  have hnil : (s.written faults).2.st.unstoredConfigs = [] := by
    rcases storeWrite_frame hinv.ok.kept (s.fs.withFaults faults)
      with ⟨hne, heq⟩ | ⟨-, -, left, -, heq, hleft⟩
    · simp only [written, heq, hne]
    · simp only [written, heq]
      exact hleft hok
  have hstale : (s.written faults).2.stale = false := by
    unfold written at hok ⊢
    dsimp only at hok ⊢
    split
    · next hne => exact hm hne
    · simp [hok]
  refine ⟨hafter.fresh hstale hnil, fun k r hr => ?_⟩
  exact (hafter.disk k r hr).resolve_left (by simp [hnil])

/-- A new store in an empty directory in which one key was set. -/
def oneSet : StoreRun :=
  ((start (cstr "/s") { entries := [([cstr "s"], .dir)], faults := [] }).step
    (.set (cstr "a") [120] typeRaw)).get rfl

theorem oneSet_reached (ok : StoreRun → StoreCall → Prop)
    (h : ok (start (cstr "/s") { entries := [([cstr "s"], .dir)], faults := [] })
      (.set (cstr "a") [120] typeRaw)) :
    Runs.Reach step ok (start (cstr "/s") { entries := [([cstr "s"], .dir)], faults := [] })
      oneSet :=
  .tail .refl h (Option.some_get _).symm

/-- The file of a value cannot be created at first; the second write succeeds. -/
theorem written_of_true_second : ((oneSet.written [some 0]).2.written []).2.Written := by
  have hset : Meets (start (cstr "/s") { entries := [([cstr "s"], .dir)], faults := [] })
      (.set (cstr "a") [120] typeRaw) := ⟨by decide +kernel, fun k hk => by simp [start] at hk⟩
  have hfirst : Meets oneSet (.write [some 0]) := fun h => absurd h (by decide +kernel)
  refine written_of_true (.tail (oneSet_reached Meets hset) hfirst rfl) ?_ (by decide +kernel)
  exact fun h => absurd h (by decide +kernel)

/-- The info file cannot be created at first; the second write has nothing to do and returns `true`,
and there is no info file. -/
theorem true_but_not_written :
    ∃ s, Runs.Reach step (fun _ _ => True)
        (start (cstr "/s") { entries := [([cstr "s"], .dir)], faults := [] }) s ∧
      (s.written []).1 = true ∧ ¬ (s.written []).2.Written := by
  refine ⟨(oneSet.written [none, none, none, none, none, some 0]).2, ?_, by decide +kernel, ?_⟩
  · exact .tail (i := .write [none, none, none, none, none, some 0])
      (oneSet_reached _ trivial) trivial
      rfl
  · intro h
    exact absurd h.1 (by decide +kernel)

end StoreRun

end Lash
