import Lash.InfoFile
import Lash.Lib.Runs

/-!
# Stores in use

A store is opened, given configs and written, in any order, and each call may find a file system in
any state in which anything may fail. If a store is opened only while it has no keys
(`Fs.ListsKeys`), its list of keys, their number and the values in memory agree after every call
(`store_agrees`).

`storeOpen` adds the keys it reads to those that are there and sets their number, so a store that
has keys already does not survive it (`opened_again`).
-/

namespace Lash

/-- A call on a store, with the file system it finds. -/
inductive StoreTurn
  | openStore (fs : Fs)
  | setConfig (key : CStr) (value : List UInt8) (type : UInt8)
  | write (fs : Fs)

/-- What a call leaves of the store. -/
def Store.turn (st : Store) : StoreTurn → Store
  | .openStore fs => (storeOpen st fs).2
  | .setConfig key value type => (storeSetConfig st key value type).2
  | .write fs => (storeWrite st fs).2.1

/-- The step function of a store: no call fails to return. -/
def Store.step (st : Store) (c : StoreTurn) : Option Store := some (st.turn c)

/-- The lines of the info file of a store. -/
def Store.infoLines (st : Store) (fs : Fs) : List CStr :=
  fileLines ((fs.read st.infoFilename).getD [])

/-- The info file has no repeated lines. -/
def Store.LinesDiffer (st : Store) : StoreTurn → Prop
  | .openStore fs => (st.infoLines fs).Nodup
  | _ => True

/-- The store is opened while it has no keys, and the lines behind the count differ up to their
first NUL. -/
def Store.ListsKeys (st : Store) : StoreTurn → Prop
  | .openStore fs => st.keys = [] ∧ ((st.infoLines fs).tail.map lineKey).Nodup
  | _ => True

/-! ## What holds between two calls -/

/-- The list of keys, their number and the values in memory agree. -/
structure Store.Agrees (st : Store) : Prop extends st.Ok where
  named : st.keys.Nodup
  roomy : ∀ c ∈ st.unstoredConfigs, c.value.length ≤ c.room

theorem storeNew_agrees (dir : CStr) : (storeNew dir).Agrees where
  toOk := storeNew_ok dir
  named := List.nodup_nil
  roomy := by simp [storeNew]

/-- A store without keys has nothing in memory. -/
theorem Store.Ok.unstored_nil {st : Store} (h : st.Ok) (hkeys : st.keys = []) :
    st.unstoredConfigs = [] := by
  apply List.eq_nil_iff_forall_not_mem.mpr
  intro c hc
  have hlisted := h.listed c hc
  rw [hkeys] at hlisted
  exact List.not_mem_nil hlisted

/-- What follows the first line are the other lines. -/
theorem fileLines_getline {data line rest : List UInt8} (h : getline data = some (line, rest)) :
    fileLines rest = (fileLines data).tail := by
  rcases line_or_last data with ⟨first, others, rfl, hfirst⟩ | hlast
  · rw [getline_line hfirst] at h
    obtain ⟨-, rfl⟩ := Prod.mk.inj (Option.some.inj h)
    rw [fileLines_line hfirst, List.tail_cons]
  · by_cases hnil : data = []
    · rw [hnil, getline, if_pos rfl] at h
      cases h
    · rw [getline_last hnil hlast] at h
      obtain ⟨-, rfl⟩ := Prod.mk.inj (Option.some.inj h)
      rw [fileLines_last hnil hlast, fileLines, List.tail_cons]

/-- A store that is opened while it has no keys has those of the info file afterwards, or none. -/
theorem storeOpen_keys {st : Store} (h : st.Ok) (hkeys : st.keys = []) (fs : Fs) :
    ∃ ks, (storeOpen st fs).2 = { st with numKeys := ks.length, keys := ks } ∧
      ks.Sublist ((st.infoLines fs).tail.map lineKey) := by
  have hnone : ∃ ks, st = { st with numKeys := ks.length, keys := ks } ∧
      ks.Sublist ((st.infoLines fs).tail.map lineKey) := by
    refine ⟨[], ?_, List.nil_sublist _⟩
    rw [List.length_nil, ← hkeys]
    rw [show (0 : Nat) = st.numKeys by rw [h.count, hkeys, List.length_nil]]
  have hempty : { st with numKeys := 0 } = st := by
    rw [show (0 : Nat) = st.numKeys by rw [h.count, hkeys, List.length_nil]]
  unfold storeOpen
  split
  · exact hnone
  · split
    · exact hnone
    · split
      · rw [hempty]
        exact hnone
      · next line rest hline =>
          split
          · rw [hempty]
            exact hnone
          · split
            · exact ⟨[], rfl, List.nil_sublist _⟩
            · next n _ ks hks =>
                refine ⟨ks, ?_, ?_⟩
                · rw [length_readKeys hks, hkeys, List.nil_append]
                · rw [readKeys_lines] at hks
                  split at hks
                  · rw [← Option.some.inj hks, fileLines_getline hline]
                    exact List.take_sublist _ _
                  · cases hks

/-! ## Calls keep it -/

theorem Store.Agrees.opened {st : Store} {fs : Fs} (h : st.Agrees) (hkeys : st.keys = [])
    (hlines : ((st.infoLines fs).tail.map lineKey).Nodup) : (storeOpen st fs).2.Agrees := by
  obtain ⟨ks, heq, hsub⟩ := storeOpen_keys h.toOk hkeys fs
  have hnil := h.unstored_nil hkeys
  rw [heq]
  exact { count := rfl
          listed := by simp [hnil]
          distinct := h.distinct
          filled := h.filled
          kept := h.kept
          named := hlines.sublist hsub
          roomy := h.roomy }

/-- The buffer of a config is enlarged when a value needs more than the last one did. -/
theorem putConfig_roomy {l : List StoreConfig} (h : ∀ c ∈ l, c.value.length ≤ c.room) (key : CStr)
    (value : List UInt8) (type : UInt8) :
    ∀ c ∈ putConfig key value type l, c.value.length ≤ c.room := by
  induction l with
  | nil =>
      intro c hc
      rw [putConfig, List.mem_singleton] at hc
      subst hc
      exact le_refl _
  | cons d cs ih =>
      obtain ⟨hd, hcs⟩ := List.forall_mem_cons.mp h
      rw [putConfig]
      split
      · intro c hc
        rcases List.mem_cons.mp hc with rfl | hc
        · dsimp only
          split <;> omega
        · exact hcs c hc
      · exact List.forall_mem_cons.mpr ⟨hd, ih hcs⟩

theorem Store.Agrees.set {st : Store} (h : st.Agrees) (key : CStr) (value : List UInt8)
    (type : UInt8) : (storeSetConfig st key value type).2.Agrees := by
  have hok := h.toOk.set key value type
  by_cases hbad : key = [] ∨ value = []
  · rw [storeSetConfig, if_pos hbad]
    exact h
  · obtain ⟨hkey, hvalue⟩ := not_or.mp hbad
    obtain ⟨-, -, hkeys, huns⟩ := storeSetConfig_fields st hkey hvalue type
    refine { toOk := hok, named := ?_, roomy := ?_ }
    · rw [hkeys]
      split
      · exact h.named
      · next hnot =>
          exact h.named.append (List.nodup_singleton key) (List.disjoint_singleton.mpr hnot)
    · rw [huns]
      exact putConfig_roomy h.roomy key value type

theorem Store.Agrees.write {st : Store} (h : st.Agrees) (fs : Fs) :
    (storeWrite st fs).2.1.Agrees := by
  have hok := h.toOk.write fs
  rcases storeWrite_frame h.kept fs with ⟨-, heq⟩ | ⟨-, -, left, hsub, heq, -⟩
  · rw [heq]
    exact h
  · rw [heq] at hok ⊢
    exact { toOk := hok, named := h.named, roomy := fun c hc => h.roomy c (hsub.subset hc) }

/-- A store that agrees still does after every call. -/
theorem Store.Agrees.step {st : Store} (h : st.Agrees) {c : StoreTurn} (hc : st.ListsKeys c) :
    (st.turn c).Agrees := by
  cases c with
  | openStore fs => exact h.opened hc.1 hc.2
  | setConfig key value type => exact h.set key value type
  | write fs => exact h.write fs

/-- **The parts of a store agree after any number of calls**: the number of keys is that of the
list, no key is listed twice, every value in memory has a key of its own which is listed, and its
buffer has room for it. -/
theorem store_agrees {dir : CStr} {st : Store}
    (h : Runs.Reach Store.step Store.ListsKeys (storeNew dir) st) :
    st.numKeys = st.keys.length ∧ st.keys.Nodup ∧
      (st.unstoredConfigs.map StoreConfig.key).Nodup ∧
      (∀ c ∈ st.unstoredConfigs, c.key ∈ st.keys) ∧
      ∀ c ∈ st.unstoredConfigs, 1 ≤ c.value.length ∧ c.value.length ≤ c.room := by
  have hagrees : st.Agrees := by
    refine h.invariant (storeNew_agrees dir) ?_
    intro t c u _ ht hc hu
    cases Option.some.inj hu
    exact ht.step hc
  refine ⟨hagrees.count, hagrees.named, hagrees.distinct, hagrees.listed, fun c hc => ⟨?_, ?_⟩⟩
  · exact List.length_pos_of_ne_nil (hagrees.filled c hc)
  · exact hagrees.roomy c hc

/-! ## Stores that have keys already -/

/-- A store of one key on the disk. -/
def oneKeyFs : Fs where
  entries := [([cstr "d"], .dir), ([cstr "d", storeInfoFile], .file (cstr "1\nx\n"))]
  faults := []

/-- Two keys that differ behind a NUL only. -/
def nulKeysFs : Fs where
  entries := [([cstr "d"], .dir),
    ([cstr "d", storeInfoFile], .file (cstr "2\nx" ++ 0 :: cstr "y\nx" ++ 0 :: cstr "z\n"))]
  faults := []

/-- The store of one key, opened and given a value of one byte and then of two for another key. -/
def usedStore : Store :=
  (((storeNew (cstr "/d")).turn (.openStore oneKeyFs)).turn
    (.setConfig (cstr "y") [1] typeRaw)).turn (.setConfig (cstr "y") [1, 2] typeRaw)

theorem store_agrees_used :
    usedStore.unstoredConfigs.map StoreConfig.room = [2] ∧
      usedStore.numKeys = usedStore.keys.length ∧ usedStore.keys.Nodup := by
  have hlines : (((storeNew (cstr "/d")).infoLines oneKeyFs).tail.map lineKey).Nodup := by
    decide +kernel
  have hused : Runs.Reach Store.step Store.ListsKeys (storeNew (cstr "/d")) usedStore := by
    apply Runs.Reach.tail (i := StoreTurn.setConfig (cstr "y") [1, 2] typeRaw) _ trivial rfl
    apply Runs.Reach.tail (i := StoreTurn.setConfig (cstr "y") [1] typeRaw) _ trivial rfl
    exact Runs.Reach.tail (i := StoreTurn.openStore oneKeyFs) .refl ⟨rfl, hlines⟩ rfl
  obtain ⟨hcount, hnamed, -⟩ := store_agrees hused
  exact ⟨by decide +kernel, hcount, hnamed⟩

/-- **A store opened again lists its key twice** and counts it once, and keys that differ behind a
NUL are the same key. -/
theorem opened_again :
    (∃ st, Runs.Reach Store.step Store.LinesDiffer (storeNew (cstr "/d")) st ∧
      st.numKeys = 1 ∧ st.keys = [cstr "x", cstr "x"]) ∧
    ∃ st, Runs.Reach Store.step Store.LinesDiffer (storeNew (cstr "/d")) st ∧
      ¬ st.keys.Nodup := by
  constructor
  · have hfirst : ((storeNew (cstr "/d")).infoLines oneKeyFs).Nodup := by decide +kernel
    have hsecond :
        (((storeNew (cstr "/d")).turn (.openStore oneKeyFs)).infoLines oneKeyFs).Nodup := by
      decide +kernel
    refine ⟨((storeNew (cstr "/d")).turn (.openStore oneKeyFs)).turn (.openStore oneKeyFs), ?_,
      by decide +kernel, by decide +kernel⟩
    exact Runs.Reach.tail (i := StoreTurn.openStore oneKeyFs)
      (Runs.Reach.tail (i := StoreTurn.openStore oneKeyFs) .refl hfirst rfl) hsecond rfl
  · have hlines : ((storeNew (cstr "/d")).infoLines nulKeysFs).Nodup := by decide +kernel
    refine ⟨(storeNew (cstr "/d")).turn (.openStore nulKeysFs), ?_, by decide +kernel⟩
    exact Runs.Reach.tail (i := StoreTurn.openStore nulKeysFs) .refl hlines rfl

end Lash
