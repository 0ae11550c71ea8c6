import Lash.Offers

/-!
# What the key of a config may name

A key is joined to the directory of its store and the result is used as a file name, to write a
value and to read it back. Nothing looks at the key before, so it depends on the key alone whether
the file is in that directory. A key without a slash names an entry of the directory, or a
directory that no value can be written to (`Store.SlashFree.confined`); and since keys come back
from the info files of stores, what has to be kept is that no info file lists any other
(`Fs.PlainInfo`).
-/

namespace Lash

/-! ## Confined stores -/

/-- A path is a direct entry of the directory of a store. -/
def Store.Entry (st : Store) (q : Path) : Prop := ∃ name, q = resolve st.dir ++ [name]

/-- All that is ever written or read for a store are direct entries of its directory, on whatever
disk and with whatever failures. -/
structure Store.Confined (st : Store) : Prop where
  /-- Away from these, writing leaves everything as it is, or makes a directory where nothing
  was. -/
  writes : ∀ (fs : Fs) (q : Path), (storeWrite st fs).2.2.get q = fs.get q ∨ st.Entry q ∨
    fs.get q = none ∧ (storeWrite st fs).2.2.get q = some .dir
  reads : ∀ fs : Fs, ∀ k ∈ st.keys, (fs.read (st.configFilename k)).isSome → st.Entry (st.path k)

/-- No key of the store has a slash. -/
structure Store.SlashFree (st : Store) : Prop where
  keys : ∀ k ∈ st.keys, slash ∉ k
  unstored : ∀ c ∈ st.unstoredConfigs, slash ∉ c.key

/-- A key without a slash names an entry of the directory, or a path on the way to it. -/
theorem Store.path_of_slashFree (st : Store) {k : CStr} (h : slash ∉ k) :
    st.Entry (st.path k) ∨ st.path k <+: resolve st.dir := by
  by_cases hplain : PlainName k
  · exact Or.inl ⟨k, resolve_fqn st.dir hplain⟩
  · right
    rw [Store.path, Store.configFilename, resolve, splitSlash_fqn, splitSlash_of_not_mem h,
      List.foldl_append, List.foldl_cons, List.foldl_nil]
    show walk (resolve st.dir) k <+: resolve st.dir
    unfold walk
    split
    · exact List.prefix_refl _
    · next hdot =>
        rw [not_or] at hdot
        have hdd : k = cstr ".." := by
          by_contra hne
          exact hplain ⟨hdot.1, h, hdot.2, hne⟩
        rw [if_pos hdd]
        exact List.dropLast_prefix _

namespace Fs

variable {fs fs' : Fs} {P : Path → Prop} {f d : CStr} {q : Path}

/-- What is on the way to a directory that is there is a directory. -/
theorem isDir_of_prefix (h : fs.lashDirExists d = true) (hq : q <+: resolve d) :
    fs.isDir q = true :=
  lashDirExists_iff.mp h q (prefix_mem_way (resolve_mem_way d) hq)

/-- A directory is not written to. -/
theorem Writes.get_of_isDir (h : fs.Writes fs' P)
    (hq : fs.isDir q = true) : fs'.get q = fs.get q := by
  have hget : ∀ {fs : Fs}, fs.isDir q = true → fs.get q = some .dir := by
    intro fs hdir
    unfold isDir at hdir
    split at hdir
    · assumption
    · simp at hdir
  rw [hget hq, hget ((h.dirs q).trans hq)]

/-- Nothing is written where the kernel does not get to. -/
theorem writeFile_of_not_reaches (h : fs.reaches f = false) (chunks : List (List UInt8)) :
    fs.writeFile f chunks = (false, fs.next) := by
  have hcreat : fs.creat f = (false, fs.next) := by
    refine if_neg ?_
    rintro ⟨hreach, -⟩
    rw [h] at hreach
    simp at hreach
  rw [writeFile, hcreat]
  rfl

end Fs

theorem storeWriteConfigs_not_reached {st : Store} {l : List StoreConfig}
    (h : ∀ c ∈ l, slash ∉ c.key) {fs : Fs} (hfs : fs.lashDirExists st.dir = false) (q : Path) :
    (storeWriteConfigs st fs l).2.2.get q = fs.get q ∧
      (storeWriteConfigs st fs l).2.2.lashDirExists st.dir = false := by
  induction l generalizing fs with
  | nil => exact ⟨rfl, hfs⟩
  | cons c l ih =>
      have hone : (storeWriteConfig st fs c).2.get q = fs.get q ∧
          (storeWriteConfig st fs c).2.lashDirExists st.dir = false := by
        by_cases hv : c.value = []
        · rw [storeWriteConfig, if_pos (by rw [hv]; rfl)]
          exact ⟨rfl, hfs⟩
        · have hreach : fs.reaches (st.configFilename c.key) = false := by
            rw [Store.configFilename, Fs.reaches_fqn fs st.dir (h c List.mem_cons_self)]
            exact hfs
          rw [storeWriteConfig_eq st fs hv, Fs.writeFile_of_not_reaches hreach]
          exact ⟨rfl, ((Fs.Writes.next fs (fun _ => False)).lashDirExists _).trans hfs⟩
      obtain ⟨hget, hdir⟩ := ih (fun d hd => h d (List.mem_cons_of_mem _ hd)) hone.2
      rw [storeWriteConfigs_cons]
      dsimp only
      split
      · exact ⟨hget.trans hone.1, hdir⟩
      · exact ⟨hget.trans hone.1, hdir⟩

/-- **Keys without slashes keep a store in its directory.** -/
theorem Store.SlashFree.confined {st : Store} (h : st.SlashFree) (hok : st.Ok) : st.Confined := by
  constructor
  · intro fs q
    rcases storeWrite_frame hok.kept fs with ⟨-, heq⟩ | ⟨hne, hwrites, -⟩
    · rw [heq]
      exact Or.inl rfl
    · -- everything but the files of the keys and the info file is as it was when they were written
      have hprepared : (storeWrite st fs).2.2.get q = (st.prepare fs).get q ∨ st.Entry q := by
        cases hdir : (st.prepare fs).lashDirExists st.dir with
        | true =>
            by_cases howns : st.Owns q
            · rcases howns with rfl | ⟨c, hc, rfl⟩
              · exact Or.inr ⟨storeInfoFile, resolve_fqn st.dir (by decide)⟩
              · rcases st.path_of_slashFree (h.unstored c hc) with hentry | hprefix
                · exact Or.inr hentry
                · exact Or.inl (hwrites.get_of_isDir (Fs.isDir_of_prefix hdir hprefix))
            · exact Or.inl (hwrites.frame q howns)
        | false =>
            left
            obtain ⟨hget, hgone⟩ := storeWriteConfigs_not_reached h.unstored hdir q
            obtain ⟨ok, left, fs₁, hw, ⟨-, heq⟩ | ⟨-, ok', fs₂, hi, heq⟩⟩ :=
              storeWrite_cases hok.kept hne fs
            · rw [hw] at hget
              rw [heq]
              exact hget
            · rw [hw] at hget hgone
              have hreach : fs₁.reaches st.infoFilename = false := by
                rw [Store.infoFilename, Fs.reaches_fqn fs₁ st.dir (by decide)]
                exact hgone
              rw [storeWriteInfoFile_eq, Fs.writeFile_of_not_reaches hreach] at hi
              rw [heq, ← (Prod.mk.inj hi).2]
              exact hget
      rcases hprepared with heq | hentry
      · rw [heq]
        rcases st.prepare_makesDirs fs q with hsame | hmade
        · exact Or.inl hsame
        · exact Or.inr (Or.inr hmade)
      · exact Or.inr (Or.inl hentry)
  · intro fs k hk hread
    rcases st.path_of_slashFree (h.keys k hk) with hentry | hprefix
    · exact hentry
    · -- the path is a directory, and a directory is not read
      exfalso
      obtain ⟨data, hdata⟩ := Option.isSome_iff_exists.mp hread
      have hdir : fs.lashDirExists st.dir = true := by
        rw [← Fs.reaches_fqn fs st.dir (h.keys k hk)]
        exact Fs.reaches_of_read hdata
      have hisdir : fs.isDir (st.path k) = true := Fs.isDir_of_prefix hdir hprefix
      rw [Fs.read, if_pos (Fs.reaches_of_read hdata)] at hdata
      rw [Store.path, Fs.isDir_of_bytes hdata] at hisdir
      simp at hisdir

/-! ## Info files -/

/-- A text that lists no key with a slash: it has none, or it starts with a byte that no number
starts with, as the file of a value does. -/
def InfoText (data : List UInt8) : Prop := slash ∉ data ∨ ∃ b rest, data = b :: rest ∧ b.toNat < 9

theorem InfoText.of_prefix {data data' : List UInt8} (h : InfoText data') (hp : data <+: data') :
    InfoText data := by
  rcases h with h | ⟨b, rest, rfl, hb⟩
  · exact Or.inl (fun hm => h (hp.subset hm))
  · cases data with
    | nil => exact Or.inl List.not_mem_nil
    | cons a data =>
        rw [List.cons_prefix_cons] at hp
        exact Or.inr ⟨a, data, rfl, hp.1 ▸ hb⟩

theorem mem_of_getline {data line rest : List UInt8} (h : getline data = some (line, rest)) :
    (∀ b ∈ line, b ∈ data) ∧ ∀ b ∈ rest, b ∈ data := by
  unfold getline at h
  split at h
  · exact absurd h (by simp)
  · split at h
    · obtain ⟨rfl, rfl⟩ := Prod.mk.inj (Option.some.inj h)
      exact ⟨fun b hb => hb, fun b hb => absurd hb List.not_mem_nil⟩
    · next nl rest' hdrop =>
        obtain ⟨rfl, rfl⟩ := Prod.mk.inj (Option.some.inj h)
        have hsuffix : ∀ b ∈ nl :: rest', b ∈ data := by
          intro b hb
          rw [← hdrop] at hb
          exact (List.dropWhile_suffix _).subset hb
        refine ⟨?_, fun b hb => hsuffix b (List.mem_cons_of_mem _ hb)⟩
        intro b hb
        rcases List.mem_append.mp hb with hb | hb
        · exact (List.takeWhile_prefix _).subset hb
        · rw [List.mem_singleton.mp hb]
          exact hsuffix nl List.mem_cons_self

theorem getline_head {b : UInt8} {data line rest : List UInt8} (hb : b ≠ newline)
    (h : getline (b :: data) = some (line, rest)) : ∃ tl, line = b :: tl := by
  unfold getline at h
  rw [if_neg (by simp)] at h
  split at h
  · exact ⟨data, (Prod.mk.inj (Option.some.inj h)).1.symm⟩
  · next nl rest' _ =>
      rw [List.takeWhile_cons_of_pos (by simpa using hb)] at h
      exact ⟨data.takeWhile (· ≠ newline) ++ [nl], (Prod.mk.inj (Option.some.inj h)).1.symm⟩

theorem mem_of_readKeys {n : Nat} {data : List UInt8} {ks : List CStr}
    (h : readKeys n data = some ks) : ∀ k ∈ ks, ∀ b ∈ k, b ∈ data := by
  induction n generalizing data ks with
  | zero =>
      obtain rfl := Option.some.inj h
      exact fun k hk => absurd hk List.not_mem_nil
  | succ n ih =>
      rw [readKeys] at h
      split at h
      · exact absurd h (by simp)
      · next line rest hline =>
          obtain ⟨ks', hks, rfl⟩ := Option.map_eq_some_iff.mp h
          obtain ⟨hfirst, hrest⟩ := mem_of_getline hline
          intro k hk b hb
          rcases List.mem_cons.mp hk with rfl | hk
          · exact hfirst b ((List.takeWhile_prefix _).subset hb)
          · exact hrest b (ih hks k hk b hb)

/-- A line that starts so low has no number of keys. -/
theorem parseNumKeys_low {b : UInt8} (hb : b.toNat < 9) (rest : List UInt8) :
    parseNumKeys (b :: rest) = none := by
  have hspace : isSpace b = false := by
    unfold isSpace
    rw [Bool.or_eq_false_iff, beq_eq_false_iff_ne, Bool.and_eq_false_iff]
    refine ⟨?_, Or.inl ?_⟩
    · rintro rfl
      exact absurd hb (by decide)
    · rw [decide_eq_false_iff_not, UInt8.le_iff_toNat_le]
      exact Nat.not_le_of_lt hb
  have hdigit : isDigit b = false := by
    unfold isDigit
    rw [Bool.and_eq_false_iff]
    left
    rw [decide_eq_false_iff_not, UInt8.le_iff_toNat_le]
    exact fun hle => absurd (Nat.lt_of_le_of_lt hle hb) (by decide)
  have hsign : takeSign (b :: rest) = (false, b :: rest) := by
    unfold takeSign
    split
    · next heq =>
        obtain ⟨rfl, -⟩ := List.cons_eq_cons.mp heq
        exact absurd hb (by decide)
    · next heq =>
        obtain ⟨rfl, -⟩ := List.cons_eq_cons.mp heq
        exact absurd hb (by decide)
    · rfl
  have hscan : scanNumber (b :: rest) = none := by
    unfold scanNumber
    rw [List.dropWhile_cons_of_neg (by rw [hspace]; simp), hsign]
    dsimp only
    rw [List.takeWhile_cons_of_neg (by rw [hdigit]; simp), if_pos rfl]
  unfold parseNumKeys
  rw [hscan]
  have hne : b ≠ newline := by
    rintro rfl
    exact absurd hb (by decide)
  simp [hne]

namespace Fs

variable {fs fs' : Fs} {f d : CStr} {q : Path}

/-- No info file of a store lists a key with a slash. -/
def PlainInfo (fs : Fs) : Prop :=
  ∀ q data, fs.bytes (q ++ [storeInfoFile]) = some data → InfoText data

/-- A store that is opened then has no such key. -/
theorem PlainInfo.storeOpen (h : fs.PlainInfo) (dir : CStr) :
    (Lash.storeOpen (storeNew dir) fs).2.SlashFree := by
  have hnone : ∀ st : Store, st.keys = [] → st.unstoredConfigs = [] → st.SlashFree := by
    intro st hk hu
    exact ⟨by simp [hk], by simp [hu]⟩
  unfold Lash.storeOpen
  split
  · exact hnone _ rfl rfl
  · split
    · exact hnone _ rfl rfl
    · split
      · exact hnone _ rfl rfl
      · next line rest hline =>
          have htext : InfoText ((fs.read (storeNew dir).infoFilename).getD []) := by
            cases hread : fs.read (storeNew dir).infoFilename with
            | none => exact Or.inl List.not_mem_nil
            | some data =>
                apply h (resolve dir) data
                rw [Fs.read, if_pos (reaches_of_read hread)] at hread
                rwa [← resolve_fqn dir (f := storeInfoFile) (by decide)]
          split
          · exact hnone _ rfl rfl
          · next n hn =>
              split
              · exact hnone _ rfl rfl
              · next ks hks =>
                  refine ⟨?_, by simp [storeNew]⟩
                  intro k hk hslash
                  rcases htext with hfree | ⟨b, rest', hdata, hb⟩
                  · exact hfree ((mem_of_getline hline).2 _ (mem_of_readKeys hks k hk _ hslash))
                  · -- the first line starts with the first byte of the file
                    rw [hdata] at hline
                    have hne : b ≠ newline := by
                      rintro rfl
                      exact absurd hb (by decide)
                    obtain ⟨tl, rfl⟩ := getline_head hne hline
                    rw [parseNumKeys_low hb] at hn
                    simp at hn

theorem PlainInfo.makesDirs (h : fs.PlainInfo) (hm : fs.MakesDirs fs') : fs'.PlainInfo := by
  intro q data hdata
  rw [hm.bytes] at hdata
  exact h q data hdata

/-! ## Writing part of a file -/

theorem write_prefix {old : List UInt8} (h : fs.bytes (resolve f) = some old) (data : List UInt8) :
    ∃ new, (fs.write f data).2.bytes (resolve f) = some new ∧ new <+: old ++ data := by
  have hdir : fs.next.isDir (resolve f) = false := isDir_of_bytes h
  unfold write
  dsimp only
  rw [h, Option.getD_some]
  split
  · exact ⟨_, bytes_put hdir _, List.prefix_refl _⟩
  · exact ⟨_, bytes_put hdir _, (List.prefix_append_right_inj old).mpr (List.take_prefix _ _)⟩

theorem writeAll_prefix {old : List UInt8} (h : fs.bytes (resolve f) = some old)
    (chunks : List (List UInt8)) :
    ∃ new, (fs.writeAll f chunks).2.bytes (resolve f) = some new ∧
      new <+: old ++ chunks.flatten := by
  induction chunks generalizing fs old with
  | nil => exact ⟨old, h, by simp⟩
  | cons data rest ih =>
      obtain ⟨-, new, hnew, happend⟩ := write_spec h data
      obtain ⟨new', hnew', hprefix⟩ := write_prefix h data
      rw [writeAll]
      generalize fs.write f data = r at hnew happend hnew'
      obtain ⟨ok, fs'⟩ := r
      cases ok with
      | false =>
          refine ⟨new', hnew', hprefix.trans ?_⟩
          rw [List.flatten_cons, ← List.append_assoc]
          exact List.prefix_append _ _
      | true =>
          obtain ⟨new'', hnew'', hprefix'⟩ := ih hnew
          refine ⟨new'', hnew'', ?_⟩
          rwa [happend rfl, List.append_assoc, ← List.flatten_cons] at hprefix'

theorem close_prefix {old : List UInt8} (h : fs.bytes (resolve f) = some old) :
    ∃ new, (fs.close f).2.bytes (resolve f) = some new ∧ new <+: old := by
  have hdir : fs.next.isDir (resolve f) = false := isDir_of_bytes h
  unfold close
  split
  · exact ⟨old, h, List.prefix_refl _⟩
  · refine ⟨_, bytes_put hdir _, ?_⟩
    rw [h, Option.getD_some]
    exact List.take_prefix _ _

/-- **Whatever fails, a file that was written** holds what was there before, or a first part of
what it should hold. -/
theorem writeFile_prefix (fs : Fs) (f : CStr) (chunks : List (List UInt8)) :
    (fs.writeFile f chunks).2.bytes (resolve f) = fs.bytes (resolve f) ∨
      ∃ new, (fs.writeFile f chunks).2.bytes (resolve f) = some new ∧ new <+: chunks.flatten := by
  rw [writeFile]
  by_cases hcan : fs.reaches f ∧ ¬ fs.isDir (resolve f) ∧ fs.fault = none
  · have hcreat : fs.creat f = (true, fs.next.put (resolve f) (.file [])) := if_pos hcan
    rw [hcreat]
    have hdir : fs.next.isDir (resolve f) = false := by simpa using hcan.2.1
    obtain ⟨new, hnew, hprefix⟩ := writeAll_prefix (bytes_put hdir []) chunks
    dsimp only
    generalize (fs.next.put (resolve f) (.file [])).writeAll f chunks = r at hnew
    obtain ⟨ok, fs'⟩ := r
    obtain ⟨new', hnew', hprefix'⟩ := close_prefix hnew
    right
    cases ok with
    | false => exact ⟨new', hnew', hprefix'.trans hprefix⟩
    | true => exact ⟨new', hnew', hprefix'.trans hprefix⟩
  · have hcreat : fs.creat f = (false, fs.next) := if_neg hcan
    rw [hcreat]
    exact Or.inl rfl

/-- Writing a file keeps the info files plain, if it is none or what should go into it is plain. -/
theorem PlainInfo.writeFile (h : fs.PlainInfo) {chunks : List (List UInt8)}
    (hf : (∀ q, resolve f ≠ q ++ [storeInfoFile]) ∨ InfoText chunks.flatten) :
    (fs.writeFile f chunks).2.PlainInfo := by
  intro q data hdata
  by_cases hq : q ++ [storeInfoFile] = resolve f
  · rw [hq] at hdata
    rcases writeFile_prefix fs f chunks with hsame | ⟨new, hnew, hprefix⟩
    · rw [hsame, ← hq] at hdata
      exact h q data hdata
    · rw [hnew] at hdata
      rw [← Option.some.inj hdata]
      rcases hf with hne | htext
      · exact absurd hq.symm (hne q)
      · exact htext.of_prefix hprefix
  · rw [(fs.writeFile_spec f chunks).1.bytes hq] at hdata
    exact h q data hdata

end Fs

/-! ## Plain stores -/

/-- A store whose keys have no slashes and whose values came in a message. -/
structure Store.Plain (st : Store) : Prop where
  ok : st.Ok
  free : st.SlashFree
  small : ∀ c ∈ st.unstoredConfigs, c.value.length < 9 * 2 ^ 24

theorem storeOpen_plain {fs : Fs} (h : fs.PlainInfo) (dir : CStr) :
    (storeOpen (storeNew dir) fs).2.Plain where
  ok := (storeOpen_spec dir fs).1
  free := h.storeOpen dir
  small := by
    rw [(storeOpen_spec dir fs).2.2.1]
    simp

/-- A value that was taken from a message is not long. -/
theorem takenEntry_small {elem : ArrayElem} {x : Setting} (h : takenEntry elem = some x) :
    x.value.length < 9 * 2 ^ 24 := by
  have hget : ∀ {key value type}, methodIterGetDictEntry elem = some (key, value, type) →
      value.length < 9 * 2 ^ 24 := by
    intro key value type hget
    unfold methodIterGetDictEntry at hget
    split at hget
    · split at hget
      · obtain ⟨-, rfl, -⟩ : _ ∧ _ ∧ _ := by simpa using hget
        rw [leBytes_length]
        decide
      · obtain ⟨-, rfl, -⟩ : _ ∧ _ ∧ _ := by simpa using hget
        rw [leBytes_length]
        decide
      · next s =>
          obtain ⟨-, rfl, -⟩ : _ ∧ _ ∧ _ := by simpa using hget
          have := s.2.2.2
          simp only [List.length_append, List.length_cons, List.length_nil]
          omega
      · next s =>
          obtain ⟨-, rfl, -⟩ : _ ∧ _ ∧ _ := by simpa using hget
          have := s.2
          omega
      · simp at hget
      · obtain ⟨-, rfl, -⟩ : _ ∧ _ ∧ _ := by simpa using hget
        decide
    · simp at hget
  unfold takenEntry at h
  split at h
  · simp at h
  · next key value type hentry =>
      split at h
      · rw [← Option.some.inj h]
        exact hget hentry
      · simp at h

theorem taken_small {elems : List ArrayElem} : ∀ x ∈ taken elems, x.value.length < 9 * 2 ^ 24 := by
  induction elems with
  | nil => exact fun x hx => absurd hx List.not_mem_nil
  | cons elem elems ih =>
      intro x hx
      rw [taken] at hx
      split at hx
      · exact absurd hx List.not_mem_nil
      · next y hy =>
          rcases List.mem_cons.mp hx with rfl | hx
          · exact takenEntry_small hy
          · exact ih x hx

namespace Store.Plain

variable {st : Store}

theorem set (h : st.Plain) {x : Setting} (hkey : slash ∉ x.key) (hx : x.value.length < 9 * 2 ^ 24) :
    (storeSetConfig st x.key x.value x.type).2.Plain := by
  obtain ⟨-, -, hkeys, huns⟩ := storeSetConfig_fields st x.key_ok.1 x.value_ok x.type
  refine ⟨h.ok.set _ _ _, ⟨?_, ?_⟩, ?_⟩
  · intro k hk
    rw [hkeys] at hk
    split at hk
    · exact h.free.keys k hk
    · rcases List.mem_append.mp hk with hk | hk
      · exact h.free.keys k hk
      · rw [List.mem_singleton.mp hk]
        exact hkey
  · intro c hc
    rw [huns] at hc
    rcases mem_putConfig hc with hc | ⟨hk, -, -⟩
    · exact h.free.unstored c hc
    · rw [hk]
      exact hkey
  · intro c hc
    rw [huns] at hc
    rcases mem_putConfig hc with hc | ⟨-, hv, -⟩
    · exact h.small c hc
    · rw [hv]
      exact hx

theorem setAll (h : st.Plain) {xs : List Setting}
    (hxs : ∀ x ∈ xs, slash ∉ x.key ∧ x.value.length < 9 * 2 ^ 24) : (st.setAll xs).Plain := by
  induction xs generalizing st with
  | nil => exact h
  | cons x xs ih =>
      obtain ⟨hkey, hsmall⟩ := hxs x List.mem_cons_self
      exact ih (h.set hkey hsmall) (fun y hy => hxs y (List.mem_cons_of_mem _ hy))

/-- A store stays plain when it is written. -/
theorem write (h : st.Plain) (fs : Fs) : (storeWrite st fs).2.1.Plain := by
  obtain ⟨left, hsub, heq⟩ : ∃ left, left.Sublist st.unstoredConfigs ∧
      (storeWrite st fs).2.1 = { st with unstoredConfigs := left } := by
    rcases storeWrite_frame h.ok.kept fs with ⟨-, heq⟩ | ⟨-, -, left, hsub, heq, -⟩
    · exact ⟨st.unstoredConfigs, List.Sublist.refl _, by rw [heq]⟩
    · exact ⟨left, hsub, heq⟩
  refine ⟨h.ok.write fs, ?_, ?_⟩
  · rw [heq]
    exact ⟨h.free.keys, fun c hc => h.free.unstored c (hsub.subset hc)⟩
  · rw [heq]
    exact fun c hc => h.small c (hsub.subset hc)

/-- What goes into the file of a value starts low. -/
theorem configText {c : StoreConfig} (h : c.value.length < 9 * 2 ^ 24) :
    InfoText (configBytes c.value c.type) := by
  refine Or.inr ⟨_, _, rfl, ?_⟩
  rw [byte_toNat]
  have : c.value.length / 2 ^ 24 < 9 := Nat.div_lt_of_lt_mul (by omega)
  omega

/-- What goes into the info file has no slash. -/
theorem infoText (h : st.Plain) : InfoText (infoBytes st.numKeys st.keys) := by
  left
  intro hm
  unfold infoBytes keyLines at hm
  rcases List.mem_append.mp hm with hm | hm
  · exact absurd (isDigit_of_mem_decimal hm) (by decide)
  · rcases List.mem_cons.mp hm with hm | hm
    · exact absurd hm (by decide)
    · obtain ⟨k, hk, hm⟩ := List.mem_flatMap.mp hm
      rcases List.mem_append.mp hm with hm | hm
      · exact h.free.keys k hk hm
      · exact absurd (List.mem_singleton.mp hm) (by decide)

theorem writeConfigs_plainInfo {l : List StoreConfig} {fs : Fs} (hfs : fs.PlainInfo)
    (hl : ∀ c ∈ l, c.value.length < 9 * 2 ^ 24) : (storeWriteConfigs st fs l).2.2.PlainInfo := by
  induction l generalizing fs with
  | nil => exact hfs
  | cons c l ih =>
      have hone : (storeWriteConfig st fs c).2.PlainInfo := by
        by_cases hv : c.value = []
        · rw [storeWriteConfig, if_pos (by rw [hv]; rfl)]
          exact hfs
        · rw [storeWriteConfig_eq st fs hv]
          apply hfs.writeFile
          right
          have htext := configText (hl c List.mem_cons_self)
          simpa [configBytes] using htext
      have hrest := ih hone (fun d hd => hl d (List.mem_cons_of_mem _ hd))
      rw [storeWriteConfigs_cons]
      dsimp only
      split
      · exact hrest
      · exact hrest

/-- **Writing a plain store** leaves no info file that lists a key with a slash. -/
theorem write_plainInfo (h : st.Plain) {fs : Fs} (hfs : fs.PlainInfo) :
    (storeWrite st fs).2.2.PlainInfo := by
  by_cases hne : st.unstoredConfigs = []
  · rw [storeWrite, if_pos hne]
    exact hfs
  · have hconfigs := @writeConfigs_plainInfo st _ _ (hfs.makesDirs (st.prepare_makesDirs fs))
        h.small
    obtain ⟨ok, left, fs₁, hw, ⟨-, heq⟩ | ⟨-, ok', fs₂, hi, heq⟩⟩ :=
      storeWrite_cases h.ok.kept hne fs
    · rw [hw] at hconfigs
      rw [heq]
      exact hconfigs
    · rw [hw] at hconfigs
      rw [storeWriteInfoFile_eq] at hi
      rw [heq, show fs₂ = _ from (congrArg Prod.snd hi).symm]
      apply hconfigs.writeFile
      right
      have htext := h.infoText
      simpa [infoBytes, keyLines, List.flatMap] using htext

end Store.Plain

/-! ## The operations of the daemon -/

/-- An operation that gives a directory the name of an info file. -/
def DiskOp.Mimics : DiskOp → Prop
  | rename _ new => (resolve new).getLast? = some storeInfoFile
  | makeDir _ | removeDir _ | removeEmpty _ | writeInfo _ _ | writeNotes _ _ | openStore _ => False

namespace Fs

variable {fs : Fs} {q : Path}

theorem bytes_eq_some {data : List UInt8} (h : fs.bytes q = some data) :
    q ≠ [] ∧ fs.entries.lookup q = some (.file data) := by
  unfold bytes get at h
  split at h
  · next hget =>
      rw [Option.some.inj h] at hget
      split at hget
      · simp at hget
      · exact ⟨by assumption, hget⟩
  · simp at h

/-- **The operations of the daemon** leave no info file that lists a key with a slash. -/
theorem PlainInfo.run (h : fs.PlainInfo) {o : DiskOp} (ho : ¬ o.Mimics) : (o.run fs).PlainInfo := by
  have hremove : ∀ d, (fs.lashRemoveDir d).PlainInfo := by
    intro d q data hdata
    unfold bytes at hdata
    rcases get_lashRemoveDir_cases fs d (q ++ [storeInfoFile]) with hsame | ⟨-, hgone⟩
    · rw [hsame] at hdata
      exact h q data hdata
    · rw [hgone] at hdata
      cases hdata
  have hname : ∀ (d name : CStr), PlainName name → name ≠ storeInfoFile →
      ∀ q, resolve (lashGetFqn d name) ≠ q ++ [storeInfoFile] := by
    intro d name hplain hne q he
    rw [resolve_fqn d hplain] at he
    exact hne (List.cons.inj (List.append_inj_right' he rfl)).1
  cases o with
  | makeDir d => exact h.makesDirs (lashCreateDir_makesDirs fs d)
  | removeDir d => exact hremove d
  | removeEmpty d =>
      rw [DiskOp.run]
      split
      · exact hremove d
      · exact h
  | rename old new =>
      intro q data hdata
      rw [DiskOp.run] at hdata
      unfold bytes at hdata
      rcases get_rename_cases fs old new (q ++ [storeInfoFile]) with hsame | hgone | ⟨x, hx, hold⟩
      · rw [hsame] at hdata
        exact h q data hdata
      · rw [hgone] at hdata
        cases hdata
      · rcases List.eq_nil_or_concat x with rfl | ⟨y, name, rfl⟩
        · rw [List.append_nil] at hx
          exact absurd (by rw [DiskOp.Mimics, ← hx]; simp) ho
        · rw [List.concat_eq_append] at hx hold
          rw [← List.append_assoc] at hx hold
          obtain ⟨rfl, hname⟩ := List.append_inj' hx rfl
          rw [← hname] at hold
          rw [hold] at hdata
          exact h _ data hdata
  | writeInfo d doc =>
      intro q data hdata
      rw [DiskOp.run, (fs.xmlSaveFile_writes _ doc).bytes
        (fun he => hname d projectInfoFile (by decide) (by decide) q he.symm)] at hdata
      exact h q data hdata
  | writeNotes d notes =>
      rw [DiskOp.run, saveNotes_eq]
      exact h.writeFile (Or.inl (hname d projectNotesFile (by decide) (by decide)))
  | openStore d => exact h

end Fs

/-! ## The directory of another client -/

/-- What is in a directory stays, apart from directories that are made there. -/
structure Fs.SameAt (d : CStr) (fs fs' : Fs) : Prop where
  there : fs.lashDirExists d = true → fs'.lashDirExists d = true
  entries : ∀ name, fs'.get (resolve d ++ [name]) = fs.get (resolve d ++ [name]) ∨
    fs.get (resolve d ++ [name]) = none ∧ fs'.get (resolve d ++ [name]) = some .dir

namespace Fs.SameAt

variable {fs fs' fs'' : Fs} {d : CStr}

theorem refl (d : CStr) (fs : Fs) : fs.SameAt d fs := ⟨id, fun _ => Or.inl rfl⟩

theorem trans (h : Fs.SameAt d fs fs') (h' : Fs.SameAt d fs' fs'') : Fs.SameAt d fs fs'' where
  there := fun hd => h'.there (h.there hd)
  entries := by
    intro name
    rcases h.entries name with heq | ⟨hnone, hdir⟩
    · rcases h'.entries name with heq' | ⟨hnone', hdir'⟩
      · exact Or.inl (heq'.trans heq)
      · exact Or.inr ⟨heq ▸ hnone', hdir'⟩
    · rcases h'.entries name with heq' | ⟨hnone', -⟩
      · exact Or.inr ⟨hnone, heq'.trans hdir⟩
      · rw [hdir] at hnone'
        simp at hnone'

/-- Files are read as before. -/
theorem read (h : Fs.SameAt d fs fs') (hd : fs.lashDirExists d = true) {k : CStr} (hk : slash ∉ k) :
    fs'.read (lashGetFqn d k) = fs.read (lashGetFqn d k) := by
  have hreach : fs.reaches (lashGetFqn d k) = true := by rw [Fs.reaches_fqn fs d hk, hd]
  have hreach' : fs'.reaches (lashGetFqn d k) = true := by
    rw [Fs.reaches_fqn fs' d hk, h.there hd]
  rw [Fs.read, Fs.read, if_pos hreach, if_pos hreach']
  rcases (storeNew d).path_of_slashFree hk with ⟨name, hname⟩ | hprefix
  · have hname : resolve (lashGetFqn d k) = resolve d ++ [name] := hname
    rw [hname]
    rcases h.entries name with heq | ⟨hnone, hdir⟩
    · rw [Fs.bytes, heq, Fs.bytes]
    · rw [Fs.bytes, hdir, Fs.bytes, hnone]
  · -- a directory on the way, on both disks
    have hbytes : ∀ {fs : Fs}, fs.lashDirExists d = true → fs.bytes (resolve (lashGetFqn d k)) =
        none := by
      intro fs hdir
      have hisdir := Fs.isDir_of_prefix hdir hprefix
      cases hb : fs.bytes (resolve (lashGetFqn d k)) with
      | none => rfl
      | some data =>
          rw [Store.path, Store.configFilename] at hisdir
          rw [show (storeNew d).dir = d from rfl, Fs.isDir_of_bytes hb] at hisdir
          simp at hisdir
    rw [hbytes hd, hbytes (h.there hd)]

/-- A store that is opened there is the same. -/
theorem storeOpen (h : Fs.SameAt d fs fs') (hd : fs.lashDirExists d = true) :
    Lash.storeOpen (storeNew d) fs' = Lash.storeOpen (storeNew d) fs := by
  have hread : fs'.read (storeNew d).infoFilename = fs.read (storeNew d).infoFilename :=
    h.read hd (by decide)
  have hreach : ∀ {fs : Fs}, fs.lashDirExists d = true →
      fs.lashFileExists (storeNew d).infoFilename =
        (fs.get (resolve d ++ [storeInfoFile])).isSome := by
    intro fs hdir
    have hr : fs.reaches (storeNew d).infoFilename = true := by
      rw [Store.infoFilename, Fs.reaches_fqn fs _ (by decide)]
      exact hdir
    rw [Fs.lashFileExists, Fs.lookup, if_pos hr, Store.infoFilename,
      resolve_fqn _ (f := storeInfoFile) (by decide)]
    rfl
  unfold Lash.storeOpen
  rw [show (storeNew d).dir = d from rfl, hd, h.there hd, hread, hreach hd, hreach (h.there hd)]
  rcases h.entries storeInfoFile with heq | ⟨hnone, hdir⟩
  · rw [heq]
  · -- a directory was made where the info file would be: there is still nothing to read
    rw [hnone, hdir]
    have hnoread : fs.read (storeNew d).infoFilename = none := by
      have hpath : resolve (storeNew d).infoFilename = resolve d ++ [storeInfoFile] :=
        resolve_fqn d (by decide)
      rw [Fs.read, hpath, Fs.bytes, hnone]
      split <;> rfl
    rw [hnoread]
    rfl

end Fs.SameAt

theorem projectSetModifiedStatus_fs (s : Session) (b : Bool) :
    (projectSetModifiedStatus s b).g.fs = s.g.fs := by
  unfold projectSetModifiedStatus
  split <;> rfl

/-- The end of a save writes the info file. -/
theorem projectClientsSaveComplete_fs (s : Session) : (projectClientsSaveComplete s).g.fs =
    (s.g.fs.xmlSaveFile (lashGetFqn s.p.directory projectInfoFile) (projectCreateXml s.p)).2 := by
  unfold projectClientsSaveComplete
  rw [projectSetModifiedStatus_fs]
  unfold projectWriteInfo
  dsimp only
  split <;> rfl

/-- What the completion of a task does to the disk: the client's own store is written, and the info
file of the project. -/
theorem clientTaskCompleted_disk {D : Fs → Prop} {u v : Session} {c : Client} {ok : Bool}
    (hstore : ∀ fs st, c.store = some st → D fs → D (storeWrite st fs).2.2)
    (hinfo : ∀ fs doc, D fs → D (fs.xmlSaveFile (lashGetFqn u.p.directory projectInfoFile) doc).2)
    (hu : D u.g.fs) (h : clientTaskCompleted u c ok = some v) : D v.g.fs := by
  unfold clientTaskCompleted at h
  dsimp only at h
  split at h
  · rw [← Option.some.inj h]
    exact hu
  · obtain ⟨⟨w, d⟩, hf, rfl⟩ := Option.map_eq_some_iff.mp h
    have hw : D w.g.fs ∧ w.p.directory = u.p.directory := by
      refine ⟨?_, (clientFinishTask_head hf).directory⟩
      unfold clientFinishTask at hf
      have hsatisfy : ∀ {x : Session}, x.g.fs = u.g.fs →
          (projectSatisfyClientDependency x c).map (fun s => (s, c)) = some (w, d) → D w.g.fs := by
        intro x hx hmap
        obtain ⟨y, hy, he⟩ := Option.map_eq_some_iff.mp hmap
        obtain ⟨rfl, -⟩ := Prod.mk.inj he
        obtain ⟨⟨g, l⟩, hl, rfl⟩ := Option.map_eq_some_iff.mp hy
        have hfs := (satisfyLost_store (P := fun _ _ => True) (fun _ _ _ _ => trivial) hl).1
        show D g.fs
        rw [hfs, hx]
        exact hu
      split at hf
      · split at hf
        · split at hf
          · exact absurd hf (by simp)
          · next st hst =>
              obtain ⟨rfl, -⟩ := Prod.mk.inj (Option.some.inj hf)
              exact hstore _ st hst hu
        · obtain ⟨rfl, -⟩ := Prod.mk.inj (Option.some.inj hf)
          exact hu
        · exact hsatisfy (x := u.emit _) rfl hf
        · exact hsatisfy (x := u.emit _) rfl hf
        · obtain ⟨rfl, -⟩ := Prod.mk.inj (Option.some.inj hf)
          exact hu
      · obtain ⟨rfl, -⟩ := Prod.mk.inj (Option.some.inj hf)
        exact hu
    have hprogress : (projectClientProgress w d 100).1.g.fs = w.g.fs := by
      unfold projectClientProgress
      dsimp only
      split <;> rfl
    have hdir : (projectClientProgress w d 100).1.p.directory = u.p.directory :=
      (projectClientProgress_directory w d 100).trans hw.2
    show D (projectCountDown (projectClientProgress w d 100).1
      (projectClientProgress w d 100).2).g.fs
    generalize (projectClientProgress w d 100).1 = x at hprogress hdir
    generalize (projectClientProgress w d 100).2 = e
    have hx : D x.g.fs := by
      rw [hprogress]
      exact hw.1
    have hsave : ∀ y : Session, y.g.fs = x.g.fs → y.p.directory = x.p.directory →
        D (projectClientsSaveComplete y).g.fs := by
      intro y hfs hyd
      rw [projectClientsSaveComplete_fs, hfs, hyd, hdir]
      exact hinfo _ _ hx
    unfold projectCountDown
    split
    · exact hx
    · dsimp only
      split
      · unfold projectTaskFinished
        dsimp only
        have hloaded : ∀ y : Session, (projectLoaded y).g.fs = y.g.fs := fun y =>
          projectSetModifiedStatus_fs _ _
        cases e.taskType with
        | saveDataSet => exact hsave _ rfl rfl
        | saveFile => exact hsave _ rfl rfl
        | restoreFile => rw [hloaded]; exact hx
        | restoreDataSet => rw [hloaded]; exact hx
        | unknown => exact hx
      · exact hx

/-! ## Runs -/

namespace Server

variable {s s' t : Server} {a b : Addr} {i : Input}

/-- No key that an input sets has a slash, no directory gets the name of an info file, and nothing
from outside brings an info file that lists such a key. -/
structure KeepsPlain (s : Server) (i : Input) : Prop where
  keys : ∀ sender args elems, i = .commitDataSet sender args → .array elems ∈ args →
    ∀ x ∈ taken elems, slash ∉ x.key
  names : ∀ o, s.MayDo i o → ¬ o.Mimics
  outside : ∀ fs forks, i = .outside fs forks → fs.PlainInfo

/-- A data set is committed by a client whose store is elsewhere, in a project that is elsewhere. -/
def CommitsElsewhere (d : CStr) (s : Server) (i : Input) : Prop :=
  ∃ sender args, i = .commitDataSet sender args ∧
    ∀ a c, s.findClientByDbusName sender = some (a, c) →
      resolve (s.project a).directory ≠ resolve d ∧
        ∀ st, c.store = some st → resolve st.dir ≠ resolve d

/-- Stores are isolated from each other and from everything else. `ok` says which inputs there
are. -/
structure StoresIsolated (ok : Server → Input → Prop) (s : Server) : Prop where
  /-- The store of a client is confined to its directory. -/
  held : ∀ a, ∀ c ∈ (s.project a).clients ++ (s.project a).lostClients, ∀ st, c.store = some st →
    st.Confined
  /-- So is a store to which a data set has been committed. -/
  committed : ∀ i a u c done st, ok s i → s.reporting i = some (a, u, c, done) →
    c.store = some st → st.Confined
  /-- So is a store that is opened for a client. -/
  opened : ∀ a, ∀ c ∈ (s.project a).clients ++ (s.project a).lostClients, ∀ dir st,
    (clientStoreOpen s.g.fs c dir).2.1.store = some st → st.Confined
  /-- Whatever others commit, the files in the directory of a store stay, and so does the data set
  that is read when the store is opened again. -/
  others : ∀ d t, s.g.fs.lashDirExists d = true →
    Runs.Reach step (fun s i => ok s i ∧ s.CommitsElsewhere d i) s t →
      Fs.SameAt d s.g.fs t.g.fs ∧
      storeOpen (storeNew d) t.g.fs = storeOpen (storeNew d) s.g.fs ∧
      ∀ k ∈ (storeOpen (storeNew d) s.g.fs).2.keys,
        (storeNew d).onDisk t.g.fs k = (storeNew d).onDisk s.g.fs k

/-- The disk and all stores are plain. -/
def Plain (s : Server) : Prop := s.Has Fs.PlainInfo (fun _ _ st => st.Plain)

theorem Plain.reporting (h : s.Plain) (hi : s.KeepsPlain i) {u : Session} {c : Client} {ok : Bool}
    (hr : s.reporting i = some (a, u, c, ok)) : c.StoreIs (fun _ st => st.Plain) := by
  obtain ⟨-, d, hd, -, hcase⟩ := reporting_cases hr
  have hplain := h.live a d hd
  rcases hcase with ⟨-, rfl, -⟩ | ⟨sender, args, elems, more, st, rfl, -, hcheck, hst, -, rfl, -⟩
  · exact hplain
  · intro st' hst'
    rw [← Option.some.inj hst', (commitConfigs_eq st elems).1]
    refine (hplain st hst).setAll (fun x hx => ⟨?_, taken_small x hx⟩)
    refine hi.keys sender args elems rfl ?_ x hx
    unfold checkTasks at hcheck
    split at hcheck
    · split at hcheck
      · exact absurd hcheck (by simp)
      · split at hcheck
        · exact absurd hcheck (by simp)
        · injection hcheck with hargs
          rw [hargs]
          exact List.mem_cons_of_mem _ List.mem_cons_self
    · exact absurd hcheck (by simp)

theorem Plain.step (h : s.Plain) (hw : s.Wf) (hi : s.KeepsPlain i) (hs : s.step i = some s') :
    s'.Plain := by
  refine step_has ⟨fun ho hfs => hfs.run (hi.names _ ho), id,
    fun hfs hst => ⟨hst.write_plainInfo hfs, hst.write _⟩, fun _ hfs => storeOpen_plain hfs _⟩ hw h
    (fun a u c ok hr => h.reporting hi hr) (fun fs forks he => hi.outside fs forks he) hs

/-- **The commit of another client** leaves the directory of a store alone. -/
theorem Plain.commit_elsewhere (h : s.Plain) {d : CStr} (hi : s.KeepsPlain i)
    (hother : s.CommitsElsewhere d i) (hs : s.step i = some s') : Fs.SameAt d s.g.fs s'.g.fs := by
  obtain ⟨sender, args, rfl, helse⟩ := hother
  cases step_deed hs with
  | nothing => exact .refl d _
  | children childs => exact .refl d _
  | leave childs hl ha hc => exact absurd hl (by simp [leaving])
  | @complete _ a u c ok v hr ha hv =>
      have hplain := h.reporting hi hr
      obtain ⟨-, e, he, -, hcase⟩ := reporting_cases hr
      rcases hcase with ⟨-, -, _, _, hbad⟩ | ⟨_, _, elems, _, st, hin, hfind, -, hst, -, rfl, rfl⟩
      · exact absurd hbad (by simp)
      · obtain ⟨rfl, rfl⟩ : _ ∧ _ := by simpa using hin
        obtain ⟨hproject, hstore⟩ := helse a e hfind
        refine clientTaskCompleted_disk (D := fun fs => Fs.SameAt d s.g.fs fs) ?_ ?_ (.refl d _) hv
        · intro fs st' hst' hfs
          have hp := hplain st' hst'
          have hdir : resolve st'.dir ≠ resolve d := by
            rw [← Option.some.inj hst', (commitConfigs_eq st elems).1, Store.setAll_dir]
            exact hstore st hst
          refine hfs.trans ⟨?_, ?_⟩
          · intro hthere
            rw [Fs.lashDirExists_iff] at hthere ⊢
            exact fun q hq => hp.ok.isDir_write (hthere q hq)
          · intro name
            rcases (hp.free.confined hp.ok).writes fs (resolve d ++ [name])
              with hsame | ⟨n, hn⟩ | hmade
            · exact Or.inl hsame
            · exact absurd (List.append_inj' hn rfl).1.symm hdir
            · exact Or.inr hmade
        · intro fs doc hfs
          have hwrites :=
            fs.xmlSaveFile_writes (lashGetFqn (s.project a).directory projectInfoFile) doc
          refine hfs.trans ⟨fun hthere => (hwrites.lashDirExists d).trans hthere, fun name =>
            Or.inl ?_⟩
          apply hwrites.frame
          rw [resolve_fqn _ (f := projectInfoFile) (by decide)]
          exact fun he => hproject (List.append_inj' he rfl).1.symm
  | progress n ha hc =>
      refine ⟨?_, ?_⟩
      · unfold projectClientProgress
        dsimp only
        split <;> exact id
      · intro name
        left
        unfold projectClientProgress
        dsimp only
        split <;> rfl
  | save hsave ha => exact absurd hsave (by simp [saving])
  | close hclose ha => exact absurd hclose (by simp [closing])
  | restore ha hnot hr ht => exact absurd hr (by simp [restoring])
  | depend hadd ha hc hd => exact .refl d _
  | undepend id hr ha hc => exact .refl d _
  | @launch _ a c g e ha hc hd =>
      obtain ⟨hfs, -⟩ := projectLaunchClient_store hd
      show Fs.SameAt d s.g.fs g.fs
      rw [hfs]
      exact .refl d _

theorem Plain.isolated (h : s.Plain) (hw : s.Wf) : s.StoresIsolated KeepsPlain := by
  have hclient : ∀ a, ∀ c ∈ (s.project a).clients ++ (s.project a).lostClients,
      c.StoreIs (fun _ st => st.Plain) := by
    intro a c hc
    rcases List.mem_append.mp hc with hc | hc
    · exact h.live a c hc
    · exact h.lost a c hc
  constructor
  case held =>
    intro a c hc st hst
    have hp := hclient a c hc st hst
    exact hp.free.confined hp.ok
  case committed =>
    intro i a u c done st hi hr hst
    have hp := h.reporting hi hr st hst
    exact hp.free.confined hp.ok
  case opened =>
    intro a c hc dir st hst
    have hfs : (clientStoreOpen s.g.fs c dir).2.2.PlainInfo := by
      unfold clientStoreOpen
      cases hold : c.store with
      | none => exact h.disk.makesDirs (Fs.lashCreateDir_makesDirs _ _)
      | some old => exact (hclient a c hc old hold).write_plainInfo h.disk
    have hp := storeOpen_plain hfs dir
    rw [← Option.some.inj hst]
    exact hp.free.confined hp.ok
  case others =>
    intro d t hd hrun
    have hsame : t.Wf ∧ t.Plain ∧ Fs.SameAt d s.g.fs t.g.fs := by
      refine hrun.invariant (I := fun t => t.Wf ∧ t.Plain ∧ Fs.SameAt d s.g.fs t.g.fs)
        ⟨hw, h, .refl d _⟩ ?_
      rintro t i u _ ⟨hw, hp, hsame⟩ ⟨hi, hother⟩ htu
      exact ⟨(hw.step_answers htu).wf hw, hp.step hw hi htu,
        hsame.trans (hp.commit_elsewhere hi hother htu)⟩
    refine ⟨hsame.2.2, hsame.2.2.storeOpen hd, ?_⟩
    intro k hk
    have hslash := (storeOpen_plain h.disk d).free.keys k hk
    rw [Store.onDisk, Store.onDisk]
    show (t.g.fs.read (lashGetFqn d k)).bind _ = _
    rw [hsame.2.2.read hd hslash]
    rfl

/-- **Stores are isolated** in every run in which no key that is committed has a slash. -/
theorem stores_isolated {fs : Fs} {dir : CStr} (hfs : fs.PlainInfo)
    (h : Reachable KeepsPlain fs dir s) : s.StoresIsolated KeepsPlain := by
  have hstart := start_starting fs dir
  have hdisk : (start fs dir).g.fs = fs := start_fs fs dir
  have hinv : s.Wf ∧ s.Plain := by
    refine h.invariant (I := fun s => s.Wf ∧ s.Plain) ⟨hstart.wf, hstart.has ?_ _⟩ ?_
    · rw [hdisk]
      exact hfs
    · rintro t i u _ ⟨hw, hp⟩ hi htu
      exact ⟨(hw.step_answers htu).wf hw, hp.step hw hi htu⟩
  exact hinv.2.isolated hinv.1

/-- The plain case: nothing is moved, and the keys that are committed have no slashes. -/
def CommitsPlain (s : Server) (i : Input) : Prop :=
  (s.closing i).isNone ∧
    match i with
    | .commitDataSet _ args => ∀ arg ∈ args,
        match arg with
        | .array elems => ∀ x ∈ taken elems, slash ∉ x.key
        | _ => True
    | .projectMove _ _ | .outside _ _ => False
    | _ => True

instance (arg : Arg) : Decidable (match arg with
    | .array elems => ∀ x ∈ taken elems, slash ∉ x.key
    | _ => True) := by
  rcases arg <;> infer_instance

instance (s : Server) (i : Input) : Decidable (s.CommitsPlain i) := by
  unfold CommitsPlain
  rcases i <;> infer_instance

theorem CommitsPlain.keepsPlain (h : s.CommitsPlain i) : s.KeepsPlain i := by
  obtain ⟨hclose, hi⟩ := h
  rw [Option.isNone_iff_eq_none] at hclose
  constructor
  · rintro sender args elems rfl hargs
    exact hi _ hargs
  · intro o ho
    cases ho with
    | makeDir | newProject | joinStore | resumeStore | resumeInfo | reportInfo | notes | clear
    | saveInfo | moveStore => exact id
    | lose hl hop =>
        unfold loseOps at hop
        rcases List.mem_append.mp hop with hop | hop
        · split at hop
          · exact absurd hop List.not_mem_nil
          · split at hop
            · rw [List.mem_singleton.mp hop]
              exact id
            · exact absurd hop List.not_mem_nil
        · split at hop
          · rcases List.mem_pair.mp hop with rfl | rfl <;> exact id
          · exact absurd hop List.not_mem_nil
    | move hmove =>
        subst hmove
        exact hi.elim
    | close hc =>
        rw [hclose] at hc
        exact absurd hc (by simp)
  · rintro fs forks rfl
    exact hi.elim

/-- An entry of a data set with a key and a number. -/
def numberElem (key : CStr) (h : IsDbusString key) (n : BitVec 32) : ArrayElem :=
  .dictEntry (some ⟨key, h⟩) (some (.uint32 n))

/-- A key that leads out of the directory of the store is taken, and a file beside the directory is
written and read. -/
theorem key_leads_out :
    ∃ s, Reachable FreshId emptyDisk (cstr "/p") s ∧ ¬ s.StoresIsolated FreshId := by
  have hrun : (runFrom FreshId
      [.connect (cstr ":1") 5 (cstr "synth") flagConfigDataSet [] [cstr "synth"] 1,
        .projectSave (cstr "New Project"),
        .commitDataSet (cstr ":1")
          [.uint64 1, .array [numberElem (cstr "../x") (by decide +kernel) 7]]]).any
      (fun s => (s.project 1).clients.any (fun c => c.store.any (fun st =>
        cstr "../x" ∈ st.keys ∧ (s.g.fs.read (st.configFilename (cstr "../x"))).isSome ∧
          (st.path (cstr "../x")).length ≠ (resolve st.dir).length + 1))) = true := by
    decide +kernel
  obtain ⟨s, hs, hbad⟩ := exists_of_runFrom hrun
  refine ⟨s, hs, ?_⟩
  intro hisolated
  obtain ⟨c, hc, hstore⟩ := List.any_eq_true.mp hbad
  obtain ⟨st, hst, hkey⟩ := (Option.any_eq_true _ _).mp hstore
  obtain ⟨hmem, hread, hlength⟩ := of_decide_eq_true hkey
  obtain ⟨name, hpath⟩ :=
    (hisolated.held 1 c (List.mem_append_left _ hc) st hst).reads s.g.fs _ hmem hread
  apply hlength
  rw [hpath, List.length_append]
  rfl

/-- A client commits a data set under a plain key. -/
theorem stores_isolated_one :
    ∃ s, Reachable KeepsPlain emptyDisk (cstr "/p") s ∧ s.StoresIsolated KeepsPlain ∧
      ∃ c ∈ (s.project 1).clients, c.store.any (fun st => st.keys = [cstr "x"]) := by
  have hrun : (runFrom CommitsPlain
      [.connect (cstr ":1") 5 (cstr "synth") flagConfigDataSet [] [cstr "synth"] 1,
        .projectSave (cstr "New Project"),
        .commitDataSet (cstr ":1")
          [.uint64 1, .array [numberElem (cstr "x") (by decide +kernel) 7]]]).any
      (fun s => (s.project 1).clients.any (fun c => c.store.any (fun st => st.keys = [cstr "x"])))
        = true := by
    decide +kernel
  obtain ⟨s, hs, hgood⟩ := exists_of_runFrom hrun
  have hs' : Reachable KeepsPlain emptyDisk (cstr "/p") s := hs.mono (fun _ _ h => h.keepsPlain)
  refine ⟨s, hs', stores_isolated ?_ hs', ?_⟩
  · intro q data hdata
    obtain ⟨-, hlookup⟩ := Fs.bytes_eq_some hdata
    unfold emptyDisk at hlookup
    rw [List.lookup_cons, List.lookup_nil] at hlookup
    split at hlookup
    · simp at hlookup
    · simp at hlookup
  · obtain ⟨c, hc, hkey⟩ := List.any_eq_true.mp hgood
    exact ⟨c, hc, hkey⟩

end Server

end Lash
