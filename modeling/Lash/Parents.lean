import Lash.Frames

/-!
# Disks are trees

`Fs` is a map, which by itself could have something in a directory that is not there. No disk has
(`Fs.Closed`), and nothing the daemon does makes one that has. So where nothing is, nothing is
below either, and what is moved there is found there as it was.
-/

namespace Lash

namespace Fs

variable {fs fs' fs'' : Fs} {p q : Path} {f d : CStr}

/-! ## What is there -/

/-- Something is at a path. -/
def there (fs : Fs) (p : Path) : Bool := (fs.get p).isSome

/-- Whatever is there is in a directory that is there. -/
def Closed (fs : Fs) : Prop := ∀ e ∈ fs.entries, fs.there e.1.dropLast = true

instance (fs : Fs) : Decidable fs.Closed := inferInstanceAs (Decidable (∀ e ∈ fs.entries, _))

/-- From `fs` to `fs'` nothing goes. -/
def Grows (fs fs' : Fs) : Prop := ∀ p, fs.there p = true → fs'.there p = true

theorem lookup_isSome_iff {β : Type} {l : List (Path × β)} :
    (l.lookup p).isSome = true ↔ p ∈ l.map Prod.fst := by
  induction l with
  | nil => simp
  | cons e l ih =>
      obtain ⟨a, n⟩ := e
      rw [List.lookup_cons, List.map_cons, List.mem_cons]
      by_cases ha : p = a
      · subst ha
        simp
      · have hne : (p == a) = false := by simpa using ha
        rw [hne, ih]
        simp [ha]

theorem there_iff : fs.there p = true ↔ p = [] ∨ p ∈ fs.entries.map Prod.fst := by
  unfold there get
  by_cases hp : p = []
  · simp [hp]
  · rw [if_neg hp, lookup_isSome_iff]
    simp [hp]

theorem there_root (fs : Fs) : fs.there [] = true := there_iff.mpr (Or.inl rfl)

theorem there_of_isDir (h : fs.isDir p = true) : fs.there p = true := by
  unfold isDir at h
  unfold there
  split at h
  · next hget => rw [hget]; rfl
  · simp at h

theorem closed_iff : fs.Closed ↔ ∀ p, fs.there p = true → fs.there p.dropLast = true := by
  constructor
  · intro h p hp
    rcases there_iff.mp hp with rfl | hmem
    · exact hp
    · obtain ⟨e, he, rfl⟩ := List.mem_map.mp hmem
      exact h e he
  · intro h e he
    exact h _ (there_iff.mpr (Or.inr (List.mem_map.mpr ⟨e, he, rfl⟩)))

theorem Closed.parent (h : fs.Closed) (hp : fs.there p = true) : fs.there p.dropLast = true :=
  closed_iff.mp h p hp

/-! ## Growing -/

theorem Grows.refl (fs : Fs) : fs.Grows fs := fun _ h => h

theorem Grows.trans (h : fs.Grows fs') (h' : fs'.Grows fs'') : fs.Grows fs'' :=
  fun p hp => h' p (h p hp)

theorem there_put {n : Node} : (fs.put p n).there q = true ↔ q = p ∨ fs.there q = true := by
  rw [there_iff, there_iff]
  unfold put
  by_cases hq : q = p
  · simp [hq]
  · simp [hq]

/-- Something is put where there is a directory for it. -/
theorem Closed.put (h : fs.Closed) (hp : fs.there p.dropLast = true) (n : Node) :
    (fs.put p n).Closed := by
  rw [closed_iff]
  intro q hq
  rw [there_put] at hq ⊢
  right
  rcases hq with rfl | hq
  · exact hp
  · exact h.parent hq

theorem Closed.put_next (h : fs.Closed) (hp : fs.there p.dropLast = true) (n : Node) :
    (fs.next.put p n).Closed :=
  @Closed.put fs.next p h hp n

theorem grows_put (fs : Fs) (p : Path) (n : Node) : fs.Grows (fs.put p n) :=
  fun _ hq => there_put.mpr (Or.inr hq)

/-- The disk stays a tree, and nothing goes. -/
structure Extends (fs fs' : Fs) : Prop where
  grows : fs.Grows fs'
  closed : fs.Closed → fs'.Closed

namespace Extends

theorem refl (fs : Fs) : fs.Extends fs := ⟨.refl fs, id⟩

theorem trans (h : fs.Extends fs') (h' : fs'.Extends fs'') : fs.Extends fs'' :=
  ⟨h.grows.trans h'.grows, fun hc => h'.closed (h.closed hc)⟩

theorem next (fs : Fs) : fs.Extends fs.next := ⟨fun _ h => h, id⟩

/-- Something is put where something is. -/
theorem put (hp : fs.there p = true) (n : Node) : fs.Extends (fs.put p n) :=
  ⟨grows_put fs p n, fun hc => hc.put (hc.parent hp) n⟩

end Extends

/-- Where the kernel finds the way to a name, there is a directory for it. -/
theorem Closed.reachesFrom (h : fs.Closed) {cs : List CStr} (hr : fs.reachesFrom [] cs = true) :
    fs.there (cs.foldl walk []).dropLast = true := by
  rcases List.eq_nil_or_concat cs with rfl | ⟨cs, c, rfl⟩
  · exact there_root fs
  · rw [List.concat_eq_append] at hr ⊢
    rw [List.foldl_append, List.foldl_cons, List.foldl_nil]
    have hdir : fs.there (cs.foldl walk []) = true := by
      by_cases hcs : cs = []
      · rw [hcs]
        exact there_root fs
      · rw [reachesFrom_append_one fs [] c hcs, Bool.and_eq_true] at hr
        exact there_of_isDir hr.2
    unfold walk
    split
    · exact h.parent hdir
    · split
      · exact h.parent (h.parent hdir)
      · rw [List.dropLast_concat]
        exact hdir

theorem mkdir_extends (fs : Fs) (cs : List CStr) : fs.Extends (fs.mkdir cs) := by
  unfold mkdir
  dsimp only
  split
  · next hcan =>
      exact ⟨grows_put fs.next _ _, fun hc => hc.put_next (hc.reachesFrom hcan.1) _⟩
  · exact .next fs

theorem createDirRev_extends (fs : Fs) (cs : List CStr) : fs.Extends (fs.createDirRev cs) := by
  induction cs with
  | nil => exact .refl fs
  | cons c parent ih =>
      rw [createDirRev]
      split
      · exact .refl fs
      · exact ih.trans (mkdir_extends _ _)

theorem lashCreateDir_extends (fs : Fs) (d : CStr) : fs.Extends (fs.lashCreateDir d) :=
  createDirRev_extends fs _

theorem creat_extends (fs : Fs) (f : CStr) :
    fs.Extends (fs.creat f).2 ∧
      ((fs.creat f).1 = true → (fs.creat f).2.there (resolve f) = true) := by
  unfold creat
  dsimp only
  split
  · next hcan =>
      refine ⟨⟨grows_put fs.next _ _, fun hc => ?_⟩, fun _ => there_put.mpr (Or.inl rfl)⟩
      exact hc.put_next (hc.reachesFrom hcan.1) _
  · exact ⟨.next fs, fun hok => by simp at hok⟩

/-- An open file is there. -/
theorem write_extends (h : fs.there (resolve f) = true) (data : List UInt8) :
    fs.Extends (fs.write f data).2 := by
  unfold write
  dsimp only
  split
  · exact (Extends.next fs).trans (@Extends.put fs.next _ h _)
  · exact (Extends.next fs).trans (@Extends.put fs.next _ h _)

theorem close_extends (h : fs.there (resolve f) = true) : fs.Extends (fs.close f).2 := by
  unfold close
  split
  · exact .next fs
  · exact (Extends.next fs).trans (@Extends.put fs.next _ h _)

theorem writeAll_extends (h : fs.there (resolve f) = true) (chunks : List (List UInt8)) :
    fs.Extends (fs.writeAll f chunks).2 := by
  induction chunks generalizing fs with
  | nil => exact .refl fs
  | cons data rest ih =>
      have hwrite := write_extends h data
      rw [writeAll]
      generalize fs.write f data = r at hwrite
      obtain ⟨ok, fs'⟩ := r
      cases ok with
      | false => exact hwrite
      | true => exact hwrite.trans (ih (hwrite.grows _ h))

theorem writeFile_extends (fs : Fs) (f : CStr) (chunks : List (List UInt8)) :
    fs.Extends (fs.writeFile f chunks).2 := by
  obtain ⟨hcreat, hopen⟩ := creat_extends fs f
  rw [writeFile]
  rcases hc : fs.creat f with ⟨_ | _, fs₁⟩
  · rw [hc] at hcreat
    exact hcreat
  · rw [hc] at hcreat hopen
    have hthere : fs₁.there (resolve f) = true := hopen rfl
    have hall := writeAll_extends hthere chunks
    dsimp only at hcreat ⊢
    rcases ha : fs₁.writeAll f chunks with ⟨_ | _, fs₂⟩ <;> rw [ha] at hall
    · exact (hcreat.trans hall).trans (close_extends (hall.grows _ hthere))
    · exact (hcreat.trans hall).trans (close_extends (hall.grows _ hthere))

theorem xmlSaveFile_extends (fs : Fs) (f : CStr) (doc : XmlDoc) :
    fs.Extends (fs.xmlSaveFile f doc).2 := by
  unfold xmlSaveFile
  dsimp only
  split
  · next hcan =>
      have hput : ∀ n : Node, fs.Extends (fs.next.put (resolve f) n) := fun n =>
        ⟨grows_put fs.next _ _, fun hc =>
          hc.put_next (hc.reachesFrom hcan.1) _⟩
      split
      · exact hput _
      · exact hput _
  · exact .next fs

/-! ## Removing and moving -/

/-- What is in a directory that is gone is gone. -/
theorem cameTo_below {n : Nat} {r : Path} (h : fs.cameTo p n q = true) (hr : q <+: r) :
    fs.cameTo p n r = true := by
  unfold cameTo at h ⊢
  simp only [Bool.and_eq_true, bne_iff_ne, List.isPrefixOf_iff_prefix, List.all_eq_true,
    Bool.or_eq_true, Bool.not_eq_true', Bool.eq_false_iff, ne_eq] at h ⊢
  obtain ⟨⟨hp, hne⟩, hall⟩ := h
  refine ⟨⟨hp.trans hr, ?_⟩, fun x hx => (hall x hx).imp_left fun hnot hrx => hnot (hr.trans hrx)⟩
  rintro rfl
  exact hne (hp.eq_of_length_le hr.length_le)

theorem Closed.filter (h : fs.Closed) {gone : Path → Bool} {faults : List Fault}
    (hgone : ∀ q r, gone q = true → q <+: r → gone r = true) :
    ({ entries := fs.entries.filter (fun e => !gone e.1), faults := faults } : Fs).Closed := by
  intro e he
  obtain ⟨he, hout⟩ := List.mem_filter.mp he
  rw [there_iff]
  rcases there_iff.mp (h e he) with hroot | hin
  · exact Or.inl hroot
  · right
    obtain ⟨e', he', heq⟩ := List.mem_map.mp hin
    refine List.mem_map.mpr ⟨e', List.mem_filter.mpr ⟨he', ?_⟩, heq⟩
    -- what is kept has its parent kept: only whole trees go
    rw [Bool.not_eq_true', Bool.eq_false_iff] at hout ⊢
    exact fun hp => hout (hgone _ _ hp (heq ▸ List.dropLast_prefix _))

theorem Closed.lashRemoveDir (h : fs.Closed) (d : CStr) : (fs.lashRemoveDir d).Closed := by
  unfold Fs.lashRemoveDir
  split
  · split
    · apply h.filter
      intro q r hq hr
      rw [List.isPrefixOf_iff_prefix] at hq ⊢
      exact hq.trans hr
    · apply h.filter
      exact fun q r => cameTo_below
  · exact h

/-- What is not moved stays. -/
theorem there_rename {old new : CStr} (h : fs.there p = true) (hp : ¬ resolve old <+: p) :
    (fs.rename old new).2.there p = true := by
  by_cases hok : (fs.rename old new).1 = true
  · by_cases hnew : resolve new <+: p
    · obtain ⟨x, rfl⟩ := hnew
      obtain ⟨hthere, -, -, -, -, -, -, hfree⟩ := (rename_true hok).1
      rcases hfree with hsame | ⟨-, hbelow, -⟩
      · exact absurd (hsame ▸ List.prefix_append _ _) hp
      · have hself : resolve new ++ x = resolve new := by
          by_contra hne
          rcases there_iff.mp h with hroot | hmem
          · rw [hroot, (List.append_eq_nil_iff.mp hroot).1] at hne
            exact hne rfl
          · obtain ⟨⟨a, n⟩, hmem, rfl⟩ := List.mem_map.mp hmem
            exact not_mem_of_below_nil hne (List.prefix_append _ _) hbelow hmem
        have hget := get_rename_new hok []
        rw [List.append_nil, List.append_nil] at hget
        rw [hself, there, hget]
        unfold lashFileExists lookup at hthere
        split at hthere
        · exact hthere
        · cases hthere
    · rw [there, get_rename hp hnew]
      exact h
  · rw [rename_false (Bool.eq_false_iff.mpr hok)]
    exact h

theorem Closed.rename (h : fs.Closed) (old new : CStr) : (fs.rename old new).2.Closed := by
  by_cases hok : (fs.rename old new).1 = true
  · obtain ⟨⟨-, hreach, hroot, -, -, -, -, hfree⟩, -⟩ := rename_true hok
    have habove : fs.there (resolve new).dropLast = true := by
      rw [resolve_stem]
      exact h.reachesFrom hreach
    have hout : ¬ resolve old <+: (resolve new).dropLast := by
      intro hp
      rcases hfree with hsame | ⟨hnot, -⟩
      · have hlen := hp.length_le
        have hpos := List.length_pos_iff.mpr hroot
        rw [List.length_dropLast, ← hsame] at hlen
        omega
      · exact hnot (List.isPrefixOf_iff_prefix.mpr (hp.trans (List.dropLast_prefix _)))
    rw [closed_iff]
    intro p hp
    by_cases hnew : resolve new <+: p
    · obtain ⟨x, rfl⟩ := hnew
      rcases List.eq_nil_or_concat x with rfl | ⟨y, c, rfl⟩
      · -- the directory of the target was there, and is not moved
        rw [List.append_nil]
        exact there_rename habove hout
      · -- what was above it is moved too
        rw [List.concat_eq_append] at hp ⊢
        rw [there, get_rename_new hok] at hp
        have hparent := h.parent hp
        rw [← List.append_assoc, List.dropLast_concat] at hparent ⊢
        rw [there, get_rename_new hok]
        exact hparent
    · by_cases hold : resolve old <+: p
      · rw [there, get_rename_old hok hold hnew] at hp
        cases hp
      · rw [there, get_rename hold hnew] at hp
        exact there_rename (h.parent hp) fun hq => hold (hq.trans (List.dropLast_prefix _))
  · rw [rename_false (Bool.eq_false_iff.mpr hok)]
    exact h

end Fs

/-! ## Stores -/

/-- Writing a store takes nothing away. -/
theorem Store.Ok.write_extends {st : Store} (h : st.Ok) (fs : Fs) :
    fs.Extends (storeWrite st fs).2.2 := by
  have hconfig : ∀ (fs : Fs) (c : StoreConfig), fs.Extends (storeWriteConfig st fs c).2 := by
    intro fs c
    by_cases hv : c.value = []
    · rw [storeWriteConfig, if_pos (by rw [hv]; rfl)]
      exact .refl fs
    · rw [storeWriteConfig_eq st fs hv]
      exact fs.writeFile_extends _ _
  have hconfigs : ∀ (l : List StoreConfig) (fs : Fs),
      fs.Extends (storeWriteConfigs st fs l).2.2 := by
    intro l
    induction l with
    | nil => exact fun fs => .refl fs
    | cons c l ih =>
        intro fs
        rw [storeWriteConfigs_cons]
        dsimp only
        split
        · exact (hconfig fs c).trans (ih _)
        · exact (hconfig fs c).trans (ih _)
  have hprepare : fs.Extends (st.prepare fs) := by
    rw [Store.prepare]
    split
    · exact .refl fs
    · exact fs.lashCreateDir_extends _
  by_cases hne : st.unstoredConfigs = []
  · rw [storeWrite, if_pos hne]
    exact .refl fs
  · obtain ⟨ok, left, fs₁, hw, hcase⟩ := storeWrite_cases h.kept hne fs
    have hall := hprepare.trans (hconfigs st.unstoredConfigs _)
    rw [hw] at hall
    rcases hcase with ⟨-, heq⟩ | ⟨-, ok', fs₂, hi, heq⟩
    · rw [heq]
      exact hall
    · have hinfo := fs₁.writeFile_extends st.infoFilename
        ((decimal st.numKeys ++ [newline]) :: st.keys.map (· ++ [newline]))
      rw [← storeWriteInfoFile_eq, hi] at hinfo
      rw [heq]
      exact hall.trans hinfo

/-- **Every operation keeps a disk a tree.** -/
theorem DiskOp.run_closed (o : DiskOp) {fs : Fs} (h : fs.Closed) : (o.run fs).Closed := by
  cases o with
  | makeDir d => exact (fs.lashCreateDir_extends d).closed h
  | removeDir d => exact h.lashRemoveDir d
  | removeEmpty d =>
      rw [run]
      split
      · exact h.lashRemoveDir d
      · exact h
  | rename old new => exact h.rename old new
  | writeInfo d doc => exact (fs.xmlSaveFile_extends _ doc).closed h
  | writeNotes d notes =>
      rw [run, saveNotes_eq]
      exact (fs.writeFile_extends _ _).closed h
  | openStore d => exact h

end Lash
