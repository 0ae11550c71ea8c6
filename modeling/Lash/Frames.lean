import Lash.Heads

/-!
# Where the disk stays as it is

A name of a directory is looked up step by step (`Fs.way`), and the directory is there if every
step is (`lashDirExists_iff`). Each operation says what it may take away (`DiskOp.Clears`) and
where it may put a file (`DiskOp.Puts`); away from there it does nothing but make directories.
-/

namespace Lash

namespace Fs

variable {fs : Fs} {p q r : Path} {f d : CStr}

/-! ## Ways -/

/-- The paths that are passed when a name is looked up, from the root to what it names. -/
def way (d : CStr) : List Path := (splitSlash d).scanl walk []

theorem mem_scanl_self (p : Path) (cs : List CStr) : p ∈ cs.scanl walk p := by
  cases cs <;> simp

theorem all_scanl_iff (fs : Fs) (p : Path) (cs : List CStr) :
    (∀ q ∈ cs.scanl walk p, fs.isDir q = true) ↔
      fs.reachesFrom p cs = true ∧ fs.isDir (cs.foldl walk p) = true := by
  induction cs generalizing p with
  | nil => simp [reachesFrom]
  | cons c cs ih =>
      rw [List.scanl_cons, List.foldl_cons, List.forall_mem_cons, ih]
      cases cs with
      | nil => simp [reachesFrom]
      | cons c' cs =>
          simp only [reachesFrom, Bool.and_eq_true]
          tauto

/-- **A directory is there** if and only if every step on the way to it is. -/
theorem lashDirExists_iff : fs.lashDirExists d = true ↔ ∀ q ∈ way d, fs.isDir q = true := by
  rw [way, all_scanl_iff, lashDirExists, reaches, Bool.and_eq_true]
  rfl

theorem foldl_mem_scanl (p : Path) (cs : List CStr) : cs.foldl walk p ∈ cs.scanl walk p := by
  induction cs generalizing p with
  | nil => simp
  | cons c cs ih =>
      rw [List.scanl_cons, List.foldl_cons]
      exact List.mem_cons_of_mem _ (ih _)

theorem resolve_mem_way (d : CStr) : resolve d ∈ way d := foldl_mem_scanl [] _

/-- Whoever passes a path has passed everything above it. -/
theorem prefix_mem_scanl {cs : List CStr} (hq : q ∈ cs.scanl walk p) (hr : r <+: q) :
    r <+: p ∨ r ∈ cs.scanl walk p := by
  induction cs generalizing p with
  | nil =>
      rw [List.scanl_nil, List.mem_singleton] at hq
      exact Or.inl (hq ▸ hr)
  | cons c cs ih =>
      rw [List.scanl_cons] at hq ⊢
      rcases List.mem_cons.mp hq with rfl | hq
      · exact Or.inl hr
      · rcases ih hq with hwalk | hmem
        · unfold walk at hwalk
          split at hwalk
          · exact Or.inl hwalk
          · split at hwalk
            · exact Or.inl (hwalk.trans (List.dropLast_prefix p))
            · next h₁ h₂ =>
                rcases List.prefix_concat_iff.mp hwalk with heq | hp
                · right
                  have hw : walk p c = r := by rw [walk, if_neg h₁, if_neg h₂, heq]
                  exact List.mem_cons_of_mem _ (hw ▸ mem_scanl_self _ cs)
                · exact Or.inl hp
        · exact Or.inr (List.mem_cons_of_mem _ hmem)

theorem prefix_mem_way (hq : q ∈ way d) (hr : r <+: q) : r ∈ way d := by
  rcases prefix_mem_scanl hq hr with h | h
  · rw [List.prefix_nil.mp h]
    exact mem_scanl_self _ _
  · exact h

/-! ## Taking away and moving -/

theorem lookup_filter {β : Type} (P : Path → Bool) (q : Path) (l : List (Path × β)) :
    (l.filter (fun e => P e.1)).lookup q = if P q then l.lookup q else none := by
  induction l with
  | nil => simp
  | cons e l ih =>
      obtain ⟨a, n⟩ := e
      rw [List.filter_cons]
      dsimp only
      by_cases ha : P a = true
      · rw [if_pos ha, List.lookup_cons, List.lookup_cons, ih]
        by_cases hqa : q = a
        · rw [hqa, if_pos ha, if_pos ha]
        · rw [beq_eq_false_iff_ne.mpr hqa]
      · rw [if_neg ha, ih, List.lookup_cons]
        by_cases hqa : q = a
        · rw [hqa, if_neg ha, if_neg ha]
        · rw [beq_eq_false_iff_ne.mpr hqa]

/-- Where a directory was removed, or was to be removed, things are as they were or gone. -/
theorem get_lashRemoveDir_cases (fs : Fs) (d : CStr) (q : Path) :
    (fs.lashRemoveDir d).get q = fs.get q ∨
      resolve d <+: q ∧ (fs.lashRemoveDir d).get q = none := by
  unfold lashRemoveDir
  split
  · split
    · unfold get delTree
      dsimp only
      rw [lookup_filter fun a => !(resolve d).isPrefixOf a]
      split
      · exact Or.inl rfl
      · split
        · exact Or.inl rfl
        · next hp =>
            rw [Bool.not_eq_true', Bool.not_eq_false, List.isPrefixOf_iff_prefix] at hp
            exact Or.inr ⟨hp, rfl⟩
    · next n _ =>
        unfold get
        dsimp only
        rw [lookup_filter fun a => !fs.cameTo (resolve d) n a]
        split
        · exact Or.inl rfl
        · split
          · exact Or.inl rfl
          · next hgone =>
              rw [Bool.not_eq_true', Bool.not_eq_false] at hgone
              unfold cameTo at hgone
              rw [Bool.and_eq_true, Bool.and_eq_true, List.isPrefixOf_iff_prefix] at hgone
              exact Or.inr ⟨hgone.1.1, rfl⟩
  · exact Or.inl rfl

theorem get_lashRemoveDir (h : ¬ resolve d <+: q) : (fs.lashRemoveDir d).get q = fs.get q :=
  (get_lashRemoveDir_cases fs d q).resolve_right fun hgone => h hgone.1

theorem movedTo_append (old new x : Path) : movedTo old new (old ++ x) = new ++ x := by
  simp [movedTo]

theorem movedTo_of_not_below {old new : Path} (h : ¬ old <+: p) : movedTo old new p = p := by
  rw [movedTo, if_neg (fun hp => h (List.isPrefixOf_iff_prefix.mp hp))]

/-- What was moved to `new` was at the place of `old`, if nothing was below `new` before. -/
theorem movedTo_eq_append {old new x a : Path} (h : movedTo old new a = new ++ x)
    (ha : ¬ new <+: a) : a = old ++ x := by
  unfold movedTo at h
  split at h
  · next hp =>
      obtain ⟨y, rfl⟩ := List.isPrefixOf_iff_prefix.mp hp
      rw [List.drop_left] at h
      rw [List.append_cancel_left h]
  · exact absurd (h ▸ List.prefix_append _ _) ha

theorem not_mem_of_below_nil {p : Path} {n : Node} (hne : q ≠ p) (hq : p <+: q)
    (hbelow : (fs.below p).isEmpty = true) : (q, n) ∉ fs.entries := by
  intro hmem
  have hin : (q, n) ∈ fs.below p := by
    refine List.mem_filter.mpr ⟨hmem, ?_⟩
    have hlen : q.length ≠ p.length := fun he => hne (hq.eq_of_length he.symm).symm
    simpa [List.isPrefixOf_iff_prefix] using ⟨hq, hlen⟩
  rw [List.isEmpty_iff.mp hbelow] at hin
  cases hin

/-- Nothing is where nothing is below. -/
theorem isDir_below {p : Path} (hne : q ≠ p) (hq : p <+: q) (hbelow : (fs.below p).isEmpty = true) :
    fs.isDir q = false := by
  have hroot : q ≠ [] := by
    rintro rfl
    exact hne (List.prefix_nil.mp hq).symm
  have hnone : fs.get q = none := by
    rw [get, if_neg hroot, List.lookup_eq_none_iff]
    rintro ⟨a, n⟩ ha
    rw [bne_iff_ne]
    rintro rfl
    exact not_mem_of_below_nil hne hq hbelow ha
  rw [isDir, hnone]

/-- Entries are found under the name that they were moved from. -/
theorem lookup_movedTo {β : Type} {old new x y : Path} {l : List (Path × β)}
    (h : ∀ a n, (a, n) ∈ l → (movedTo old new a = y ↔ a = x)) :
    (l.map (fun e => (movedTo old new e.1, e.2))).lookup y = l.lookup x := by
  induction l with
  | nil => rfl
  | cons e l ih =>
      obtain ⟨a, n⟩ := e
      have ha := h a n List.mem_cons_self
      rw [List.map_cons, List.lookup_cons, List.lookup_cons,
        ih fun b m hb => h b m (List.mem_cons_of_mem _ hb)]
      have hbeq : (y == movedTo old new a) = (x == a) := by
        rw [Bool.eq_iff_iff, beq_iff_eq, beq_iff_eq, eq_comm, ha, eq_comm]
      rw [hbeq]

/-- What is neither under the old name nor under the new one stays. -/
theorem get_rename {old new : CStr} (hold : ¬ resolve old <+: q) (hnew : ¬ resolve new <+: q) :
    (fs.rename old new).2.get q = fs.get q := by
  by_cases hok : (fs.rename old new).1 = true
  · rw [(rename_true hok).2]
    have hne : q ≠ resolve new := fun he => hnew (he ▸ List.prefix_rfl)
    have hentries : (if resolve old = resolve new then fs
        else fs.del (resolve new)).entries.lookup q = fs.entries.lookup q := by
      split
      · rfl
      · exact lookup_filter_ne hne fs.entries
    unfold get
    dsimp only
    rw [← hentries]
    congr 1
    apply lookup_movedTo
    intro a n _
    constructor
    · intro he
      by_cases ha : resolve old <+: a
      · obtain ⟨y, rfl⟩ := ha
        rw [movedTo_append] at he
        exact absurd (he ▸ List.prefix_append _ _) hnew
      · rwa [movedTo_of_not_below ha] at he
    · rintro rfl
      exact movedTo_of_not_below hold
  · rw [rename_false (Bool.eq_false_iff.mpr hok), get_next]

/-- **What was moved is found under the new name**, as it was under the old one. -/
theorem get_rename_new {old new : CStr} (hok : (fs.rename old new).1 = true) (x : Path) :
    (fs.rename old new).2.get (resolve new ++ x) = fs.get (resolve old ++ x) := by
  obtain ⟨⟨-, -, hold, hnew, -, -, -, hfree⟩, hfs⟩ := rename_true hok
  rw [hfs]
  unfold get
  dsimp only
  rw [if_neg fun he => hnew (List.append_eq_nil_iff.mp he).1,
    if_neg fun he => hold (List.append_eq_nil_iff.mp he).1]
  rcases hfree with hsame | ⟨hnot, hbelow, -⟩
  · rw [if_pos hsame, hsame]
    apply lookup_movedTo
    intro a n _
    by_cases ha : resolve new <+: a
    · obtain ⟨y, rfl⟩ := ha
      rw [movedTo_append]
    · rw [movedTo_of_not_below ha]
  · rw [List.isPrefixOf_iff_prefix] at hnot
    have hne : resolve old ≠ resolve new := fun he => hnot (he ▸ List.prefix_rfl)
    have hnex : resolve old ++ x ≠ resolve new := fun he => hnot (he ▸ List.prefix_append _ _)
    rw [if_neg hne, ← lookup_filter_ne hnex]
    apply lookup_movedTo
    -- what is left is not under the new name
    have hout : ∀ a n, (a, n) ∈ (fs.del (resolve new)).entries → ¬ resolve new <+: a := by
      intro a n ha hp
      obtain ⟨ha, hne⟩ := List.mem_filter.mp ha
      exact not_mem_of_below_nil (of_decide_eq_true hne) hp hbelow ha
    intro a n ha
    constructor
    · exact fun he => movedTo_eq_append he (hout a n ha)
    · rintro rfl
      exact movedTo_append _ _ _

/-- Nothing is left under the old name, apart from what is under the new one. -/
theorem get_rename_old {old new : CStr} (hok : (fs.rename old new).1 = true)
    (hold : resolve old <+: q) (hnew : ¬ resolve new <+: q) :
    (fs.rename old new).2.get q = none := by
  obtain ⟨⟨-, -, hroot, -⟩, hfs⟩ := rename_true hok
  have hne : q ≠ [] := by
    rintro rfl
    exact hroot (List.prefix_nil.mp hold)
  rw [hfs, get, if_neg hne, List.lookup_eq_none_iff]
  rintro ⟨b, n⟩ hb
  obtain ⟨⟨a, m⟩, -, he⟩ := List.mem_map.mp hb
  obtain ⟨rfl, -⟩ := Prod.mk.inj he
  rw [bne_iff_ne]
  rintro rfl
  by_cases ha : resolve old <+: a
  · obtain ⟨y, rfl⟩ := ha
    rw [movedTo_append] at hnew
    exact hnew (List.prefix_append _ _)
  · rw [movedTo_of_not_below ha] at hold
    exact ha hold

/-- What is found after a move was there before, at the same place or at the old one. -/
theorem get_rename_cases (fs : Fs) (old new : CStr) (q : Path) :
    (fs.rename old new).2.get q = fs.get q ∨ (fs.rename old new).2.get q = none ∨
      ∃ x, q = resolve new ++ x ∧ (fs.rename old new).2.get q = fs.get (resolve old ++ x) := by
  by_cases hok : (fs.rename old new).1 = true
  · by_cases hnew : resolve new <+: q
    · obtain ⟨x, rfl⟩ := hnew
      exact Or.inr (Or.inr ⟨x, rfl, get_rename_new hok x⟩)
    · by_cases hold : resolve old <+: q
      · exact Or.inr (Or.inl (get_rename_old hok hold hnew))
      · exact Or.inl (get_rename hold hnew)
  · rw [rename_false (Bool.eq_false_iff.mpr hok)]
    exact Or.inl rfl

/-- A directory under the new name was the empty one that goes. -/
theorem eq_of_rename {old new : CStr} (hok : (fs.rename old new).1 = true)
    (hold : ¬ resolve old <+: q) (hnew : resolve new <+: q) (hdir : fs.isDir q = true) :
    q = resolve new := by
  by_contra hne
  rcases (rename_true hok).1.2.2.2.2.2.2.2 with hsame | ⟨-, hbelow, -⟩
  · exact hold (hsame ▸ hnew)
  · rw [isDir_below hne hnew hbelow] at hdir
    cases hdir

/-- Where there was a directory under the new name, there is one again. -/
theorem isDir_rename {old new : CStr} (hold : ¬ resolve old <+: q) (hdir : fs.isDir q = true) :
    (fs.rename old new).2.isDir q = true := by
  by_cases hok : (fs.rename old new).1 = true
  · by_cases hnew : resolve new <+: q
    · obtain rfl := eq_of_rename hok hold hnew hdir
      have hget := get_rename_new hok []
      rw [List.append_nil, List.append_nil] at hget
      rcases (rename_true hok).1.2.2.2.2.2.2.2 with hsame | ⟨-, -, hnone | hkind⟩
      · exact absurd (hsame ▸ List.prefix_rfl) hold
      · rw [isDir, hnone] at hdir
        cases hdir
      · rw [isDir, hget]
        exact hkind.symm.trans hdir
    · rw [isDir, get_rename hold hnew]
      exact hdir
  · rw [rename_false (Bool.eq_false_iff.mpr hok)]
    exact hdir

/-! ## Where something is moved to -/

/-- The directories that must be there for something to be moved to a name. -/
def wayAbove (d : CStr) : List Path := (stem d).dropLast.scanl walk []

theorem stem_append (d : CStr) : ∃ n, splitSlash d = stem d ++ List.replicate n [] := by
  have h : ∀ l : List CStr, ∃ n, l = List.replicate n [] ++ l.dropWhile (· = []) := by
    intro l
    induction l with
    | nil => exact ⟨0, rfl⟩
    | cons c l ih =>
        by_cases hc : c = []
        · obtain ⟨n, hn⟩ := ih
          refine ⟨n + 1, ?_⟩
          rw [List.dropWhile_cons_of_pos (by simpa using hc), hc, List.replicate_succ,
            List.cons_append, ← hn]
        · exact ⟨0, by rw [List.dropWhile_cons_of_neg (by simpa using hc)]; rfl⟩
  obtain ⟨n, hn⟩ := h (splitSlash d).reverse
  refine ⟨n, ?_⟩
  have := congrArg List.reverse hn
  rwa [List.reverse_reverse, List.reverse_append, List.reverse_replicate] at this

theorem foldl_replicate (p : Path) (n : Nat) : (List.replicate n []).foldl walk p = p := by
  induction n with
  | zero => rfl
  | succ n ih =>
      rw [List.replicate_succ, List.foldl_cons]
      exact ih

theorem scanl_replicate {n : Nat} (h : q ∈ (List.replicate n []).scanl walk p) : q = p := by
  induction n with
  | zero => simpa using h
  | succ n ih =>
      rw [List.replicate_succ, List.scanl_cons] at h
      rcases List.mem_cons.mp h with h | h
      · exact h
      · exact ih h

theorem mem_scanl_append {cs cs' : List CStr} (h : q ∈ (cs ++ cs').scanl walk p) :
    q ∈ cs.scanl walk p ∨ q ∈ cs'.scanl walk (cs.foldl walk p) := by
  induction cs generalizing p with
  | nil => exact Or.inr h
  | cons c cs ih =>
      rw [List.cons_append, List.scanl_cons] at h
      rw [List.scanl_cons, List.foldl_cons]
      rcases List.mem_cons.mp h with rfl | h
      · exact Or.inl List.mem_cons_self
      · exact (ih h).imp_left (List.mem_cons_of_mem _)

theorem resolve_stem (d : CStr) : resolve d = (stem d).foldl walk [] := by
  obtain ⟨n, hn⟩ := stem_append d
  rw [resolve, hn, List.foldl_append, foldl_replicate]

/-- Whoever looks up a name passes the directories above what it names, and then arrives. -/
theorem mem_way (h : q ∈ way d) : q ∈ wayAbove d ∨ q = resolve d := by
  obtain ⟨n, hn⟩ := stem_append d
  rw [way, hn] at h
  rcases mem_scanl_append h with h | h
  · rcases List.eq_nil_or_concat (stem d) with hnil | ⟨cs, c, hcs⟩
    · rw [hnil] at h
      right
      rw [resolve_stem, hnil]
      simpa using h
    · rw [List.concat_eq_append] at hcs
      rw [hcs] at h
      rcases mem_scanl_append h with h | h
      · left
        rw [wayAbove, hcs, List.dropLast_concat]
        exact h
      · rw [List.scanl_cons, List.scanl_nil] at h
        rcases List.mem_cons.mp h with h | h
        · left
          rw [wayAbove, hcs, List.dropLast_concat, h]
          exact foldl_mem_scanl _ _
        · right
          rw [resolve_stem, hcs, List.foldl_append]
          simpa using h
  · right
    rw [resolve_stem]
    exact scanl_replicate h

/-- A move that succeeds found every directory above its target. -/
theorem isDir_of_rename {old new : CStr} (h : (fs.rename old new).1 = true)
    (hq : q ∈ wayAbove new) :
    fs.isDir q = true := by
  have hreach : fs.reachesFrom [] (stem new) = true := (rename_true h).1.2.1
  rcases List.eq_nil_or_concat (stem new) with hnil | ⟨cs, c, hcs⟩
  · rw [wayAbove, hnil] at hq
    have : q = [] := by simpa using hq
    rw [this, isDir_root]
  · rw [List.concat_eq_append] at hcs
    rw [wayAbove, hcs, List.dropLast_concat] at hq
    rw [hcs] at hreach
    refine (all_scanl_iff fs [] cs).mpr ?_ q hq
    by_cases hnil : cs = []
    · subst hnil
      exact ⟨rfl, isDir_root fs⟩
    · rw [reachesFrom_append_one fs [] c hnil, Bool.and_eq_true] at hreach
      exact hreach

/-- **What was moved is there**, if it was a directory and the way to its new place does not lead
through it. -/
theorem lashDirExists_rename {old new : CStr} (hok : (fs.rename old new).1 = true)
    (hold : fs.lashDirExists old = true) (hway : ∀ q ∈ wayAbove new, ¬ resolve old <+: q) :
    (fs.rename old new).2.lashDirExists new = true := by
  have hmoved : (fs.rename old new).2.isDir (resolve new) = true := by
    have hget := get_rename_new hok []
    rw [List.append_nil, List.append_nil] at hget
    rw [isDir, hget]
    exact lashDirExists_iff.mp hold _ (resolve_mem_way old)
  rw [lashDirExists_iff]
  intro q hq
  rcases mem_way hq with habove | rfl
  · exact isDir_rename (hway q habove) (isDir_of_rename hok habove)
  · exact hmoved

/-! ## Saving files -/

theorem put_writes {n : Node} (hp : fs.isDir p = false) (hn : n ≠ .dir) :
    fs.Writes (fs.put p n) (· = p) where
  frame q hq := get_put_ne fs n hq
  dirs q := by
    by_cases hq : q = p
    · subst hq
      have hne : q ≠ [] := by
        rintro rfl
        simp at hp
      rw [hp, isDir, get_put_self fs n hne]
      cases n with
      | dir => exact absurd rfl hn
      | file data => rfl
      | xml doc => rfl
    · rw [isDir, get_put_ne fs n hq, isDir]

theorem xmlSaveFile_writes (fs : Fs) (f : CStr) (doc : XmlDoc) :
    fs.Writes (fs.xmlSaveFile f doc).2 (· = resolve f) := by
  unfold xmlSaveFile
  dsimp only
  split
  · next h =>
      have hdir : fs.next.isDir (resolve f) = false := by simpa using h.2
      split
      · exact (Writes.next fs _).trans (put_writes hdir (by simp))
      · exact (Writes.next fs _).trans (put_writes hdir (by simp))
  · exact Writes.next fs _

end Fs

/-- Notes are written like any file; there is nothing to write if there are none. -/
theorem saveNotes_eq (fs : Fs) (dir : CStr) (notes : Option CStr) :
    saveNotes fs dir notes = (fs.writeFile (lashGetFqn dir projectNotesFile)
      (notes.toList.filter (· ≠ []))).2 := by
  unfold saveNotes Fs.writeFile
  dsimp only
  rcases fs.creat (lashGetFqn dir projectNotesFile) with ⟨_ | _, fs₁⟩
  · rfl
  · cases notes with
    | none => rfl
    | some notes =>
        by_cases hnil : notes = []
        · subst hnil
          rfl
        · rw [Option.toList_some, List.filter_cons_of_pos (by simpa using hnil), List.filter_nil]
          dsimp only
          rw [if_neg hnil, Fs.writeAll]
          rcases fs₁.write (lashGetFqn dir projectNotesFile) notes with ⟨_ | _, fs₂⟩
          · rfl
          · rfl

/-! ## Operations -/

namespace DiskOp

/-- What an operation may take away or push aside: everything from a path on. -/
def Clears : DiskOp → Path → Prop
  | removeDir d, q | removeEmpty d, q => resolve d <+: q
  | rename old new, q => resolve old <+: q ∨ resolve new <+: q
  | makeDir _, _ | writeInfo _ _, _ | writeNotes _ _, _ | openStore _, _ => False

/-- The file that an operation may write. -/
def Puts : DiskOp → Path → Prop
  | writeInfo d _, q => q = resolve (lashGetFqn d projectInfoFile)
  | writeNotes d _, q => q = resolve (lashGetFqn d projectNotesFile)
  | makeDir _, _ | removeDir _, _ | removeEmpty _, _ | rename _ _, _ | openStore _, _ => False

variable {o : DiskOp} {fs : Fs} {q : Path}

/-- **What an operation leaves alone** is as it was, except that it may be a directory now if there
was nothing. -/
theorem get_run (hc : ¬ o.Clears q) (hp : ¬ o.Puts q) :
    (o.run fs).get q = fs.get q ∨ fs.get q = none ∧ (o.run fs).get q = some .dir := by
  cases o with
  | makeDir d => exact Fs.lashCreateDir_makesDirs fs d q
  | removeDir d => exact Or.inl (Fs.get_lashRemoveDir hc)
  | removeEmpty d =>
      rw [run]
      split
      · exact Or.inl (Fs.get_lashRemoveDir hc)
      · exact Or.inl rfl
  | rename old new =>
      rw [Clears, not_or] at hc
      exact Or.inl (Fs.get_rename hc.1 hc.2)
  | writeInfo d doc => exact Or.inl ((fs.xmlSaveFile_writes _ doc).frame q hp)
  | writeNotes d notes =>
      rw [run, saveNotes_eq]
      exact Or.inl ((fs.writeFile_spec _ _).1.frame q hp)
  | openStore d => exact Or.inl rfl

/-- A directory stays where nothing is taken away. -/
theorem isDir_run (hc : ¬ o.Clears q) (h : fs.isDir q = true) : (o.run fs).isDir q = true := by
  by_cases hp : o.Puts q
  · cases o with
    | writeInfo d doc => exact ((fs.xmlSaveFile_writes _ doc).dirs q).trans h
    | writeNotes d notes =>
        rw [run, saveNotes_eq]
        exact ((fs.writeFile_spec _ _).1.dirs q).trans h
    | makeDir _ | removeDir _ | removeEmpty _ | rename _ _ | openStore _ => exact hp.elim
  · rcases @get_run o fs q hc hp with heq | ⟨hnone, -⟩
    · rw [Fs.isDir, heq]
      exact h
    · simp [Fs.isDir, hnone] at h

end DiskOp

/-- Writing a store removes no directory. -/
theorem Store.Ok.isDir_write {st : Store} (h : st.Ok) {fs : Fs} {q : Path}
    (hq : fs.isDir q = true) :
    (storeWrite st fs).2.2.isDir q = true := by
  rcases storeWrite_frame h.kept fs with ⟨-, heq⟩ | ⟨-, hwrites, -⟩
  · rw [heq]
    exact hq
  · rw [hwrites.dirs]
    exact (st.prepare_makesDirs fs).isDir hq

end Lash
