import Lash.Symlinks

/-!
# Removing a directory

`lash_remove_dir` of `lashd/file.c`, on a file system with symbolic links. It asks `stat` whether
an entry is a directory, and `stat` follows links: it goes into a directory that a link leads to
and removes what is there, and then it cannot remove the link.

Without such links nothing outside of the tree is removed (`NoLinkedDirs.stays_inside`), and the
nested calls come to an end.
-/

namespace Lash

namespace LinkFs

/-! ## `lash_remove_dir` -/

/-- The loop over the names in a directory, and whether it came to its end: it returns at the first
entry that cannot be unlinked. -/
def removeEntries (removeDir : LinkFs → CStr → Option LinkFs) (dir : CStr) :
    LinkFs → List CStr → Option (Bool × LinkFs)
  | fs, [] => some (true, fs)
  | fs, name :: names =>
    let fqn := lashGetFqn dir name
    let info := (fs.stat fqn).1
    let fs := (fs.stat fqn).2
    if info = some .dir then
      (removeDir fs fqn).bind (fun fs => removeEntries removeDir dir fs names)
    else if (fs.unlink fqn).1 then removeEntries removeDir dir (fs.unlink fqn).2 names
    else some (false, (fs.unlink fqn).2)

/-- `lash_remove_dir`, with so many nested calls at most. The static buffer of `lash_get_fqn` is
not read after a nested call has overwritten it. -/
def lashRemoveDir : Nat → LinkFs → CStr → Option LinkFs
  | 0, _, _ => none
  | depth + 1, fs, dir =>
    match (fs.opendir dir).1 with
    | none => some (fs.opendir dir).2
    | some names =>
      (removeEntries (lashRemoveDir depth) dir (fs.opendir dir).2 names).map
        (fun r => if r.1 then (r.2.rmdir dir).2 else r.2)

/-! ## What every run does -/

/-- A file system after some calls. -/
structure Shrinks (fs fs' : LinkFs) : Prop where
  le : fs' ≤ fs
  wf : fs.Wf → fs'.Wf
  permitted : fs.faults = [] → fs'.faults = []

theorem Shrinks.refl (fs : LinkFs) : fs.Shrinks fs := ⟨le_refl fs, id, id⟩

theorem Shrinks.trans {fs fs' fs'' : LinkFs} (h : fs.Shrinks fs') (h' : fs'.Shrinks fs'') :
    fs.Shrinks fs'' :=
  ⟨le_trans h'.le h.le, h'.wf ∘ h.wf, h'.permitted ∘ h.permitted⟩

theorem shrinks_next (fs : LinkFs) : fs.Shrinks fs.next :=
  ⟨le_refl fs, Wf.next, fun h => by rw [faults_next, h, List.tail_nil]⟩

theorem shrinks_unlink (fs : LinkFs) (path : CStr) : fs.Shrinks (fs.unlink path).2 where
  le := unlink_le fs path
  wf h := h.unlink path
  permitted h := by
    rcases unlink_cases fs path with he | ⟨y, -, -, -, -, he⟩ <;> rw [he]
    · exact (shrinks_next fs).permitted h
    · exact (shrinks_next fs).permitted h

theorem shrinks_rmdir (fs : LinkFs) (path : CStr) : fs.Shrinks (fs.rmdir path).2 where
  le := rmdir_le fs path
  wf h := h.rmdir path
  permitted h := by
    rcases rmdir_cases fs path with he | ⟨y, -, -, -, he⟩ <;> rw [he]
    · exact (shrinks_next fs).permitted h
    · exact (shrinks_next fs).permitted h

theorem opendir_snd (fs : LinkFs) (path : CStr) : (fs.opendir path).2 = fs.next := by
  unfold opendir
  split <;> rfl

theorem of_opendir {fs : LinkFs} {path : CStr} {names : List CStr}
    (h : (fs.opendir path).1 = some names) :
    ∃ p, fs.resolve path = some p ∧ fs.kind p = some .dir ∧ fs.fault = false ∧
      names = fs.names p := by
  unfold opendir at h
  split at h
  · cases h
  · next p hp =>
      dsimp only at h
      split_ifs at h with hbad
      rw [not_or, Bool.not_eq_true, not_not] at hbad
      exact ⟨p, hp, hbad.2, hbad.1, (Option.some.inj h).symm⟩

theorem removeEntries_shrinks {removeDir : LinkFs → CStr → Option LinkFs} {dir : CStr}
    (hrec : ∀ fs d fs', removeDir fs d = some fs' → fs.Shrinks fs') {names : List CStr}
    {fs : LinkFs} {r : Bool × LinkFs} (h : removeEntries removeDir dir fs names = some r) :
    fs.Shrinks r.2 := by
  induction names generalizing fs with
  | nil =>
      rw [← Option.some.inj h]
      exact .refl fs
  | cons name names ih =>
      rw [removeEntries] at h
      split_ifs at h with hdir hok
      · obtain ⟨fs₁, hsub, hrest⟩ := Option.bind_eq_some_iff.mp h
        exact ((shrinks_next fs).trans (hrec _ _ _ hsub)).trans (ih hrest)
      · exact ((shrinks_next fs).trans (shrinks_unlink _ _)).trans (ih h)
      · rw [← Option.some.inj h]
        exact (shrinks_next fs).trans (shrinks_unlink _ _)

/-- **Nothing is added**, and every name stays in a directory. -/
theorem lashRemoveDir_shrinks {depth : Nat} {fs fs' : LinkFs} {dir : CStr}
    (h : lashRemoveDir depth fs dir = some fs') : fs.Shrinks fs' := by
  induction depth generalizing fs fs' dir with
  | zero => cases h
  | succ depth ih =>
      rw [lashRemoveDir, opendir_snd] at h
      cases hopen : (fs.opendir dir).1 with
      | none =>
          rw [hopen] at h
          rw [← Option.some.inj h]
          exact shrinks_next fs
      | some names =>
          rw [hopen] at h
          obtain ⟨⟨ok, fs₁⟩, hloop, hlast⟩ := Option.map_eq_some_iff.mp h
          have hsub := (shrinks_next fs).trans (removeEntries_shrinks (fun _ _ _ => ih) hloop)
          dsimp only at hlast
          split_ifs at hlast with hok
          · rw [← hlast]
            exact hsub.trans (shrinks_rmdir _ _)
          · rw [← hlast]
            exact hsub

/-! ## More nested calls -/

theorem removeEntries_mono {f g : LinkFs → CStr → Option LinkFs} {dir : CStr}
    (hfg : ∀ fs d fs', f fs d = some fs' → g fs d = some fs') {names : List CStr}
    {fs : LinkFs} {r : Bool × LinkFs} (h : removeEntries f dir fs names = some r) :
    removeEntries g dir fs names = some r := by
  induction names generalizing fs with
  | nil => exact h
  | cons name names ih =>
      rw [removeEntries] at h ⊢
      split_ifs at h ⊢ with hdir hok
      · obtain ⟨fs₁, hsub, hrest⟩ := Option.bind_eq_some_iff.mp h
        rw [hfg _ _ _ hsub]
        exact ih hrest
      · exact ih h
      · exact h

/-- A run that ends does not change with more nested calls. -/
theorem lashRemoveDir_mono {m n : Nat} (hmn : m ≤ n) {fs fs' : LinkFs} {dir : CStr}
    (h : lashRemoveDir m fs dir = some fs') : lashRemoveDir n fs dir = some fs' := by
  induction n generalizing m fs fs' dir with
  | zero =>
      obtain rfl : m = 0 := by omega
      exact h
  | succ n ih =>
      cases m with
      | zero => cases h
      | succ m =>
          rw [lashRemoveDir] at h ⊢
          cases hopen : (fs.opendir dir).1 with
          | none =>
              rw [hopen] at h
              exact h
          | some names =>
              rw [hopen] at h
              obtain ⟨r, hloop, hlast⟩ := Option.map_eq_some_iff.mp h
              exact Option.map_eq_some_iff.mpr
                ⟨r, removeEntries_mono (fun _ _ _ => ih (by omega)) hloop, hlast⟩

/-! ## What is kept -/

/-- A file system in the middle of a run from `fs₀`. What is in `low` has not been removed so far,
and nothing that is to be kept. -/
structure Midway (fs₀ low : LinkFs) (Keep : Path → Prop) (fs : LinkFs) : Prop where
  low_le : low ≤ fs
  le : fs ≤ fs₀
  wf : fs.Wf
  permitted : fs₀.faults = [] → fs.faults = []
  kept : ∀ x, Keep x → fs.kind x = fs₀.kind x

/-- The directories that a run goes into, each by a path, and the reasons why it keeps something. -/
structure Spares (fs₀ low : LinkFs) (Visit : CStr → Path → Prop) (Keep : Path → Prop) : Prop where
  resolves : ∀ {dir p}, Visit dir p → fs₀.resolve dir = some p
  enters : ∀ {fs dir p n}, Midway fs₀ low Keep fs → Visit dir p → PlainName n →
    (fs.stat (lashGetFqn dir n)).1 = some .dir → ∃ x, Visit (lashGetFqn dir n) x
  unlinks : ∀ {fs dir p n}, Midway fs₀ low Keep fs → Visit dir p → PlainName n →
    (fs.stat (lashGetFqn dir n)).1 ≠ some .dir → fs.kind (p ++ [n]) ≠ none →
    fs.kind (p ++ [n]) ≠ some .dir → ¬ Keep (p ++ [n])
  empties : ∀ {fs dir p y}, Midway fs₀ low Keep fs → Visit dir p → fs.entryAt dir = some y →
    fs.kind y = some .dir → fs.names y = [] → ¬ Keep y

section

variable {fs₀ low : LinkFs} {Visit : CStr → Path → Prop} {Keep : Path → Prop}

theorem Midway.of_shrinks {fs fs' : LinkFs} (h : Midway fs₀ low Keep fs) (hs : fs.Shrinks fs')
    (hlow : low ≤ fs') (hkept : ∀ x, Keep x → fs'.kind x = fs.kind x) : Midway fs₀ low Keep fs'
      where
  low_le := hlow
  le := le_trans hs.le h.le
  wf := hs.wf h.wf
  permitted := hs.permitted ∘ h.permitted
  kept x hx := (hkept x hx).trans (h.kept x hx)

theorem Midway.next {fs : LinkFs} (h : Midway fs₀ low Keep fs) : Midway fs₀ low Keep fs.next :=
  h.of_shrinks (shrinks_next fs) h.low_le fun _ _ => rfl

/-- The loop keeps what is spared, if it goes only where that is kept and unlinks none of it. -/
theorem Midway.removeEntries {removeDir : LinkFs → CStr → Option LinkFs}
    (hrec : ∀ {fs fs' : LinkFs} {d : CStr} {x : Path}, Visit d x → Midway fs₀ low Keep fs →
      removeDir fs d = some fs' → low ≤ fs' → Midway fs₀ low Keep fs')
    (hshrinks : ∀ fs d fs', removeDir fs d = some fs' → fs.Shrinks fs')
    {dir : CStr} {p : Path} (hp : fs₀.resolve dir = some p) {names : List CStr}
    (hplain : ∀ n ∈ names, PlainName n)
    (henters : ∀ n ∈ names, ∀ fs, Midway fs₀ low Keep fs →
      (fs.stat (lashGetFqn dir n)).1 = some .dir → ∃ x, Visit (lashGetFqn dir n) x)
    (hunlinks : ∀ n ∈ names, ∀ fs, Midway fs₀ low Keep fs →
      (fs.stat (lashGetFqn dir n)).1 ≠ some .dir → fs.kind (p ++ [n]) ≠ none →
      fs.kind (p ++ [n]) ≠ some .dir → ¬ Keep (p ++ [n]))
    {fs : LinkFs} (h : Midway fs₀ low Keep fs) {r : Bool × LinkFs}
    (hrun : LinkFs.removeEntries removeDir dir fs names = some r) (hlow : low ≤ r.2) :
    Midway fs₀ low Keep r.2 := by
  induction names generalizing fs with
  | nil =>
      rw [← Option.some.inj hrun]
      exact h
  | cons name names ih =>
      obtain ⟨hname, hnames⟩ := List.forall_mem_cons.mp hplain
      obtain ⟨henter, henters⟩ := List.forall_mem_cons.mp henters
      obtain ⟨hentry, hunlinks⟩ := List.forall_mem_cons.mp hunlinks
      rw [LinkFs.removeEntries] at hrun
      -- what `unlink` removes is the entry of the directory
      have hunlink : (fs.stat (lashGetFqn dir name)).1 ≠ some .dir →
          ∀ x, Keep x → (fs.next.unlink (lashGetFqn dir name)).2.kind x = fs.next.kind x := by
        intro hdir x hx
        rcases unlink_cases fs.next (lashGetFqn dir name) with he | ⟨y, hy, -, hsome, hfile, he⟩
        · rw [he]
          rfl
        · obtain ⟨q, hq, -, rfl⟩ := of_entryAt_fqn hname hy
          obtain rfl : q = p := Option.some.inj ((resolve_mono h.next.le hq).symm.trans hp)
          rw [he]
          refine kind_del_ne _ ?_
          rintro rfl
          exact hentry fs h hdir hsome hfile hx
      split_ifs at hrun with hdir hok
      · obtain ⟨fs₁, hsub, hrest⟩ := Option.bind_eq_some_iff.mp hrun
        obtain ⟨x, hx⟩ := henter fs h hdir
        have hlow₁ : low ≤ fs₁ := le_trans hlow (removeEntries_shrinks hshrinks hrest).le
        exact ih hnames henters hunlinks (hrec hx h.next hsub hlow₁) hrest
      · have hlow₁ : low ≤ (fs.next.unlink (lashGetFqn dir name)).2 :=
          le_trans hlow (removeEntries_shrinks hshrinks hrun).le
        exact ih hnames henters hunlinks
          (h.next.of_shrinks (shrinks_unlink _ _) hlow₁ (hunlink hdir)) hrun
      · rw [← Option.some.inj hrun] at hlow ⊢
        exact h.next.of_shrinks (shrinks_unlink _ _) hlow (hunlink hdir)

/-- **What is spared is kept** by a whole run. -/
theorem Midway.lashRemoveDir (hk : Spares fs₀ low Visit Keep) {depth : Nat} {fs fs' : LinkFs}
    {dir : CStr} {p : Path} (hvisit : Visit dir p) (h : Midway fs₀ low Keep fs)
    (hrun : LinkFs.lashRemoveDir depth fs dir = some fs') (hlow : low ≤ fs') :
    Midway fs₀ low Keep fs' := by
  induction depth generalizing fs fs' dir p with
  | zero => cases hrun
  | succ depth ih =>
      rw [LinkFs.lashRemoveDir, opendir_snd] at hrun
      cases hopen : (fs.opendir dir).1 with
      | none =>
          rw [hopen] at hrun
          rw [← Option.some.inj hrun]
          exact h.next
      | some names =>
          rw [hopen] at hrun
          obtain ⟨⟨ok, fs₁⟩, hloop, hlast⟩ := Option.map_eq_some_iff.mp hrun
          obtain ⟨q, -, -, -, rfl⟩ := of_opendir hopen
          have hplain : ∀ n ∈ fs.names q, PlainName n := fun n hn => h.wf.plainName hn
          have hmid : low ≤ fs₁ → Midway fs₀ low Keep fs₁ := by
            intro hlow₁
            refine @Midway.removeEntries _ _ Visit Keep _ ?_ ?_ _ _ (hk.resolves hvisit) _ hplain
              ?_ ?_ _ h.next _ hloop hlow₁
            · exact fun hv hm => ih hv hm
            · exact fun _ _ _ => lashRemoveDir_shrinks
            · exact fun n hn _ hm => hk.enters hm hvisit (hplain n hn)
            · exact fun n hn _ hm => hk.unlinks hm hvisit (hplain n hn)
          dsimp only at hlast
          split_ifs at hlast with hok
          · subst hlast
            have hmid := hmid (le_trans hlow (shrinks_rmdir _ _).le)
            refine hmid.of_shrinks (shrinks_rmdir _ _) hlow fun x hx => ?_
            rcases rmdir_cases fs₁ dir with he | ⟨y, hy, hdir, hempty, he⟩
            · rw [he]
              rfl
            · rw [he]
              refine kind_del_ne _ ?_
              rintro rfl
              exact hk.empties hmid hvisit hy hdir hempty hx
          · subst hlast
            exact hmid hlow

end

/-! ## The tree of a directory -/

/-- A path to something in a directory: the names after the path of the directory. -/
def pathBelow (d : CStr) (names : List CStr) : CStr := names.foldl lashGetFqn d

/-- A path leads to the directory of an entry, whatever is in the entry. -/
def Leads (fs : LinkFs) (d : CStr) (parent : Path) (name : CStr) : Prop :=
  PlainName name ∧ ∀ fs' : LinkFs, (∀ x, ¬ parent ++ [name] <+: x → fs'.kind x = fs.kind x) →
    fs'.resolve d = some parent

/-- No symbolic link in a directory leads to a directory, by the path that goes through it. -/
def NoLinkedDirs (fs : LinkFs) (d : CStr) (parent : Path) (name : CStr) : Prop :=
  ∀ names target, fs.kind (parent ++ name :: names) = some (.link target) →
    (fs.resolve (pathBelow d (name :: names))).bind fs.kind ≠ some .dir

/-- A run of `lash_remove_dir` ends. It removes nothing but the directory and what is in it; and if
all is permitted the directory is gone. -/
def RunsInside (fs : LinkFs) (d : CStr) (parent : Path) (name : CStr) : Prop :=
  ∃ depth fs', (∀ n ≥ depth, lashRemoveDir n fs (lashGetFqn d name) = some fs') ∧
    (∀ x, fs.kind x ≠ none → fs'.kind x = none → parent ++ [name] <+: x) ∧
    (fs.faults = [] → fs'.kind (parent ++ [name]) = none)

/-- So does every run, whatever calls are permitted and in whatever order `readdir` gives the
names. -/
def RemovesTree (fs : LinkFs) (d : CStr) (parent : Path) (name : CStr) : Prop :=
  ∀ fs₀ : LinkFs, fs₀.entries.Perm fs.entries → fs₀.RunsInside d parent name

section

variable {fs fs' : LinkFs} {d name n : CStr} {parent : Path}

theorem pathBelow_concat (d : CStr) (names : List CStr) (n : CStr) :
    pathBelow d (names ++ [n]) = lashGetFqn (pathBelow d names) n := by
  rw [pathBelow, List.foldl_append]
  rfl

theorem NoLinkedDirs.mono (h : fs.NoLinkedDirs d parent name) (hle : fs' ≤ fs) :
    fs'.NoLinkedDirs d parent name := by
  intro names target hlink hdir
  obtain ⟨x, hx, hkind⟩ := Option.bind_eq_some_iff.mp hdir
  refine h names target (hle _ _ hlink) ?_
  rw [resolve_mono hle hx]
  exact hle _ _ hkind

theorem NoLinkedDirs.child (h : fs.NoLinkedDirs d parent name) (n : CStr) :
    fs.NoLinkedDirs (lashGetFqn d name) (parent ++ [name]) n := by
  intro names target hlink
  rw [List.append_assoc] at hlink
  exact h (n :: names) target hlink

/-- `stat` finds a directory where the path leads to one. -/
theorem of_stat {path : CStr} {k : FileKind} (h : (fs.stat path).1 = some k) :
    ∃ x, fs.resolve path = some x ∧ fs.kind x = some k := by
  rw [stat] at h
  dsimp only at h
  split_ifs at h
  exact Option.bind_eq_some_iff.mp h

/-- Where no link leads to a directory, an entry that `stat` takes for a directory is one. -/
theorem NoLinkedDirs.entered (h : fs.NoLinkedDirs d parent name) (hn : PlainName n)
    (hway : ∀ x, fs.resolve (lashGetFqn d name) = some x → x = parent ++ [name])
    (hstat : (fs.stat (lashGetFqn (lashGetFqn d name) n)).1 = some .dir) :
    fs.resolve (lashGetFqn (lashGetFqn d name) n) = some (parent ++ [name] ++ [n]) ∧
      fs.kind (parent ++ [name] ++ [n]) = some .dir := by
  obtain ⟨x, hx, hkind⟩ := of_stat hstat
  obtain ⟨q, hq, -, hlast⟩ := resolve_fqn hn hx
  obtain rfl := hway q hq
  rcases walkLinks_one hn hlast with ⟨rfl, -⟩ | ⟨t, ht⟩
  · exact ⟨hx, hkind⟩
  · rw [List.append_assoc] at ht
    refine absurd ?_ (h [n] t ht)
    exact Option.bind_eq_some_iff.mpr ⟨x, hx, hkind⟩

end

/-! ## Nothing else is removed -/

/-- The directories of a tree, each by the path that goes down to it. -/
def TreeVisit (fs : LinkFs) (d : CStr) (parent : Path) (name : CStr) (dir : CStr)
    (p : Path) : Prop :=
  ∃ names, (∀ n ∈ name :: names, PlainName n) ∧ dir = pathBelow d (name :: names) ∧
    p = parent ++ name :: names ∧ fs.resolve dir = some p

section

variable {fs low : LinkFs} {d name : CStr} {parent : Path}

/-- The last name of a path in a tree. -/
theorem TreeVisit.last {dir : CStr} {p : Path} (h : fs.TreeVisit d parent name dir p) :
    ∃ d' n, dir = lashGetFqn d' n ∧ PlainName n := by
  obtain ⟨names, hplain, rfl, -, -⟩ := h
  rcases List.eq_nil_or_concat (name :: names) with hnil | ⟨init, n, hlast⟩
  · cases hnil
  · rw [hlast, List.concat_eq_append, pathBelow_concat]
    refine ⟨_, n, rfl, hplain n ?_⟩
    rw [hlast, List.concat_eq_append]
    exact List.mem_append_right _ (List.mem_singleton_self n)

theorem TreeVisit.below {dir : CStr} {p : Path} (h : fs.TreeVisit d parent name dir p) :
    parent ++ [name] <+: p := by
  obtain ⟨names, -, -, rfl, -⟩ := h
  exact ⟨names, by simp⟩

/-- What `stat` takes for a directory in a directory of the tree is one, or a link leads to it. -/
theorem TreeVisit.enter {fs' : LinkFs} {dir n : CStr} {p : Path}
    (h : fs.TreeVisit d parent name dir p) (hle : fs' ≤ fs) (hn : PlainName n)
    (hstat : (fs'.stat (lashGetFqn dir n)).1 = some .dir) :
    fs.TreeVisit d parent name (lashGetFqn dir n) (p ++ [n]) ∨
      ∃ names target x, lashGetFqn dir n = pathBelow d (name :: names) ∧
        fs.kind (parent ++ name :: names) = some (.link target) ∧
        fs.resolve (lashGetFqn dir n) = some x ∧ fs.kind x = some .dir := by
  obtain ⟨names, hplain, rfl, rfl, hp⟩ := h
  obtain ⟨x, hx, hkind⟩ := of_stat hstat
  have hx := resolve_mono hle hx
  obtain ⟨q, hq, -, hlast⟩ := resolve_fqn hn hx
  obtain rfl := Option.some.inj (hq.symm.trans hp)
  have hsplit : parent ++ name :: names ++ [n] = parent ++ name :: (names ++ [n]) := by simp
  have hpath : lashGetFqn (pathBelow d (name :: names)) n = pathBelow d (name :: (names ++ [n])) :=
    by rw [← List.cons_append, pathBelow_concat]
  rcases walkLinks_one hn hlast with ⟨rfl, -⟩ | ⟨target, htarget⟩
  · refine .inl ⟨names ++ [n], ?_, hpath, hsplit, hx⟩
    intro m hm
    rw [← List.cons_append] at hm
    rcases List.mem_append.mp hm with hm | hm
    · exact hplain m hm
    · exact List.mem_singleton.mp hm ▸ hn
  · rw [hsplit] at htarget
    exact .inr ⟨names ++ [n], target, x, hpath, htarget, hx, hle _ _ hkind⟩

/-- An empty directory that is removed by its path is the one the path leads to. -/
theorem entryAt_dir {fs' : LinkFs} {d' n : CStr} (hn : PlainName n) (hle : fs' ≤ fs) {p y : Path}
    (hp : fs.resolve (lashGetFqn d' n) = some p) (hy : fs'.entryAt (lashGetFqn d' n) = some y)
    (hdir : fs'.kind y = some .dir) : y = p := by
  obtain ⟨q, hq, hqdir, rfl⟩ := of_entryAt_fqn hn hy
  have hres := resolve_entry hn hq hqdir hdir (fun t ht => by cases ht)
  exact Option.some.inj ((resolve_mono hle hres).symm.trans hp)

/-- Everything outside of a tree without linked directories is spared. -/
theorem NoLinkedDirs.spares (h : fs.NoLinkedDirs d parent name) :
    Spares fs low (fs.TreeVisit d parent name) (fun x => ¬ parent ++ [name] <+: x) where
  resolves := fun ⟨_, _, _, _, hp⟩ => hp
  enters := by
    intro fs' dir p n hmid hvisit hn hstat
    rcases hvisit.enter hmid.le hn hstat with hdir | ⟨names, target, x, hpath, hlink, hx, hkind⟩
    · exact ⟨_, hdir⟩
    · -- a link does not lead to a directory
      refine absurd ?_ (h names target hlink)
      rw [← hpath]
      exact Option.bind_eq_some_iff.mpr ⟨x, hx, hkind⟩
  unlinks := by
    intro fs' dir p n _ hvisit _ _ _ _ hkeep
    exact hkeep (hvisit.below.trans (List.prefix_append p [n]))
  empties := by
    intro fs' dir p y hmid hvisit hy hdir _ hkeep
    obtain ⟨d', n, rfl, hn⟩ := hvisit.last
    have hp : fs.resolve (lashGetFqn d' n) = some p := hvisit.choose_spec.2.2.2
    obtain rfl := entryAt_dir hn hmid.le hp hy hdir
    exact hkeep hvisit.below

/-- A file system with nothing in it. -/
def empty : LinkFs := ⟨[], []⟩

theorem empty_le (fs : LinkFs) : empty ≤ fs := by
  intro p k hk
  by_cases hp : p = []
  · rw [hp, kind_root] at hk ⊢
    exact hk
  · rw [kind, if_neg hp] at hk
    cases hk

/-- **Nothing outside of the tree is removed**, whether the calls are permitted or not. -/
theorem NoLinkedDirs.stays_inside (h : fs.NoLinkedDirs d parent name) (hwf : fs.Wf)
    (hname : PlainName name) (hway : fs.resolve (lashGetFqn d name) = some (parent ++ [name]))
    {depth : Nat} {fs' : LinkFs} (hrun : lashRemoveDir depth fs (lashGetFqn d name) = some fs')
    {x : Path} (hx : ¬ parent ++ [name] <+: x) : fs'.kind x = fs.kind x := by
  have hvisit : fs.TreeVisit d parent name (lashGetFqn d name) (parent ++ [name]) :=
    ⟨[], by simpa using hname, rfl, rfl, hway⟩
  have hstart : Midway fs empty (fun x => ¬ parent ++ [name] <+: x) fs :=
    ⟨empty_le fs, le_refl fs, hwf, id, fun _ _ => rfl⟩
  exact (Midway.lashRemoveDir h.spares hvisit hstart hrun (empty_le fs')).kept x hx

end

/-! ## It ends -/

theorem removeEntries_ends {removeDir : LinkFs → CStr → Option LinkFs} {dir : CStr}
    (hshrinks : ∀ fs d fs', removeDir fs d = some fs' → fs.Shrinks fs') {P : LinkFs → Prop}
    (hP : ∀ {fs fs'}, P fs → fs.Shrinks fs' → P fs') {names : List CStr}
    (hrec : ∀ fs, ∀ n ∈ names, P fs → (fs.stat (lashGetFqn dir n)).1 = some .dir →
      removeDir fs.next (lashGetFqn dir n) ≠ none) {fs : LinkFs} (h : P fs) :
    removeEntries removeDir dir fs names ≠ none := by
  induction names generalizing fs with
  | nil => simp [removeEntries]
  | cons n names ih =>
      have hrest : ∀ {fs : LinkFs}, P fs → removeEntries removeDir dir fs names ≠ none :=
        ih fun fs m hm => hrec fs m (List.mem_cons_of_mem _ hm)
      rw [removeEntries]
      split_ifs with hdir hok
      · cases hsub : removeDir (fs.stat (lashGetFqn dir n)).2 (lashGetFqn dir n) with
        | none => exact absurd hsub (hrec fs n List.mem_cons_self h hdir)
        | some fs₁ =>
            rw [Option.bind_some]
            exact hrest (hP (hP h (shrinks_next fs)) (hshrinks _ _ _ hsub))
      · exact hrest (hP (hP h (shrinks_next fs)) (shrinks_unlink _ _))
      · simp

/-- **The nested calls come to an end**: each goes into a directory that is one deeper. -/
theorem NoLinkedDirs.ends {fs : LinkFs} {d name : CStr} {parent : Path}
    (h : fs.NoLinkedDirs d parent name) (hwf : fs.Wf)
    (hway : ∀ x, fs.resolve (lashGetFqn d name) = some x → x = parent ++ [name])
    (hdir : fs.kind (parent ++ [name]) = some .dir) {height : Nat}
    (hheight : ∀ x, fs.kind x ≠ none → x.length ≤ height) {depth : Nat}
    (hdepth : height < depth + (parent ++ [name]).length) :
    lashRemoveDir depth fs (lashGetFqn d name) ≠ none := by
  induction depth generalizing fs d name parent with
  | zero =>
      have hlen := hheight (parent ++ [name]) (by rw [hdir]; simp)
      omega
  | succ depth ih =>
      rw [lashRemoveDir, opendir_snd]
      cases hopen : (fs.opendir (lashGetFqn d name)).1 with
      | none => simp
      | some names =>
          obtain ⟨q, -, -, -, rfl⟩ := of_opendir hopen
          have hplain : ∀ n ∈ fs.names q, PlainName n := fun n hn => hwf.plainName hn
          have hloop : removeEntries (lashRemoveDir depth) (lashGetFqn d name) fs.next (fs.names q)
              ≠ none := by
            refine removeEntries_ends (P := fun fs' => fs' ≤ fs ∧ fs'.Wf)
              (fun _ _ _ => lashRemoveDir_shrinks)
              (fun h hs => ⟨le_trans hs.le h.1, hs.wf h.2⟩) ?_ ⟨le_refl fs, hwf.next⟩
            rintro fs' n hn ⟨hle, hwf'⟩ hstat
            have hway' : ∀ x, fs'.resolve (lashGetFqn d name) = some x → x = parent ++ [name] :=
              fun x hx => hway x (resolve_mono hle hx)
            obtain ⟨hres, hkind⟩ := (h.mono hle).entered (hplain n hn) hway' hstat
            refine ih ((h.mono (le_trans (shrinks_next fs').le hle)).child n) hwf'.next ?_
              hkind ?_ ?_
            · intro x hx
              rw [resolve_next] at hx
              exact Option.some.inj (hx.symm.trans hres)
            · intro x hx
              cases hk : fs'.kind x with
              | none => exact absurd hk hx
              | some k => exact hheight x (by rw [hle x k hk]; simp)
            · rw [List.length_append, List.length_singleton]
              omega
          dsimp only
          rw [ne_eq, Option.map_eq_none_iff]
          exact hloop

end LinkFs

end Lash
