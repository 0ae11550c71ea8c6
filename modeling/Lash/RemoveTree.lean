import Lash.RemoveDir
import Mathlib.Data.List.Induction

/-!
# A directory is removed with what is in it

If every call is permitted, `lash_remove_dir` leaves what `delTree` leaves, as long as no link in
the tree leads to a directory. So a run removes the tree and nothing else
(`NoLinkedDirs.runsInside`).
-/

namespace Lash

namespace LinkFs

/-! ## If all is permitted -/

/-- An entry and everything in it is removed. -/
def delTree (fs : LinkFs) (p : Path) : LinkFs :=
  { fs with entries := fs.entries.filter (fun e => ¬ p <+: e.1) }

section

variable {fs : LinkFs} {p q : Path}

theorem next_of_permitted (h : fs.faults = []) : fs.next = fs := by
  obtain ⟨entries, faults⟩ := fs
  subst h
  rfl

theorem fault_of_permitted (h : fs.faults = []) : fs.fault = false := by
  rw [fault, h]
  rfl

theorem kind_delTree_below (hp : p ≠ []) (h : p <+: q) : (fs.delTree p).kind q = none := by
  have hq : q ≠ [] := by
    rintro rfl
    exact hp (List.prefix_nil.mp h)
  rw [kind, if_neg hq, delTree, List.lookup_eq_none_iff]
  intro e he
  have hnot : ¬ p <+: e.1 := by simpa using (List.mem_filter.mp he).2
  have hne : q ≠ e.1 := fun heq => hnot (heq ▸ h)
  simpa using hne

theorem lookup_filter_of_true {f : Path × FileKind → Bool} {l : List (Path × FileKind)}
    (h : ∀ k, f (q, k) = true) : (l.filter f).lookup q = l.lookup q := by
  induction l with
  | nil => rfl
  | cons e l ih =>
      obtain ⟨a, k⟩ := e
      by_cases ha : q = a
      · subst ha
        rw [List.filter_cons_of_pos (h k), List.lookup_cons, List.lookup_cons]
        simp
      · have hqa : (q == a) = false := by simpa using ha
        rw [List.filter_cons, List.lookup_cons, hqa]
        split
        · rw [List.lookup_cons, hqa, ih]
        · exact ih

theorem kind_delTree_other (h : ¬ p <+: q) : (fs.delTree p).kind q = fs.kind q := by
  rw [kind, kind, delTree]
  dsimp only
  rw [lookup_filter_of_true (fun k => by simpa using h)]

theorem delTree_le (hp : p ≠ []) : fs.delTree p ≤ fs := by
  intro q k hk
  by_cases h : p <+: q
  · rw [kind_delTree_below hp h] at hk
    cases hk
  · rwa [kind_delTree_other h] at hk

/-- What is in an entry is in a name of it. -/
theorem Wf.kind_of_below (h : fs.Wf) {n : CStr} {rest : Path}
    (hk : fs.kind (p ++ n :: rest) ≠ none) : fs.kind (p ++ [n]) ≠ none := by
  induction rest using List.reverseRecOn with
  | nil => exact hk
  | append_singleton rest m ih =>
      apply ih
      obtain ⟨k, hk⟩ := Option.ne_none_iff_exists'.mp hk
      rw [← List.cons_append, ← List.append_assoc] at hk
      rw [h.dir_of_kind hk]
      simp

/-- What is on the way to something is a directory. -/
theorem Wf.dir_of_below (h : fs.Wf) {p rest : Path} (hrest : rest ≠ [])
    (hk : fs.kind (p ++ rest) ≠ none) : fs.kind p = some .dir := by
  obtain ⟨n, rest, rfl⟩ := List.exists_cons_of_ne_nil hrest
  obtain ⟨k, hk⟩ := Option.ne_none_iff_exists'.mp (h.kind_of_below hk)
  exact h.dir_of_kind hk

/-- There is nothing in an entry that is no directory. -/
theorem Wf.del_eq_delTree (h : fs.Wf) (hempty : fs.kind p ≠ some .dir ∨ fs.names p = []) :
    fs.del p = fs.delTree p := by
  have hbelow : ∀ e ∈ fs.entries, p <+: e.1 → e.1 = p := by
    rintro ⟨x, k⟩ he ⟨rest, rfl⟩
    cases rest with
    | nil => simp
    | cons n rest =>
        have hkind : fs.kind (p ++ n :: rest) ≠ none := by simp [h.kind_of_mem he]
        obtain ⟨k', hk'⟩ := Option.ne_none_iff_exists'.mp (h.kind_of_below hkind)
        rcases hempty with hno | hno
        · exact absurd (h.dir_of_kind hk') hno
        · have hmem := mem_names_of_kind hk'
          rw [hno] at hmem
          exact absurd hmem List.not_mem_nil
  rw [LinkFs.del, LinkFs.delTree]
  congr 1
  apply List.filter_congr
  intro e he
  by_cases heq : e.1 = p
  · simp [heq]
  · have hnot : ¬ p <+: e.1 := fun hpre => heq (hbelow e he hpre)
    simp [heq, hnot]

theorem Wf.delTree (h : fs.Wf) (p : Path) : (fs.delTree p).Wf where
  nodup := by
    refine List.Nodup.sublist (List.Sublist.map _ ?_) h.nodup
    exact List.filter_sublist
  ne_nil e he := h.ne_nil e (List.mem_filter.mp he).1
  plain e he := h.plain e (List.mem_filter.mp he).1
  inDir e he := by
    obtain ⟨hmem, hnot⟩ := List.mem_filter.mp he
    have hnot : ¬ p <+: e.1 := by simpa using hnot
    rw [kind_delTree_other (fun hpre => hnot (hpre.trans (List.dropLast_prefix e.1)))]
    exact h.inDir e hmem

theorem entries_delTrees (p : Path) (names : List CStr) (fs : LinkFs) :
    (names.foldl (fun fs n => fs.delTree (p ++ [n])) fs).entries
      = fs.entries.filter (fun e => ∀ n ∈ names, ¬ p ++ [n] <+: e.1) := by
  induction names generalizing fs with
  | nil => simp
  | cons n names ih =>
      rw [List.foldl_cons, ih, LinkFs.delTree, List.filter_filter]
      apply List.filter_congr
      intro e _
      simp [Bool.and_comm]

theorem faults_delTrees (p : Path) (names : List CStr) (fs : LinkFs) :
    (names.foldl (fun fs n => fs.delTree (p ++ [n])) fs).faults = fs.faults := by
  induction names generalizing fs with
  | nil => rfl
  | cons n names ih => exact ih (fs.delTree (p ++ [n]))

theorem unlink_permitted {path : CStr} (hfs : fs.faults = []) (hp : fs.entryAt path = some p)
    (hsome : fs.kind p ≠ none) (hfile : fs.kind p ≠ some .dir) :
    fs.unlink path = (true, fs.del p) := by
  rw [unlink, hp]
  dsimp only
  rw [if_neg (by simp [fault_of_permitted hfs, hsome, hfile]), next_of_permitted hfs]

theorem rmdir_permitted {path : CStr} (hfs : fs.faults = []) (hp : fs.entryAt path = some p)
    (hdir : fs.kind p = some .dir) (hempty : fs.names p = []) :
    fs.rmdir path = (true, fs.del p) := by
  rw [rmdir, hp]
  dsimp only
  rw [if_neg (by simp [fault_of_permitted hfs, hdir, hempty]), next_of_permitted hfs]

theorem stat_permitted (hfs : fs.faults = []) (path : CStr) :
    fs.stat path = ((fs.resolve path).bind fs.kind, fs) := by
  rw [stat, if_neg (by simp [fault_of_permitted hfs]), next_of_permitted hfs]

/-- When the entries in a directory are gone, and then the directory, its tree is. -/
theorem Wf.del_delTrees (h : fs.Wf) (p : Path) :
    ((fs.names p).foldl (fun fs n => fs.delTree (p ++ [n])) fs).del p = fs.delTree p := by
  have hentries : (((fs.names p).foldl (fun fs n => fs.delTree (p ++ [n])) fs).del p).entries
      = (fs.delTree p).entries := by
    rw [entries_del, entries_delTrees, LinkFs.delTree, List.filter_filter]
    apply List.filter_congr
    rintro ⟨x, k⟩ he
    dsimp only
    by_cases hbelow : p <+: x
    · obtain ⟨rest, rfl⟩ := hbelow
      cases rest with
      | nil => simp
      | cons n rest =>
          -- the name that leads on is one of the directory
          have hkind : fs.kind (p ++ n :: rest) ≠ none := by simp [h.kind_of_mem he]
          obtain ⟨k', hk'⟩ := Option.ne_none_iff_exists'.mp (h.kind_of_below hkind)
          have hpre : p ++ [n] <+: p ++ n :: rest := ⟨rest, by simp⟩
          have hnot : ¬ ∀ m ∈ fs.names p, ¬ p ++ [m] <+: p ++ n :: rest :=
            fun hall => hall n (mem_names_of_kind hk') hpre
          rw [decide_eq_false hnot]
          simp
    · have hne : x ≠ p := fun heq => hbelow (heq ▸ List.prefix_refl x)
      have hall : ∀ m ∈ fs.names p, ¬ p ++ [m] <+: x :=
        fun m _ hpre => hbelow ((List.prefix_append p [m]).trans hpre)
      rw [decide_eq_true hall]
      simp [hbelow, hne]
  have hfaults : (((fs.names p).foldl (fun fs n => fs.delTree (p ++ [n])) fs).del p).faults
      = fs.faults := faults_delTrees p (fs.names p) fs
  generalize ((fs.names p).foldl (fun fs n => fs.delTree (p ++ [n])) fs).del p = fs'
    at hentries hfaults
  obtain ⟨entries, faults⟩ := fs'
  dsimp only at hentries hfaults
  rw [hentries, hfaults]
  rfl

end

/-- A run that is permitted everything, on a tree that it has a path to. -/
structure Ready (fs : LinkFs) (d : CStr) (parent : Path) (name : CStr) : Prop where
  wf : fs.Wf
  permitted : fs.faults = []
  noLinks : fs.NoLinkedDirs d parent name
  leads : fs.Leads d parent name
  dir : fs.kind (parent ++ [name]) = some .dir

section

variable {fs : LinkFs} {d name : CStr} {parent : Path}

theorem Ready.way (h : fs.Ready d parent name) :
    fs.resolve (lashGetFqn d name) = some (parent ++ [name]) :=
  resolve_entry h.leads.1 (h.leads.2 fs fun _ _ => rfl) (h.wf.dir_of_kind h.dir) h.dir
    fun t ht => by cases ht

/-- A directory in the tree. -/
theorem Ready.child (h : fs.Ready d parent name) {n : CStr} (hn : PlainName n)
    (hdir : fs.kind (parent ++ [name] ++ [n]) = some .dir) :
    fs.Ready (lashGetFqn d name) (parent ++ [name]) n where
  wf := h.wf
  permitted := h.permitted
  noLinks := h.noLinks.child n
  dir := hdir
  leads := by
    refine ⟨hn, fun fs' hfs' => ?_⟩
    -- outside of the entry nothing has changed, so the directory is still where it was
    have hout : ∀ x, ¬ parent ++ [name] <+: x → fs'.kind x = fs.kind x :=
      fun x hx => hfs' x fun hpre => hx ((List.prefix_append _ [n]).trans hpre)
    have hself : ∀ x : Path, x.length ≤ (parent ++ [name]).length → fs'.kind x = fs.kind x := by
      intro x hx
      apply hfs'
      intro hpre
      have hlen := hpre.length_le
      rw [List.length_append, List.length_singleton] at hlen
      omega
    have hparent : fs'.kind parent = some .dir :=
      (hself parent (by simp)).trans (h.wf.dir_of_kind h.dir)
    have hdir' : fs'.kind (parent ++ [name]) = some .dir := (hself _ (Nat.le_refl _)).trans h.dir
    exact resolve_entry h.leads.1 (h.leads.2 fs' hout) hparent hdir' (fun t ht => by cases ht)

/-- Something in the tree is removed. -/
theorem Ready.delTree (h : fs.Ready d parent name) (n : CStr) :
    (fs.delTree (parent ++ [name] ++ [n])).Ready d parent name where
  wf := h.wf.delTree _
  permitted := h.permitted
  noLinks := h.noLinks.mono (delTree_le (by simp))
  leads := by
    refine ⟨h.leads.1, fun fs' hfs' => h.leads.2 fs' fun x hx => ?_⟩
    rw [hfs' x hx]
    exact kind_delTree_other fun hpre => hx ((List.prefix_append _ [n]).trans hpre)
  dir := by
    rw [kind_delTree_other]
    · exact h.dir
    · intro hpre
      have hlen := hpre.length_le
      rw [List.length_append, List.length_singleton] at hlen
      omega

theorem Ready.delTrees (h : fs.Ready d parent name) (names : List CStr) :
    (names.foldl (fun fs n => fs.delTree (parent ++ [name] ++ [n])) fs).Ready d parent name := by
  induction names generalizing fs with
  | nil => exact h
  | cons n names ih => exact ih (h.delTree n)

/-- The loop removes each name of the directory. -/
theorem Ready.removeEntries (h : fs.Ready d parent name)
    {removeDir : LinkFs → CStr → Option LinkFs} {names : List CStr} (hnodup : names.Nodup)
    (hplain : ∀ n ∈ names, PlainName n)
    (hthere : ∀ n ∈ names, fs.kind (parent ++ [name] ++ [n]) ≠ none)
    (hrec : ∀ fs' : LinkFs, fs' ≤ fs → ∀ n ∈ names,
      fs'.Ready (lashGetFqn d name) (parent ++ [name]) n →
      removeDir fs' (lashGetFqn (lashGetFqn d name) n)
        = some (fs'.delTree (parent ++ [name] ++ [n]))) :
    LinkFs.removeEntries removeDir (lashGetFqn d name) fs names
      = some (true, names.foldl (fun fs n => fs.delTree (parent ++ [name] ++ [n])) fs) := by
  induction names generalizing fs with
  | nil => rfl
  | cons n names ih =>
      obtain ⟨hn, hplain⟩ := List.forall_mem_cons.mp hplain
      obtain ⟨hsome, hthere⟩ := List.forall_mem_cons.mp hthere
      obtain ⟨hnot, hnodup⟩ := List.nodup_cons.mp hnodup
      have hle : fs.delTree (parent ++ [name] ++ [n]) ≤ fs := delTree_le (by simp)
      -- the other names are still there
      have hrest : LinkFs.removeEntries removeDir (lashGetFqn d name)
          (fs.delTree (parent ++ [name] ++ [n])) names = some (true,
            names.foldl (fun fs n => fs.delTree (parent ++ [name] ++ [n]))
              (fs.delTree (parent ++ [name] ++ [n]))) := by
        refine ih (h.delTree n) hnodup hplain ?_ ?_
        · intro m hm
          rw [kind_delTree_other]
          · exact hthere m hm
          · intro hpre
            have hmn := (List.prefix_append_right_inj _).mp hpre
            have heq : n = m := by simpa using hmn
            exact hnot (heq ▸ hm)
        · exact fun fs' hfs' m hm => hrec fs' (le_trans hfs' hle) m (List.mem_cons_of_mem _ hm)
      have hdirkind : fs.kind (parent ++ [name]) = some .dir := h.dir
      rw [LinkFs.removeEntries, stat_permitted h.permitted]
      by_cases hdir : fs.kind (parent ++ [name] ++ [n]) = some .dir
      · have hway := (h.child hn hdir).way
        rw [if_pos (by rw [hway]; exact hdir),
          hrec fs (le_refl fs) n List.mem_cons_self (h.child hn hdir), Option.bind_some, hrest]
        rfl
      · have hstat : (fs.resolve (lashGetFqn (lashGetFqn d name) n)).bind fs.kind ≠ some .dir := by
          intro hbad
          have hin := h.noLinks.entered (n := n) hn
            (fun x hx => Option.some.inj (hx.symm.trans h.way))
            (by rw [stat_permitted h.permitted]; exact hbad)
          exact hdir hin.2
        have hunlink := unlink_permitted h.permitted (entryAt_fqn hn h.way hdirkind) hsome hdir
        rw [if_neg hstat]
        dsimp only
        rw [hunlink]
        dsimp only
        rw [if_pos rfl, h.wf.del_eq_delTree (.inl hdir), hrest]
        rfl

/-- **A run that is permitted everything removes the tree**, and nothing else. -/
theorem Ready.lashRemoveDir (h : fs.Ready d parent name) {height : Nat}
    (hheight : ∀ x, fs.kind x ≠ none → x.length ≤ height) {depth : Nat}
    (hdepth : height < depth + (parent ++ [name]).length) :
    LinkFs.lashRemoveDir depth fs (lashGetFqn d name) = some (fs.delTree (parent ++ [name])) := by
  induction depth generalizing fs d name parent with
  | zero =>
      have hlen := hheight (parent ++ [name]) (by rw [h.dir]; simp)
      omega
  | succ depth ih =>
      have hopen : fs.opendir (lashGetFqn d name) = (some (fs.names (parent ++ [name])), fs) := by
        rw [opendir, h.way]
        dsimp only
        rw [if_neg (by simp [fault_of_permitted h.permitted, h.dir]), next_of_permitted h.permitted]
      have hloop := h.removeEntries (h.wf.names_nodup (parent ++ [name]))
        (fun n hn => h.wf.plainName hn)
        (fun n hn => by
          obtain ⟨k, hk⟩ := h.wf.kind_of_name hn
          rw [hk]
          simp)
        (fun fs' hle n _ hready => ih hready
          (fun x hx => by
            cases hk : fs'.kind x with
            | none => exact absurd hk hx
            | some k => exact hheight x (by rw [hle x k hk]; simp))
          (by
            rw [List.length_append, List.length_singleton]
            omega))
      have hdone := h.delTrees (fs.names (parent ++ [name]))
      have hentry := entryAt_fqn h.leads.1 (hdone.leads.2 _ fun _ _ => rfl)
        (hdone.wf.dir_of_kind hdone.dir)
      -- no name is left
      have hempty : ((fs.names (parent ++ [name])).foldl
          (fun fs n => fs.delTree (parent ++ [name] ++ [n])) fs).names (parent ++ [name]) = [] := by
        apply List.eq_nil_iff_forall_not_mem.mpr
        intro n hn
        obtain ⟨k, hk⟩ := mem_names.mp hn
        rw [entries_delTrees] at hk
        obtain ⟨hmem, hnone⟩ := List.mem_filter.mp hk
        exact (of_decide_eq_true hnone) n (mem_names.mpr ⟨k, hmem⟩) (List.prefix_refl _)
      rw [LinkFs.lashRemoveDir, hopen]
      dsimp only
      rw [hloop, Option.map_some]
      dsimp only
      rw [if_pos rfl, rmdir_permitted hdone.permitted hentry hdone.dir hempty]
      exact congrArg some (h.wf.del_delTrees (parent ++ [name]))

end

/-! ## A run stays inside -/

theorem exists_height (fs : LinkFs) : ∃ height, ∀ x, fs.kind x ≠ none → x.length ≤ height := by
  have hentries : ∃ height, ∀ e ∈ fs.entries, e.1.length ≤ height := by
    induction fs.entries with
    | nil => exact ⟨0, by simp⟩
    | cons e l ih =>
        obtain ⟨height, h⟩ := ih
        refine ⟨max e.1.length height, List.forall_mem_cons.mpr ⟨by omega, fun e' he' => ?_⟩⟩
        have := h e' he'
        omega
  obtain ⟨height, h⟩ := hentries
  refine ⟨height, fun x hx => ?_⟩
  by_cases hnil : x = []
  · simp [hnil]
  · obtain ⟨k, hk⟩ := Option.ne_none_iff_exists'.mp hx
    exact h _ (mem_entries_of_kind hnil hk)

/-- **A run removes the tree and nothing else** if no link in it leads to a directory. -/
theorem NoLinkedDirs.runsInside {fs : LinkFs} {d name : CStr} {parent : Path}
    (h : fs.NoLinkedDirs d parent name) (hwf : fs.Wf) (hleads : fs.Leads d parent name)
    (hdir : fs.kind (parent ++ [name]) = some .dir) : fs.RunsInside d parent name := by
  have hway := resolve_entry hleads.1 (hleads.2 fs fun _ _ => rfl) (hwf.dir_of_kind hdir) hdir
    (fun t ht => by cases ht)
  obtain ⟨height, hheight⟩ := exists_height fs
  have hends : lashRemoveDir (height + 1) fs (lashGetFqn d name) ≠ none :=
    h.ends hwf (fun x hx => Option.some.inj (hx.symm.trans hway)) hdir hheight (by omega)
  obtain ⟨fs', hrun⟩ := Option.ne_none_iff_exists'.mp hends
  refine ⟨height + 1, fs', fun n hn => lashRemoveDir_mono hn hrun, fun x hx hgone => ?_, ?_⟩
  · by_contra hout
    rw [h.stays_inside hwf hleads.1 hway hrun hout] at hgone
    exact hx hgone
  · intro hfs
    have hready : fs.Ready d parent name := ⟨hwf, hfs, h, hleads, hdir⟩
    rw [hready.lashRemoveDir hheight (by omega)] at hrun
    rw [← Option.some.inj hrun]
    exact kind_delTree_below (by simp) (List.prefix_refl _)

end LinkFs

end Lash
