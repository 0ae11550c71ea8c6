import Lash.File
import Mathlib.Data.List.Nodup

/-!
# A file system with symbolic links

What `lash_remove_dir` sees of the kernel: directories, files and symbolic links to anything, the
way a path is resolved, and the calls it makes. Paths are resolved as the kernel does it, one
component after the other, and a link is replaced by its target at most `maxLinks` times.

`fs' ≤ fs` says that nothing is in `fs'` that is not in `fs`. Removing something can make a path
lead nowhere, and never elsewhere (`resolve_mono`).
-/

namespace Lash

/-- What a directory entry is. -/
inductive FileKind where
  | dir
  | file
  | link (target : CStr)
  deriving DecidableEq

/-- The entries, each under the path of directories that leads to it, in the order in which
`readdir` comes to them; and which of the coming calls fail. -/
structure LinkFs where
  entries : List (Path × FileKind)
  faults : List Bool
  deriving DecidableEq

namespace LinkFs

/-- What is found under a path of directories; the root directory is always there. -/
def kind (fs : LinkFs) (p : Path) : Option FileKind :=
  if p = [] then some .dir else fs.entries.lookup p

/-- The names in a directory, without `.` and `..`. -/
def names (fs : LinkFs) (p : Path) : List CStr :=
  fs.entries.filterMap (fun e => if e.1.dropLast = p then e.1.getLast? else none)

/-- An entry is removed. -/
def del (fs : LinkFs) (p : Path) : LinkFs :=
  { fs with entries := fs.entries.filter (fun e => e.1 ≠ p) }

/-- Whether the next call fails. -/
def fault (fs : LinkFs) : Bool := fs.faults.headD false

/-- The file system after a call. -/
def next (fs : LinkFs) : LinkFs := { fs with faults := fs.faults.tail }

/-- Every name is there once, and in a directory. -/
structure Wf (fs : LinkFs) : Prop where
  nodup : (fs.entries.map Prod.fst).Nodup
  ne_nil : ∀ e ∈ fs.entries, e.1 ≠ []
  plain : ∀ e ∈ fs.entries, ∀ n ∈ e.1, PlainName n
  inDir : ∀ e ∈ fs.entries, fs.kind e.1.dropLast = some .dir

/-! ## Resolving a path -/

/-- `MAXSYMLINKS` -/
def maxLinks : Nat := 40

/-- From a directory, one component after the other; `follow` goes on with the target of a link. -/
def walkNames (fs : LinkFs) (follow : Path → List CStr → Option Path) :
    Path → List CStr → Option Path
  | p, [] => some p
  | p, c :: cs =>
    if fs.kind p ≠ some .dir then none
    else if c = [] ∨ c = cstr "." then walkNames fs follow p cs
    else if c = cstr ".." then walkNames fs follow p.dropLast cs
    else match fs.kind (p ++ [c]) with
      | none => none
      | some (.link target) =>
        follow (if target.head? = some slash then [] else p) (splitSlash target ++ cs)
      | some _ => walkNames fs follow (p ++ [c]) cs

/-- The same with so many links at most. -/
def walkLinks (fs : LinkFs) : Nat → Path → List CStr → Option Path
  | 0 => walkNames fs (fun _ _ => none)
  | n + 1 => walkNames fs (walkLinks fs n)

/-- What a path leads to. -/
def resolve (fs : LinkFs) (path : CStr) : Option Path := fs.walkLinks maxLinks [] (splitSlash path)

/-- The directory entry that a path names: a link at its end is not followed. -/
def entryAt (fs : LinkFs) (path : CStr) : Option Path :=
  match fs.walkLinks maxLinks [] (splitSlash path).dropLast, (splitSlash path).getLast? with
  | some p, some n => if fs.kind p = some .dir ∧ PlainName n then some (p ++ [n]) else none
  | _, _ => none

/-! ## Calls -/

/-- `opendir`, and the names that `readdir` gives then. -/
def opendir (fs : LinkFs) (path : CStr) : Option (List CStr) × LinkFs :=
  match fs.resolve path with
  | none => (none, fs.next)
  | some p => (if fs.fault ∨ fs.kind p ≠ some .dir then none else some (fs.names p), fs.next)

/-- `stat` -/
def stat (fs : LinkFs) (path : CStr) : Option FileKind × LinkFs :=
  (if fs.fault then none else (fs.resolve path).bind fs.kind, fs.next)

/-- `unlink`, which removes everything but a directory. -/
def unlink (fs : LinkFs) (path : CStr) : Bool × LinkFs :=
  match fs.entryAt path with
  | none => (false, fs.next)
  | some p =>
    if fs.fault ∨ fs.kind p = none ∨ fs.kind p = some .dir then (false, fs.next)
    else (true, fs.next.del p)

/-- `rmdir`, which removes an empty directory. -/
def rmdir (fs : LinkFs) (path : CStr) : Bool × LinkFs :=
  match fs.entryAt path with
  | none => (false, fs.next)
  | some p =>
    if fs.fault ∨ fs.kind p ≠ some .dir ∨ fs.names p ≠ [] then (false, fs.next)
    else (true, fs.next.del p)

/-! ## Less in it -/

/-- Nothing is in a file system that is not in another one. -/
instance : LE LinkFs := ⟨fun fs' fs => ∀ p k, fs'.kind p = some k → fs.kind p = some k⟩

section

variable {fs fs' fs'' : LinkFs}

theorem le_refl (fs : LinkFs) : fs ≤ fs := fun _ _ h => h

theorem le_trans (h : fs'' ≤ fs') (h' : fs' ≤ fs) : fs'' ≤ fs := fun p k hk => h' p k (h p k hk)

@[simp] theorem kind_next (fs : LinkFs) (p : Path) : fs.next.kind p = fs.kind p := rfl

@[simp] theorem entries_next (fs : LinkFs) : fs.next.entries = fs.entries := rfl

@[simp] theorem faults_next (fs : LinkFs) : fs.next.faults = fs.faults.tail := rfl

@[simp] theorem entries_del (fs : LinkFs) (p : Path) :
    (fs.del p).entries = fs.entries.filter (fun e => e.1 ≠ p) := rfl

@[simp] theorem faults_del (fs : LinkFs) (p : Path) : (fs.del p).faults = fs.faults := rfl

theorem kind_root (fs : LinkFs) : fs.kind [] = some .dir := if_pos rfl

theorem kind_del_ne (fs : LinkFs) {p q : Path} (h : q ≠ p) : (fs.del p).kind q = fs.kind q := by
  simp only [kind, entries_del, Fs.lookup_filter_ne h]

theorem kind_del_self (fs : LinkFs) {p : Path} (h : p ≠ []) : (fs.del p).kind p = none := by
  rw [kind, if_neg h, entries_del, List.lookup_eq_none_iff]
  intro e he
  have hne := (List.mem_filter.mp he).2
  simp only [ne_eq, decide_not, Bool.not_eq_eq_eq_not, Bool.not_true, decide_eq_false_iff_not]
    at hne
  simpa using Ne.symm hne

theorem del_le (fs : LinkFs) {p : Path} (h : p ≠ []) : fs.del p ≤ fs := by
  intro q k hk
  by_cases hq : q = p
  · rw [hq, kind_del_self fs h] at hk
    cases hk
  · rwa [kind_del_ne fs hq] at hk

/-! ## The way of a path -/

theorem walkNames_mono {f' f : Path → List CStr → Option Path} (h : fs' ≤ fs)
    (hf : ∀ p cs x, f' p cs = some x → f p cs = some x) {p : Path} {cs : List CStr} {x : Path}
    (hx : walkNames fs' f' p cs = some x) : walkNames fs f p cs = some x := by
  induction cs generalizing p with
  | nil => exact hx
  | cons c cs ih =>
      rw [walkNames] at hx ⊢
      by_cases hdir : fs'.kind p = some .dir
      · rw [if_neg (not_not_intro hdir)] at hx
        rw [if_neg (not_not_intro (h p _ hdir))]
        split_ifs at hx ⊢ with hdot hup
        · exact ih hx
        · exact ih hx
        · cases hk : fs'.kind (p ++ [c]) with
          | none =>
              rw [hk] at hx
              cases hx
          | some k =>
              rw [hk] at hx
              rw [h _ _ hk]
              cases k with
              | dir => exact ih hx
              | file => exact ih hx
              | link target => exact hf _ _ _ hx
      · rw [if_pos hdir] at hx
        cases hx

/-- With less in it, and fewer links to follow, a path leads to the same or nowhere. -/
theorem walkLinks_mono (h : fs' ≤ fs) {m n : Nat} (hmn : m ≤ n) {p : Path} {cs : List CStr}
    {x : Path} (hx : fs'.walkLinks m p cs = some x) : fs.walkLinks n p cs = some x := by
  induction n generalizing m p cs x with
  | zero =>
      obtain rfl : m = 0 := by omega
      exact walkNames_mono h (fun _ _ _ hnone => by cases hnone) hx
  | succ n ih =>
      cases m with
      | zero => exact walkNames_mono h (fun _ _ _ hnone => by cases hnone) hx
      | succ m => exact walkNames_mono h (fun _ _ _ => ih (by omega)) hx

/-- **A path leads to the same or nowhere** when something is removed. -/
theorem resolve_mono (h : fs' ≤ fs) {path : CStr} {x : Path} (hx : fs'.resolve path = some x) :
    fs.resolve path = some x := walkLinks_mono h (Nat.le_refl _) hx

/-- With the same in it, a path leads to the same. -/
theorem resolve_congr (h : fs' ≤ fs) (h' : fs ≤ fs') (path : CStr) :
    fs'.resolve path = fs.resolve path := by
  cases hx : fs'.resolve path with
  | none =>
      cases hy : fs.resolve path with
      | none => rfl
      | some y =>
          rw [resolve_mono h' hy] at hx
          cases hx
  | some x => exact (resolve_mono h hx).symm

@[simp] theorem resolve_next (fs : LinkFs) (path : CStr) : fs.next.resolve path = fs.resolve path :=
  resolve_congr (show fs.next ≤ fs from fun _ _ h => h) (show fs ≤ fs.next from fun _ _ h => h) path

/-- A path is a path and what is appended to it. -/
theorem walkLinks_append {n : Nat} {p x : Path} {cs ds : List CStr}
    (hx : fs.walkLinks n p (cs ++ ds) = some x) :
    ∃ q, fs.walkLinks n p cs = some q ∧ fs.walkLinks n q ds = some x := by
  induction n generalizing p cs x with
  | zero =>
      induction cs generalizing p with
      | nil => exact ⟨p, rfl, hx⟩
      | cons c cs ih =>
          rw [List.cons_append, walkLinks, walkNames] at hx
          rw [walkLinks, walkNames]
          split_ifs at hx ⊢ with hdir hdot hup
          · exact ih hx
          · exact ih hx
          · split at hx
            · cases hx
            · cases hx
            · exact ih hx
  | succ n ihn =>
      induction cs generalizing p with
      | nil => exact ⟨p, rfl, hx⟩
      | cons c cs ih =>
          rw [List.cons_append, walkLinks, walkNames] at hx
          rw [walkLinks, walkNames]
          split_ifs at hx ⊢ with hdir hdot hup
          · exact ih hx
          · exact ih hx
          · split at hx
            · cases hx
            · -- the target of the link takes the place of the name
              rw [← List.append_assoc] at hx
              obtain ⟨q, hq, hrest⟩ := ihn hx
              exact ⟨q, hq, walkLinks_mono (le_refl fs) (Nat.le_succ n) hrest⟩
            · exact ih hx

/-- An entry of a directory that is no link is found where the directory is. -/
theorem walkLinks_concat {n : Nat} {p q : Path} {cs : List CStr} {c : CStr} {k : FileKind}
    (hx : fs.walkLinks n p cs = some q) (hc : PlainName c) (hdir : fs.kind q = some .dir)
    (hk : fs.kind (q ++ [c]) = some k) (hlink : ∀ t, k ≠ .link t) :
    fs.walkLinks n p (cs ++ [c]) = some (q ++ [c]) := by
  have hlast : ∀ f : Path → List CStr → Option Path,
      walkNames fs f q [c] = some (q ++ [c]) := by
    intro f
    obtain ⟨hne, -, hdot, hup⟩ := hc
    rw [walkNames, if_neg (not_not_intro hdir), if_neg (by simp [hne, hdot]), if_neg hup, hk]
    cases k with
    | dir => rfl
    | file => rfl
    | link t => exact absurd rfl (hlink t)
  induction n generalizing p cs with
  | zero =>
      induction cs generalizing p with
      | nil =>
          obtain rfl : p = q := Option.some.inj hx
          exact hlast _
      | cons d cs ih =>
          rw [walkLinks, walkNames] at hx
          rw [List.cons_append, walkLinks, walkNames]
          split_ifs at hx ⊢ with hdir' hdot hup
          · exact ih hx
          · exact ih hx
          · split at hx
            · cases hx
            · cases hx
            · exact ih hx
  | succ n ihn =>
      induction cs generalizing p with
      | nil =>
          obtain rfl : p = q := Option.some.inj hx
          exact hlast _
      | cons d cs ih =>
          rw [walkLinks, walkNames] at hx
          rw [List.cons_append, walkLinks, walkNames]
          split_ifs at hx ⊢ with hdir' hdot hup
          · exact ih hx
          · exact ih hx
          · split at hx
            · cases hx
            · rw [← List.append_assoc]
              exact ihn hx
            · exact ih hx

theorem splitSlash_name {n : CStr} (h : PlainName n) (d : CStr) :
    splitSlash (lashGetFqn d n) = splitSlash d ++ [n] := by
  rw [splitSlash_fqn, splitSlash_of_not_mem h.2.1]

/-- A path to an entry of a directory leads through the directory. -/
theorem resolve_fqn {d n : CStr} (hn : PlainName n) {x : Path}
    (hx : fs.resolve (lashGetFqn d n) = some x) :
    ∃ p, fs.resolve d = some p ∧ fs.kind p = some .dir ∧
      fs.walkLinks maxLinks p [n] = some x := by
  rw [resolve, splitSlash_name hn] at hx
  obtain ⟨p, hp, hlast⟩ := walkLinks_append hx
  refine ⟨p, hp, ?_, hlast⟩
  by_contra hdir
  rw [maxLinks, walkLinks, walkNames, if_pos hdir] at hlast
  cases hlast

/-- What is found at the end of a path through a directory: the entry, or where it leads. -/
theorem walkLinks_one {n : CStr} (hn : PlainName n) {p x : Path}
    (hx : fs.walkLinks maxLinks p [n] = some x) :
    x = p ++ [n] ∧ (fs.kind (p ++ [n]) = some .dir ∨ fs.kind (p ++ [n]) = some .file) ∨
      ∃ t, fs.kind (p ++ [n]) = some (.link t) := by
  obtain ⟨hne, -, hdot, hup⟩ := hn
  rw [maxLinks, walkLinks, walkNames] at hx
  split_ifs at hx with hdir hname
  · exact absurd hname (by simp [hne, hdot])
  · cases hk : fs.kind (p ++ [n]) with
    | none =>
        rw [hk] at hx
        cases hx
    | some k =>
        rw [hk] at hx
        cases k with
        | dir => exact .inl ⟨(Option.some.inj hx).symm, .inl rfl⟩
        | file => exact .inl ⟨(Option.some.inj hx).symm, .inr rfl⟩
        | link t => exact .inr ⟨t, rfl⟩

theorem resolve_entry {d n : CStr} (hn : PlainName n) {p : Path} (hp : fs.resolve d = some p)
    (hdir : fs.kind p = some .dir) {k : FileKind} (hk : fs.kind (p ++ [n]) = some k)
    (hlink : ∀ t, k ≠ .link t) : fs.resolve (lashGetFqn d n) = some (p ++ [n]) := by
  rw [resolve, splitSlash_name hn]
  exact walkLinks_concat hp hn hdir hk hlink

/-- The entry that a path in a directory names. -/
theorem entryAt_fqn {d n : CStr} (hn : PlainName n) {p : Path} (hp : fs.resolve d = some p)
    (hdir : fs.kind p = some .dir) : fs.entryAt (lashGetFqn d n) = some (p ++ [n]) := by
  have hwalk : fs.walkLinks maxLinks [] (splitSlash d) = some p := hp
  rw [entryAt, splitSlash_name hn, List.dropLast_concat, List.getLast?_concat, hwalk]
  exact if_pos ⟨hdir, hn⟩

theorem of_entryAt_fqn {d n : CStr} (hn : PlainName n) {y : Path}
    (h : fs.entryAt (lashGetFqn d n) = some y) :
    ∃ p, fs.resolve d = some p ∧ fs.kind p = some .dir ∧ y = p ++ [n] := by
  rw [entryAt, splitSlash_name hn, List.dropLast_concat, List.getLast?_concat] at h
  cases hwalk : fs.walkLinks maxLinks [] (splitSlash d) with
  | none =>
      rw [hwalk] at h
      cases h
  | some p =>
      rw [hwalk] at h
      dsimp only at h
      split_ifs at h with hdir
      exact ⟨p, hwalk, hdir.1, (Option.some.inj h).symm⟩

/-! ## What the calls do -/

theorem ne_nil_of_entryAt {path : CStr} {y : Path} (h : fs.entryAt path = some y) : y ≠ [] := by
  unfold entryAt at h
  split at h
  · split_ifs at h
    rw [← Option.some.inj h]
    simp
  · cases h

/-- `unlink` leaves all as it was or removes the entry. -/
theorem unlink_cases (fs : LinkFs) (path : CStr) :
    fs.unlink path = (false, fs.next) ∨ ∃ y, fs.entryAt path = some y ∧ fs.fault = false ∧
      fs.kind y ≠ none ∧ fs.kind y ≠ some .dir ∧ fs.unlink path = (true, fs.next.del y) := by
  rw [unlink]
  cases hy : fs.entryAt path with
  | none => exact .inl rfl
  | some y =>
      dsimp only
      split_ifs with hbad
      · exact .inl rfl
      · rw [not_or, not_or, Bool.not_eq_true] at hbad
        exact .inr ⟨y, rfl, hbad.1, hbad.2.1, hbad.2.2, rfl⟩

/-- `rmdir` leaves all as it was or removes the empty directory. -/
theorem rmdir_cases (fs : LinkFs) (path : CStr) :
    fs.rmdir path = (false, fs.next) ∨ ∃ y, fs.entryAt path = some y ∧ fs.kind y = some .dir ∧
      fs.names y = [] ∧ fs.rmdir path = (true, fs.next.del y) := by
  rw [rmdir]
  cases hy : fs.entryAt path with
  | none => exact .inl rfl
  | some y =>
      dsimp only
      split_ifs with hbad
      · exact .inl rfl
      · rw [not_or, not_or, not_not, not_not] at hbad
        exact .inr ⟨y, rfl, hbad.2.1, hbad.2.2, rfl⟩

theorem unlink_le (fs : LinkFs) (path : CStr) : (fs.unlink path).2 ≤ fs := by
  rcases unlink_cases fs path with h | ⟨y, hy, -, -, -, h⟩
  · rw [h]
    exact le_refl fs
  · rw [h]
    exact del_le fs.next (ne_nil_of_entryAt hy)

theorem rmdir_le (fs : LinkFs) (path : CStr) : (fs.rmdir path).2 ≤ fs := by
  rcases rmdir_cases fs path with h | ⟨y, hy, -, -, h⟩
  · rw [h]
    exact le_refl fs
  · rw [h]
    exact del_le fs.next (ne_nil_of_entryAt hy)

/-! ## Names -/

theorem mem_names {p : Path} {n : CStr} :
    n ∈ fs.names p ↔ ∃ k, (p ++ [n], k) ∈ fs.entries := by
  rw [names, List.mem_filterMap]
  constructor
  · rintro ⟨⟨q, k⟩, he, hn⟩
    split_ifs at hn with hq
    refine ⟨k, ?_⟩
    dsimp only at hq hn
    rw [← hq, List.dropLast_append_getLast? n hn]
    exact he
  · rintro ⟨k, he⟩
    exact ⟨(p ++ [n], k), he, by simp⟩

theorem mem_entries_of_kind {p : Path} {k : FileKind} (hp : p ≠ []) (h : fs.kind p = some k) :
    (p, k) ∈ fs.entries := by
  rw [kind, if_neg hp] at h
  obtain ⟨l₁, l₂, hsplit, -⟩ := List.lookup_eq_some_iff.mp h
  rw [hsplit]
  exact List.mem_append_right _ List.mem_cons_self

theorem mem_names_of_kind {p : Path} {n : CStr} {k : FileKind} (h : fs.kind (p ++ [n]) = some k) :
    n ∈ fs.names p :=
  mem_names.mpr ⟨k, mem_entries_of_kind (by simp) h⟩

theorem kind_of_mem (hnodup : (fs.entries.map Prod.fst).Nodup) {p : Path} (hp : p ≠ [])
    {k : FileKind} (he : (p, k) ∈ fs.entries) : fs.kind p = some k := by
  rw [kind, if_neg hp, List.lookup_eq_some_iff]
  obtain ⟨l₁, l₂, hsplit⟩ := List.append_of_mem he
  refine ⟨l₁, l₂, hsplit, fun e hmem => ?_⟩
  rw [hsplit, List.map_append, List.map_cons] at hnodup
  have hne : e.1 ≠ p := by
    rintro rfl
    exact (List.nodup_append.mp hnodup).2.2 _ (List.mem_map_of_mem hmem) _ List.mem_cons_self rfl
  simpa using hne.symm

theorem Wf.kind_of_mem (h : fs.Wf) {p : Path} {k : FileKind} (he : (p, k) ∈ fs.entries) :
    fs.kind p = some k := LinkFs.kind_of_mem h.nodup (h.ne_nil _ he) he

theorem Wf.kind_of_name (h : fs.Wf) {p : Path} {n : CStr} (hn : n ∈ fs.names p) :
    ∃ k, fs.kind (p ++ [n]) = some k := by
  obtain ⟨k, he⟩ := mem_names.mp hn
  exact ⟨k, h.kind_of_mem he⟩

theorem Wf.plainName (h : fs.Wf) {p : Path} {n : CStr} (hn : n ∈ fs.names p) : PlainName n := by
  obtain ⟨k, he⟩ := mem_names.mp hn
  exact h.plain _ he n (List.mem_append_right _ (List.mem_singleton_self n))

theorem Wf.names_nodup (h : fs.Wf) (p : Path) : (fs.names p).Nodup := by
  have hpaths : fs.names p = (fs.entries.map Prod.fst).filterMap
      (fun q => if q.dropLast = p then q.getLast? else none) := by
    rw [List.filterMap_map]
    rfl
  rw [hpaths]
  refine List.Nodup.filterMap (fun q q' n hq hq' => ?_) h.nodup
  have hlast : ∀ {q : Path}, (if q.dropLast = p then q.getLast? else none) = some n →
      q = p ++ [n] := by
    intro q hq
    split_ifs at hq with hp
    rw [← hp, List.dropLast_append_getLast? n hq]
  exact (hlast hq).trans (hlast hq').symm

/-- What is in something is in a directory. -/
theorem Wf.dir_of_kind (h : fs.Wf) {p : Path} {n : CStr} {k : FileKind}
    (hk : fs.kind (p ++ [n]) = some k) : fs.kind p = some .dir := by
  have hdir := h.inDir _ (mem_entries_of_kind (by simp) hk)
  rwa [List.dropLast_concat] at hdir

theorem Wf.next (h : fs.Wf) : fs.next.Wf := ⟨h.nodup, h.ne_nil, h.plain, h.inDir⟩

/-! ## Another order -/

theorem Wf.kind_perm (h : fs.Wf) (hperm : fs'.entries.Perm fs.entries) (p : Path) :
    fs'.kind p = fs.kind p := by
  by_cases hp : p = []
  · rw [hp, kind_root, kind_root]
  · have hnodup : (fs'.entries.map Prod.fst).Nodup := (hperm.map Prod.fst).nodup_iff.mpr h.nodup
    apply Option.ext
    intro k
    constructor
    · exact fun hk => h.kind_of_mem (hperm.mem_iff.mp (mem_entries_of_kind hp hk))
    · exact fun hk => LinkFs.kind_of_mem hnodup hp (hperm.mem_iff.mpr (mem_entries_of_kind hp hk))

theorem Wf.perm (h : fs.Wf) (hperm : fs'.entries.Perm fs.entries) : fs'.Wf where
  nodup := (hperm.map Prod.fst).nodup_iff.mpr h.nodup
  ne_nil e he := h.ne_nil e (hperm.mem_iff.mp he)
  plain e he := h.plain e (hperm.mem_iff.mp he)
  inDir e he := (h.kind_perm hperm _).trans (h.inDir e (hperm.mem_iff.mp he))

/-- An entry with nothing in it can be removed. -/
theorem Wf.del (h : fs.Wf) {p : Path} (hp : fs.kind p ≠ some .dir ∨ fs.names p = []) :
    (fs.del p).Wf where
  nodup := by
    refine List.Nodup.sublist (List.Sublist.map _ ?_) h.nodup
    exact List.filter_sublist
  ne_nil e he := h.ne_nil e (List.mem_filter.mp he).1
  plain e he := h.plain e (List.mem_filter.mp he).1
  inDir e he := by
    have hmem := (List.mem_filter.mp he).1
    have hdir := h.inDir e hmem
    have hne : e.1.dropLast ≠ p := by
      rintro rfl
      rcases hp with hp | hp
      · exact hp hdir
      · have hlast : e.1.dropLast ++ [e.1.getLast (h.ne_nil e hmem)] = e.1 :=
          List.dropLast_append_getLast _
        have hname : e.1.getLast (h.ne_nil e hmem) ∈ fs.names e.1.dropLast :=
          mem_names.mpr ⟨e.2, by rw [hlast]; exact hmem⟩
        rw [hp] at hname
        exact absurd hname List.not_mem_nil
    rw [kind_del_ne fs hne]
    exact hdir

theorem Wf.unlink (h : fs.Wf) (path : CStr) : (fs.unlink path).2.Wf := by
  rcases unlink_cases fs path with he | ⟨y, -, -, -, hdir, he⟩
  · rw [he]
    exact h.next
  · rw [he]
    exact h.next.del (.inl hdir)

theorem Wf.rmdir (h : fs.Wf) (path : CStr) : (fs.rmdir path).2.Wf := by
  rcases rmdir_cases fs path with he | ⟨y, -, -, hempty, he⟩
  · rw [he]
    exact h.next
  · rw [he]
    exact h.next.del (.inr hempty)

end

end LinkFs

end Lash
