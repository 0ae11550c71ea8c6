import Lash.Format

/-!
# What the operations on the disk do

`Fs.Writes` is the frame of everything that writes files: the directories stay, and nothing changes
outside some paths. Every file of a store is written in one way — created, filled chunk by chunk,
closed — so `writeFile` says once what comes of it, whichever of the steps fail.
-/

namespace Lash

namespace Fs

variable {fs fs' fs'' : Fs} {P Q : Path → Prop} {p q : Path} {f : CStr}

/-! ## Directories -/

@[simp] theorem isDir_root (fs : Fs) : fs.isDir [] = true := by
  simp [isDir, get]

theorem reachesFrom_congr (h : ∀ q, fs'.isDir q = fs.isDir q) (p : Path) (cs : List CStr) :
    fs'.reachesFrom p cs = fs.reachesFrom p cs := by
  induction cs generalizing p with
  | nil => rfl
  | cons c cs ih =>
      cases cs with
      | nil => exact h p
      | cons c' cs => rw [reachesFrom, reachesFrom, h, ih]

/-- Two disks with the same entries have the same directories. -/
theorem lashDirExists_of_entries (h : fs'.entries = fs.entries) (d : CStr) :
    fs'.lashDirExists d = fs.lashDirExists d := by
  have hdir : ∀ q, fs'.isDir q = fs.isDir q := by
    intro q
    rw [isDir, isDir, get, get, h]
  rw [lashDirExists, lashDirExists, reaches, reaches, reachesFrom_congr hdir, hdir]

theorem reachesFrom_append_one (fs : Fs) (p : Path) {cs : List CStr} (c : CStr) (h : cs ≠ []) :
    fs.reachesFrom p (cs ++ [c]) = (fs.reachesFrom p cs && fs.isDir (cs.foldl walk p)) := by
  induction cs generalizing p with
  | nil => exact absurd rfl h
  | cons b cs ih =>
      cases cs with
      | nil => rfl
      | cons b' cs =>
          rw [List.cons_append, List.cons_append, reachesFrom, ← List.cons_append,
            ih (walk p b) (by simp), reachesFrom, Bool.and_assoc]
          rfl

/-- The kernel reaches an entry of a directory if and only if it reaches the directory. -/
theorem reaches_fqn (fs : Fs) (d : CStr) (h : slash ∉ f) :
    fs.reaches (lashGetFqn d f) = fs.lashDirExists d := by
  rw [reaches, splitSlash_fqn, splitSlash_of_not_mem h,
    reachesFrom_append_one fs [] f (splitSlash_ne_nil d)]
  rfl

theorem reaches_of_read {data : List UInt8} (h : fs.read f = some data) : fs.reaches f = true := by
  rw [read] at h
  split at h
  · assumption
  · simp at h

/-- Two names of one file are read alike. -/
theorem read_eq_of_resolve {f' : CStr} (h : fs.reaches f = true) (h' : fs.reaches f' = true)
    (hpath : resolve f = resolve f') : fs.read f = fs.read f' := by
  rw [read, read, if_pos h, if_pos h', hpath]

/-- The disk, with other outcomes of the coming operations. -/
def withFaults (fs : Fs) (faults : List Fault) : Fs := { fs with faults := faults }

@[simp] theorem read_withFaults (fs : Fs) (faults : List Fault) (f : CStr) :
    (fs.withFaults faults).read f = fs.read f := by
  have hreach : (fs.withFaults faults).reaches f = fs.reaches f :=
    @reachesFrom_congr fs (fs.withFaults faults) (fun _ => rfl) [] (splitSlash f)
  rw [read, read, hreach]
  rfl

/-! ## Frames -/

/-- From `fs` to `fs'` only files at paths in `P` are written. -/
structure Writes (fs fs' : Fs) (P : Path → Prop) : Prop where
  frame : ∀ q, ¬ P q → fs'.get q = fs.get q
  dirs : ∀ q, fs'.isDir q = fs.isDir q

namespace Writes

theorem refl (fs : Fs) (P : Path → Prop) : fs.Writes fs P := ⟨fun _ _ => rfl, fun _ => rfl⟩

theorem trans (h : fs.Writes fs' P) (h' : fs'.Writes fs'' P) : fs.Writes fs'' P where
  frame q hq := (h'.frame q hq).trans (h.frame q hq)
  dirs q := (h'.dirs q).trans (h.dirs q)

theorem mono (h : fs.Writes fs' P) (hPQ : ∀ q, P q → Q q) : fs.Writes fs' Q where
  frame q hq := h.frame q (fun hp => hq (hPQ q hp))
  dirs := h.dirs

theorem next (fs : Fs) (P : Path → Prop) : fs.Writes fs.next P := ⟨fun _ _ => rfl, fun _ => rfl⟩

/-- A file is put where no directory is. -/
theorem put (hp : fs.isDir p = false) (data : List UInt8) :
    fs.Writes (fs.put p (.file data)) (· = p) where
  frame q hq := get_put_ne fs _ hq
  dirs q := by
    by_cases hq : q = p
    · subst hq
      have hne : q ≠ [] := by
        rintro rfl
        simp at hp
      rw [hp, isDir, get_put_self fs _ hne]
    · rw [isDir, get_put_ne fs _ hq, isDir]

theorem reaches (h : fs.Writes fs' P) (f : CStr) : fs'.reaches f = fs.reaches f :=
  reachesFrom_congr h.dirs [] (splitSlash f)

theorem bytes (h : fs.Writes fs' P) (hq : ¬ P q) : fs'.bytes q = fs.bytes q := by
  simp only [Fs.bytes, h.frame q hq]

theorem read (h : fs.Writes fs' P) (hf : ¬ P (resolve f)) : fs'.read f = fs.read f := by
  simp only [Fs.read, h.reaches, h.bytes hf]

theorem lashDirExists (h : fs.Writes fs' P)
    (d : CStr) : fs'.lashDirExists d = fs.lashDirExists d := by
  simp only [Fs.lashDirExists, h.reaches, h.dirs]

end Writes

/-- From `fs` to `fs'` directories are made where nothing was. -/
def MakesDirs (fs fs' : Fs) : Prop :=
  ∀ q, fs'.get q = fs.get q ∨ fs.get q = none ∧ fs'.get q = some .dir

theorem MakesDirs.trans (h : fs.MakesDirs fs') (h' : fs'.MakesDirs fs'') : fs.MakesDirs fs'' := by
  intro q
  rcases h q with h | ⟨hnone, hdir⟩
  · rcases h' q with h' | ⟨hnone', hdir'⟩
    · exact Or.inl (h'.trans h)
    · exact Or.inr ⟨h ▸ hnone', hdir'⟩
  · rcases h' q with h' | ⟨hnone', -⟩
    · exact Or.inr ⟨hnone, h'.trans hdir⟩
    · rw [hdir] at hnone'
      simp at hnone'

theorem MakesDirs.bytes (h : fs.MakesDirs fs') (q : Path) : fs'.bytes q = fs.bytes q := by
  rcases h q with h | ⟨hnone, hdir⟩
  · simp only [Fs.bytes, h]
  · simp only [Fs.bytes, hnone, hdir]

theorem MakesDirs.isDir (h : fs.MakesDirs fs') (hq : fs.isDir q = true) : fs'.isDir q = true := by
  rcases h q with h | ⟨hnone, -⟩
  · rw [Fs.isDir, h]
    exact hq
  · simp [Fs.isDir, hnone] at hq

theorem MakesDirs.reachesFrom (h : fs.MakesDirs fs') (cs : List CStr)
    (hr : fs.reachesFrom p cs = true) : fs'.reachesFrom p cs = true := by
  induction cs generalizing p with
  | nil => rfl
  | cons c cs ih =>
      cases cs with
      | nil => exact h.isDir hr
      | cons c' cs =>
          rw [Fs.reachesFrom, Bool.and_eq_true] at hr ⊢
          exact ⟨h.isDir hr.1, ih hr.2⟩

/-- A file that could be read still can. -/
theorem MakesDirs.read {data : List UInt8} (h : fs.MakesDirs fs') (hr : fs.read f = some data) :
    fs'.read f = some data := by
  have hreach : fs'.reaches f = true := h.reachesFrom _ (reaches_of_read hr)
  rw [Fs.read, if_pos (reaches_of_read hr)] at hr
  rw [Fs.read, if_pos hreach, h.bytes, hr]

theorem MakesDirs.lashDirExists {d : CStr} (h : fs.MakesDirs fs') (hd : fs.lashDirExists d = true) :
    fs'.lashDirExists d = true := by
  rw [Fs.lashDirExists, Bool.and_eq_true] at hd ⊢
  exact ⟨h.reachesFrom _ hd.1, h.isDir hd.2⟩

/-- What could be reached is read as before. -/
theorem MakesDirs.read_eq (h : fs.MakesDirs fs') (hr : fs.reaches f = true) :
    fs'.read f = fs.read f := by
  have hreach : fs'.reaches f = true := h.reachesFrom _ hr
  rw [Fs.read, Fs.read, if_pos hr, if_pos hreach, h.bytes]

theorem mkdir_makesDirs (fs : Fs) (cs : List CStr) : fs.MakesDirs (fs.mkdir cs) := by
  intro q
  unfold mkdir
  dsimp only
  split
  · next h =>
      by_cases hq : q = cs.foldl walk []
      · subst hq
        have hne : cs.foldl walk [] ≠ [] := by
          intro he
          rw [he] at h
          simp [get] at h
        exact Or.inr ⟨h.2.1, get_put_self _ _ hne⟩
      · exact Or.inl (get_put_ne _ _ hq)
  · exact Or.inl rfl

theorem createDirRev_makesDirs (fs : Fs) (cs : List CStr) : fs.MakesDirs (fs.createDirRev cs) := by
  induction cs with
  | nil => exact fun q => Or.inl rfl
  | cons c parent ih =>
      rw [createDirRev]
      split
      · exact fun q => Or.inl rfl
      · exact ih.trans (mkdir_makesDirs _ _)

theorem lashCreateDir_makesDirs (fs : Fs) (d : CStr) : fs.MakesDirs (fs.lashCreateDir d) :=
  createDirRev_makesDirs fs _

/-! ## Honest operations -/

/-- All coming operations succeed. -/
def Honest (fs : Fs) : Prop := fs.faults = []

instance (fs : Fs) : Decidable fs.Honest := inferInstanceAs (Decidable (_ = _))

theorem Honest.fault (h : fs.Honest) : fs.fault = none := by
  rw [Fs.fault, h]
  rfl

theorem Honest.next (h : fs.Honest) : fs.next.Honest := by
  rw [Honest, Fs.next, h]
  rfl

theorem Honest.mkdir (h : fs.Honest) (cs : List CStr) : (fs.mkdir cs).Honest := by
  unfold Fs.mkdir
  dsimp only
  split <;> exact h.next

theorem Honest.createDirRev (h : fs.Honest) (cs : List CStr) : (fs.createDirRev cs).Honest := by
  induction cs with
  | nil => exact h
  | cons c parent ih =>
      rw [Fs.createDirRev]
      split
      · exact h
      · exact ih.mkdir _

theorem Honest.lashCreateDir (h : fs.Honest) (d : CStr) : (fs.lashCreateDir d).Honest :=
  h.createDirRev _

/-! ## Writing a file -/

/-- Chunks go to the end of an open file until one cannot be written. -/
def writeAll (fs : Fs) (f : CStr) : List (List UInt8) → Bool × Fs
  | [] => (true, fs)
  | data :: rest =>
    let (ok, fs) := fs.write f data
    if ok then writeAll fs f rest else (false, fs)

/-- A file is created, filled and closed. -/
def writeFile (fs : Fs) (f : CStr) (chunks : List (List UInt8)) : Bool × Fs :=
  let (ok, fs) := fs.creat f
  if ¬ ok then (false, fs)
  else
    let (ok, fs) := fs.writeAll f chunks
    if ¬ ok then (false, (fs.close f).2) else fs.close f

theorem isDir_of_bytes {data : List UInt8} (h : fs.bytes p = some data) : fs.isDir p = false := by
  unfold bytes at h
  unfold isDir
  split at h
  · next hget => rw [hget]
  · simp at h

theorem bytes_put (h : fs.isDir p = false) (data : List UInt8) :
    (fs.put p (.file data)).bytes p = some data := by
  have hne : p ≠ [] := by
    rintro rfl
    simp at h
  simp only [bytes, get_put_self fs _ hne]

/-- What `write` does to an open file. -/
theorem write_spec {old : List UInt8} (h : fs.bytes (resolve f) = some old) (data : List UInt8) :
    fs.Writes (fs.write f data).2 (· = resolve f) ∧
      ∃ new, (fs.write f data).2.bytes (resolve f) = some new ∧
        ((fs.write f data).1 = true → new = old ++ data) := by
  have hdir : fs.next.isDir (resolve f) = false := isDir_of_bytes h
  unfold write
  dsimp only
  rw [h, Option.getD_some]
  split
  · exact ⟨(Writes.next fs _).trans (.put hdir _), _, bytes_put hdir _, fun _ => rfl⟩
  · exact ⟨(Writes.next fs _).trans (.put hdir _), _, bytes_put hdir _, fun hok => by simp at hok⟩

/-- What `close` does to an open file. -/
theorem close_spec {old : List UInt8} (h : fs.bytes (resolve f) = some old) :
    fs.Writes (fs.close f).2 (· = resolve f) ∧
      ((fs.close f).1 = true → (fs.close f).2.bytes (resolve f) = some old) := by
  have hdir : fs.next.isDir (resolve f) = false := isDir_of_bytes h
  unfold close
  split
  · exact ⟨.next fs _, fun _ => h⟩
  · exact ⟨(Writes.next fs _).trans (.put hdir _), fun hok => by simp at hok⟩

theorem writeAll_spec {old : List UInt8} (h : fs.bytes (resolve f) = some old)
    (chunks : List (List UInt8)) :
    fs.Writes (fs.writeAll f chunks).2 (· = resolve f) ∧
      ∃ new, (fs.writeAll f chunks).2.bytes (resolve f) = some new ∧
        ((fs.writeAll f chunks).1 = true → new = old ++ chunks.flatten) := by
  induction chunks generalizing fs old with
  | nil => exact ⟨.refl fs _, old, h, fun _ => by simp⟩
  | cons data rest ih =>
      obtain ⟨hwrites, new, hnew, happend⟩ := write_spec h data
      rw [writeAll]
      generalize fs.write f data = r at hwrites hnew happend
      obtain ⟨ok, fs'⟩ := r
      cases ok with
      | false => exact ⟨hwrites, new, hnew, fun hok => by simp at hok⟩
      | true =>
          obtain ⟨hwrites', new', hnew', happend'⟩ := ih hnew
          refine ⟨hwrites.trans hwrites', new', hnew', fun hok => ?_⟩
          rw [happend' hok, happend rfl, List.flatten_cons, List.append_assoc]

theorem creat_spec (fs : Fs) (f : CStr) :
    fs.Writes (fs.creat f).2 (· = resolve f) ∧
      ((fs.creat f).1 = true →
        fs.reaches f = true ∧ (fs.creat f).2.bytes (resolve f) = some []) := by
  unfold creat
  dsimp only
  split
  · next h =>
      have hdir : fs.next.isDir (resolve f) = false := by simpa using h.2.1
      exact ⟨(Writes.next fs _).trans (.put hdir _), fun _ => ⟨h.1, bytes_put hdir _⟩⟩
  · exact ⟨.next fs _, fun hok => by simp at hok⟩

/-- **Writing a file** changes that file only; if it succeeds, the file can be read and holds what
was written. -/
theorem writeFile_spec (fs : Fs) (f : CStr) (chunks : List (List UInt8)) :
    fs.Writes (fs.writeFile f chunks).2 (· = resolve f) ∧
      ((fs.writeFile f chunks).1 = true →
        (fs.writeFile f chunks).2.read f = some chunks.flatten) := by
  obtain ⟨hcreat, hempty⟩ := creat_spec fs f
  rw [writeFile]
  rcases hc : fs.creat f with ⟨ok, fs₁⟩
  rw [hc] at hcreat hempty
  cases ok with
  | false => exact ⟨hcreat, fun hok => by simp at hok⟩
  | true =>
      obtain ⟨hreach, hbytes⟩ := hempty rfl
      obtain ⟨hall, new, hnew, happend⟩ := writeAll_spec hbytes chunks
      dsimp only at hall hnew happend ⊢
      rcases ha : fs₁.writeAll f chunks with ⟨ok, fs₂⟩
      rw [ha] at hall hnew happend
      obtain ⟨hclose, hkept⟩ := close_spec hnew
      have hwrites := (hcreat.trans hall).trans hclose
      cases ok with
      | false => exact ⟨hwrites, fun hok => by simp at hok⟩
      | true =>
          refine ⟨hwrites, fun hok => ?_⟩
          show (fs₂.close f).2.read f = some chunks.flatten
          rw [read, hwrites.reaches, if_pos hreach, hkept hok, happend rfl, List.nil_append]

theorem Honest.write (h : fs.Honest) (f : CStr) (data : List UInt8) :
    (fs.write f data).1 = true ∧ (fs.write f data).2.Honest := by
  simp only [Fs.write, h.fault]
  exact ⟨trivial, h.next⟩

theorem Honest.close (h : fs.Honest) (f : CStr) :
    (fs.close f).1 = true ∧ (fs.close f).2.Honest := by
  simp only [Fs.close, h.fault]
  exact ⟨trivial, h.next⟩

theorem Honest.writeAll (h : fs.Honest) (f : CStr) (chunks : List (List UInt8)) :
    (fs.writeAll f chunks).1 = true ∧ (fs.writeAll f chunks).2.Honest := by
  induction chunks generalizing fs with
  | nil => exact ⟨rfl, h⟩
  | cons data rest ih =>
      obtain ⟨hok, hhonest⟩ := h.write f data
      rw [Fs.writeAll]
      generalize fs.write f data = r at hok hhonest
      obtain ⟨ok, fs'⟩ := r
      cases hok
      exact ih hhonest

/-- With honest operations a file is written wherever it can be created. -/
theorem Honest.writeFile (h : fs.Honest) (f : CStr) (chunks : List (List UInt8)) :
    ((fs.writeFile f chunks).1 = true ↔ fs.reaches f = true ∧ fs.isDir (resolve f) = false) ∧
      (fs.writeFile f chunks).2.Honest := by
  by_cases hcan : fs.reaches f = true ∧ fs.isDir (resolve f) = false
  · have hcreat : fs.creat f = (true, fs.next.put (resolve f) (.file [])) :=
      if_pos ⟨hcan.1, by simp [hcan.2], h.fault⟩
    have hhonest : (fs.next.put (resolve f) (.file [])).Honest := h.next
    obtain ⟨hok, hall⟩ := hhonest.writeAll f chunks
    rw [Fs.writeFile, hcreat]
    dsimp only
    rcases ha : (fs.next.put (resolve f) (.file [])).writeAll f chunks with ⟨ok, fs'⟩
    rw [ha] at hok hall
    cases hok
    exact ⟨iff_of_true (hall.close f).1 hcan, (hall.close f).2⟩
  · have hcreat : fs.creat f = (false, fs.next) := by
      refine if_neg fun hc => hcan ⟨hc.1, by simpa using hc.2.1⟩
    rw [Fs.writeFile, hcreat]
    exact ⟨iff_of_false (by simp) hcan, h.next⟩

/-! ## Moving -/

/-- What a move that succeeds found. -/
theorem rename_true {old new : CStr} (hok : (fs.rename old new).1 = true) :
    fs.CanRename old new ∧ (fs.rename old new).2 = { fs.next with
      entries := (if resolve old = resolve new then fs else fs.del (resolve new)).entries.map
        (fun e => (movedTo (resolve old) (resolve new) e.1, e.2)) } := by
  unfold rename at hok ⊢
  dsimp only at hok ⊢
  split at hok
  · next hcan =>
      rw [if_pos hcan]
      exact ⟨hcan.1, rfl⟩
  · cases hok

/-- A move that fails leaves the disk. -/
theorem rename_false {old new : CStr} (hok : (fs.rename old new).1 = false) :
    (fs.rename old new).2 = fs.next := by
  unfold rename at hok ⊢
  dsimp only at hok ⊢
  split at hok
  · cases hok
  · next hcan => rw [if_neg hcan]

end Fs

end Lash
