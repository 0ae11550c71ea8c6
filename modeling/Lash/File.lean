import Lash.Types

/-!
# The file system, as the daemon uses it

`Fs` is a finite map from absolute paths to directories and files, with the operations of
`lashd/file.c` and the system calls the daemon makes. Paths are handed around as C strings and
resolved when an operation needs them (`resolve`), so `dir/../x` names what the kernel would find;
like the kernel, an operation wants a directory at every step on the way (`reaches`).

Every operation that changes the disk may fail, and so may an `opendir` whose error is looked at.
Which ones do is decided outside the daemon: `Fs` carries the outcomes of the coming operations
(`faults`), and an operation takes the next one; when none is left everything succeeds.
-/

namespace Lash

/-! ## Paths -/

/-- An absolute path without `.`, `..` and empty components. -/
abbrev Path := List CStr

/-- The parts of a string between its slashes. -/
def splitSlash : CStr → List CStr
  | [] => [[]]
  | b :: s =>
    if b = slash then [] :: splitSlash s
    else match splitSlash s with
      | [] => [[b]]
      | c :: cs => (b :: c) :: cs

/-- One step of path resolution. -/
def walk (p : Path) (c : CStr) : Path :=
  if c = [] ∨ c = cstr "." then p
  else if c = cstr ".." then p.dropLast
  else p ++ [c]

/-- The path a C string names. -/
def resolve (s : CStr) : Path := (splitSlash s).foldl walk []

/-- The components of a name without the empty ones at its end. -/
def stem (d : CStr) : List CStr := ((splitSlash d).reverse.dropWhile (· = [])).reverse

/-- The name of something after `old` was moved to `new`. -/
def movedTo (old new p : Path) : Path :=
  if old.isPrefixOf p then new ++ p.drop old.length else p

/-- `lash_get_fqn(dir, file)`: `dir/file`. -/
def lashGetFqn (dir file : CStr) : CStr := dir ++ slash :: file

/-- A name of one directory entry: not empty, no slash, neither `.` nor `..`. -/
def PlainName (s : CStr) : Prop := s ≠ [] ∧ slash ∉ s ∧ s ≠ cstr "." ∧ s ≠ cstr ".."

instance (s : CStr) : Decidable (PlainName s) :=
  inferInstanceAs (Decidable (_ ∧ _ ∧ _ ∧ _))

theorem splitSlash_of_not_mem {s : CStr} (h : slash ∉ s) : splitSlash s = [s] := by
  induction s with
  | nil => rfl
  | cons b s ih =>
      have hb : b ≠ slash := fun e => h (by simp [e])
      have hs : slash ∉ s := fun hm => h (by simp [hm])
      rw [splitSlash, if_neg hb, ih hs]

theorem splitSlash_ne_nil (s : CStr) : splitSlash s ≠ [] := by
  cases s with
  | nil => simp [splitSlash]
  | cons b s =>
      rw [splitSlash]
      split
      · simp
      · split <;> simp

theorem splitSlash_fqn (d f : CStr) :
    splitSlash (lashGetFqn d f) = splitSlash d ++ splitSlash f := by
  unfold lashGetFqn
  induction d with
  | nil => simp [splitSlash]
  | cons b d ih =>
      rw [List.cons_append, splitSlash, splitSlash, ih]
      by_cases hb : b = slash
      · simp [hb]
      · rw [if_neg hb, if_neg hb]
        cases hd : splitSlash d with
        | nil => exact absurd hd (splitSlash_ne_nil d)
        | cons c cs => simp

/-- A plain name appended to a directory names an entry of that directory. -/
theorem resolve_fqn {f : CStr} (d : CStr) (h : PlainName f) :
    resolve (lashGetFqn d f) = resolve d ++ [f] := by
  obtain ⟨hne, hsl, hdot, hdd⟩ := h
  rw [resolve, splitSlash_fqn, splitSlash_of_not_mem hsl, List.foldl_append, List.foldl_cons,
    List.foldl_nil, walk, if_neg (by simp [hne, hdot]), if_neg hdd]
  rfl

/-! ## The map -/

inductive Node where
  | dir
  | file (data : List UInt8)
  /-- A file that libxml2 wrote, as the document it wrote. -/
  | xml (doc : XmlDoc)

/-- The outcome of an operation: `none` is success, `some n` is failure with `n` bytes written. -/
abbrev Fault := Option Nat

structure Fs where
  entries : List (Path × Node)
  faults : List Fault

/-- What `opendir` finds. -/
inductive Opendir where
  | opened
  /-- `ENOTDIR` -/
  | notDir
  /-- `ENOENT` -/
  | missing
  /-- Any other error. -/
  | failed
  deriving DecidableEq

namespace Fs

/-- What is found at a path; the root directory is always there. -/
def get (fs : Fs) (p : Path) : Option Node :=
  if p = [] then some .dir else fs.entries.lookup p

def put (fs : Fs) (p : Path) (n : Node) : Fs :=
  { fs with entries := (p, n) :: fs.entries.filter (fun e => e.1 ≠ p) }

def del (fs : Fs) (p : Path) : Fs :=
  { fs with entries := fs.entries.filter (fun e => e.1 ≠ p) }

/-- Remove a path and everything below it. -/
def delTree (fs : Fs) (p : Path) : Fs :=
  { fs with entries := fs.entries.filter (fun e => !p.isPrefixOf e.1) }

def isDir (fs : Fs) (p : Path) : Bool :=
  match fs.get p with
  | some .dir => true
  | _ => false

/-- The outcome of the next operation. -/
def fault (fs : Fs) : Fault := fs.faults.headD none

/-- The file system after an outcome was taken. -/
def next (fs : Fs) : Fs := { fs with faults := fs.faults.tail }

@[simp] theorem next_entries (fs : Fs) : fs.next.entries = fs.entries := rfl

@[simp] theorem get_next (fs : Fs) (p : Path) : fs.next.get p = fs.get p := rfl

@[simp] theorem isDir_next (fs : Fs) (p : Path) : fs.next.isDir p = fs.isDir p := rfl

theorem lookup_filter_ne {β : Type} {p q : Path} (h : q ≠ p) (l : List (Path × β)) :
    (l.filter (fun e => e.1 ≠ p)).lookup q = l.lookup q := by
  induction l with
  | nil => rfl
  | cons e l ih =>
      obtain ⟨a, n⟩ := e
      by_cases ha : a = p
      · subst ha
        have hqa : (q == a) = false := by simpa using h
        rw [List.filter_cons_of_neg (by simp), ih, List.lookup_cons, hqa]
      · rw [List.filter_cons_of_pos (by simpa using ha), List.lookup_cons, List.lookup_cons, ih]

theorem get_put_self (fs : Fs) {p : Path} (n : Node)
    (h : p ≠ []) : (fs.put p n).get p = some n := by
  simp [get, put, h]

theorem get_put_ne (fs : Fs) {p q : Path} (n : Node) (h : q ≠ p) :
    (fs.put p n).get q = fs.get q := by
  have hqp : (q == p) = false := by simpa using h
  simp only [get, put, List.lookup_cons, hqp, lookup_filter_ne h]

/-! ## Looking up a path -/

/-- From `p` on, there is a directory at every step on the way to the last component. -/
def reachesFrom (fs : Fs) (p : Path) : List CStr → Bool
  | [] => true
  | [_] => fs.isDir p
  | c :: c' :: cs => fs.isDir p && reachesFrom fs (walk p c) (c' :: cs)

/-- There is a directory at every step on the way to the last component of a path. -/
def reaches (fs : Fs) (f : CStr) : Bool := fs.reachesFrom [] (splitSlash f)

/-- What the kernel finds at a path. -/
def lookup (fs : Fs) (f : CStr) : Option Node :=
  if fs.reaches f then fs.get (resolve f) else none

/-- From `p` on, something that is no directory is found before anything is missing. -/
def meetsFile (fs : Fs) (p : Path) : List CStr → Bool
  | [] => (fs.get p).isSome && !fs.isDir p
  | c :: cs => if fs.isDir p then meetsFile fs (walk p c) cs else (fs.get p).isSome

/-- The entries strictly below a path. -/
def below (fs : Fs) (p : Path) : List (Path × Node) :=
  fs.entries.filter (fun e => p.isPrefixOf e.1 && e.1.length != p.length)

/-! ## System calls -/

/-- `stat(f) != -1` -/
def lashFileExists (fs : Fs) (f : CStr) : Bool := (fs.lookup f).isSome

/-- `lash_dir_exists`: `opendir` works. -/
def lashDirExists (fs : Fs) (d : CStr) : Bool := fs.reaches d && fs.isDir (resolve d)

/-- `opendir` fails with `ENOTDIR`. -/
def notDir (fs : Fs) (d : CStr) : Bool := fs.meetsFile [] (splitSlash d)

/-- `opendir`, which may fail whatever is there. -/
def opendir (fs : Fs) (d : CStr) : Opendir × Fs :=
  (if fs.fault ≠ none then .failed
    else if fs.lashDirExists d then .opened
    else if fs.notDir d then .notDir
    else .missing, fs.next)

/-- `mkdir`, on the components of a path. -/
def mkdir (fs : Fs) (cs : List CStr) : Fs :=
  let p := cs.foldl walk []
  if fs.reachesFrom [] cs ∧ fs.get p = none ∧ fs.fault = none then fs.next.put p .dir else fs.next

/-- `creat`, or `fopen` for writing: the file is there afterwards, and empty. -/
def creat (fs : Fs) (f : CStr) : Bool × Fs :=
  let p := resolve f
  if fs.reaches f ∧ ¬ fs.isDir p ∧ fs.fault = none then (true, fs.next.put p (.file []))
  else (false, fs.next)

/-- The bytes in an open file. -/
def bytes (fs : Fs) (p : Path) : Option (List UInt8) :=
  match fs.get p with
  | some (.file data) => some data
  | _ => none

/-- The bytes of a file. -/
def read (fs : Fs) (f : CStr) : Option (List UInt8) :=
  if fs.reaches f then fs.bytes (resolve f) else none

/-- `write` to, or `fprintf` into, a file just created: the bytes go to its end. A failing write
leaves some of them. -/
def write (fs : Fs) (f : CStr) (data : List UInt8) : Bool × Fs :=
  let old := (fs.bytes (resolve f)).getD []
  match fs.fault with
  | none => (true, fs.next.put (resolve f) (.file (old ++ data)))
  | some n => (false, fs.next.put (resolve f) (.file (old ++ data.take n)))

/-- `close` and `fclose`: buffered data that cannot be written is lost. -/
def close (fs : Fs) (f : CStr) : Bool × Fs :=
  match fs.fault with
  | none => (true, fs.next)
  | some n => (false, fs.next.put (resolve f) (.file (((fs.bytes (resolve f)).getD []).take n)))

/-- `unlink` -/
def unlink (fs : Fs) (f : CStr) : Bool × Fs :=
  let p := resolve f
  if fs.lashFileExists f ∧ ¬ fs.isDir p ∧ fs.fault = none then (true, fs.next.del p)
  else (false, fs.next)

/-- A name that ends in `.` or `..`. -/
def EndsInDots (f : CStr) : Prop :=
  (stem f).getLast? = some (cstr ".") ∨ (stem f).getLast? = some (cstr "..")

instance (f : CStr) : Decidable (EndsInDots f) := inferInstanceAs (Decidable (_ ∨ _))

/-- The names `rename` takes. The old one is there, and so is the directory of the new one. What is
at the new name goes if it is of the same kind and empty; only the name of a directory may end in
slashes. -/
def CanRename (fs : Fs) (old new : CStr) : Prop :=
  fs.lashFileExists old ∧ fs.reachesFrom [] (stem new) ∧
    resolve old ≠ [] ∧ resolve new ≠ [] ∧ ¬ EndsInDots old ∧ ¬ EndsInDots new ∧
    (fs.isDir (resolve old) ∨ splitSlash new = stem new) ∧
    (resolve old = resolve new ∨ ¬ (resolve old).isPrefixOf (resolve new) ∧
      (fs.below (resolve new)).isEmpty ∧
      (fs.get (resolve new) = none ∨ fs.isDir (resolve new) = fs.isDir (resolve old)))

instance (fs : Fs) (old new : CStr) : Decidable (fs.CanRename old new) :=
  inferInstanceAs (Decidable (_ ∧ _ ∧ _ ∧ _ ∧ _ ∧ _ ∧ _ ∧ (_ ∨ _ ∧ _ ∧ _)))

/-- `rename` -/
def rename (fs : Fs) (old new : CStr) : Bool × Fs :=
  let p := resolve old
  let q := resolve new
  if fs.CanRename old new ∧ fs.fault = none then
    (true, { fs.next with
      entries := (if p = q then fs else fs.del q).entries.map (fun e => (movedTo p q e.1, e.2)) })
  else (false, fs.next)

/-- `xmlSaveFormatFile(f, doc, 1) != -1`; a failed save leaves an empty file. -/
def xmlSaveFile (fs : Fs) (f : CStr) (doc : XmlDoc) : Bool × Fs :=
  let p := resolve f
  if fs.reaches f ∧ ¬ fs.isDir p then
    match fs.fault with
    | none => (true, fs.next.put p (.xml doc))
    | some _ => (false, fs.next.put p (.file []))
  else (false, fs.next)

/-- `xmlParseFile` -/
def xmlParseFile (fs : Fs) (f : CStr) : Option XmlDoc :=
  match fs.lookup f with
  | some (.xml doc) => some doc
  | _ => none

/-! ## `lashd/file.c` -/

/-- `lash_create_dir` on the components of a path, last one first: the parent is made before the
directory. -/
def createDirRev (fs : Fs) : List CStr → Fs
  | [] => fs
  | c :: parent =>
    let cs := (c :: parent).reverse
    if fs.reachesFrom [] cs ∧ fs.isDir (cs.foldl walk []) then fs
    else (createDirRev fs parent).mkdir cs

/-- `lash_create_dir` -/
def lashCreateDir (fs : Fs) (d : CStr) : Fs := fs.createDirRev (splitSlash d).reverse

/-- `lash_dir_empty` -/
def lashDirEmpty (fs : Fs) (d : CStr) : Bool :=
  fs.lashDirExists d && (fs.below (resolve d)).isEmpty

/-- Whether something below `p` is gone when `lash_remove_dir` has stopped early. The bits of `n`
say which paths it came to, in whatever order; a directory goes after all that is in it. -/
def cameTo (fs : Fs) (p : Path) (n : Nat) (q : Path) : Bool :=
  p.isPrefixOf q && p != q &&
    (fs.entries.map Prod.fst).all fun r =>
      !q.isPrefixOf r || n.testBit ((fs.entries.map Prod.fst).idxOf r)

/-- `lash_remove_dir`: the directory and what is in it. It stops where something cannot be
removed. -/
def lashRemoveDir (fs : Fs) (d : CStr) : Fs :=
  if fs.lashDirExists d then
    match fs.fault with
    | none => fs.next.delTree (resolve d)
    | some n => { fs.next with
        entries := fs.entries.filter (fun e => !fs.cameTo (resolve d) n e.1) }
  else fs

/-- `lash_read_text_file`: `none` where it fails, `some none` for an empty file. -/
def lashReadTextFile (fs : Fs) (f : CStr) : Option (Option CStr) :=
  (fs.read f).map (fun data => if data = [] then none else some (data.takeWhile (· ≠ 0)))

end Fs

end Lash
