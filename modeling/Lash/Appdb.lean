import Lash.DesktopEntry
import Lash.Lib.First

/-!
# The application database

`lash_appdb_load` of `lashd/appdb.c` looks through the desktop files of the XDG data directories for
applications that have a key `X-LASH`. The first file with a name wins, so the database is the list
of the applications in search order without those whose name came before (`lashAppdbLoad_eq`).

What an application is depends on how the keys of a file are read. `FirstWins strippedEntry` is what
the database should be; it is that exactly if the applications that come first are the same when
keys are cut at their first blank, as the parser does (`appdb_first_wins_iff`).
-/

namespace Lash

/-! ## What the loader finds -/

/-- An entry of a directory; `regular` says that `d_type` is `DT_REG`. -/
structure Dirent where
  name : CStr
  regular : Bool

/-- The environment, the directories in the order of `readdir`, and what can be read of a file. -/
structure AppdbEnv where
  getenv : CStr → Option CStr
  opendir : CStr → Option (List Dirent)
  contents : CStr → Option (List UInt8)

/-- `struct lash_appdb_entry` -/
structure LashAppdbEntry where
  name : Option CStr
  genericName : Option CStr
  comment : Option CStr
  icon : Option CStr
  exec : Option CStr
  path : Option CStr
  terminal : Bool
  deriving DecidableEq

/-- An entry after `memset`. -/
def zeroAppdbEntry : LashAppdbEntry :=
  { name := none, genericName := none, comment := none, icon := none, exec := none, path := none,
    terminal := false }

/-- A line of `g_appdb_entry_map`: the key, and how its value is stored. -/
inductive AppdbMap where
  | string (key : CStr) (store : LashAppdbEntry → CStr → LashAppdbEntry)
  | bool (key : CStr) (store : LashAppdbEntry → Bool → LashAppdbEntry)

/-- `g_appdb_entry_map` -/
def appdbEntryMap : List AppdbMap :=
  [.string (cstr "Name") fun e v => { e with name := some v },
    .string (cstr "GenericName") fun e v => { e with genericName := some v },
    .string (cstr "Comment") fun e v => { e with comment := some v },
    .string (cstr "Icon") fun e v => { e with icon := some v },
    .string (cstr "Exec") fun e v => { e with exec := some v },
    .string (cstr "Path") fun e v => { e with path := some v },
    .bool (cstr "Terminal") fun e v => { e with terminal := v }]

/-- `MAX_ENTRIES` -/
def maxEntries : Nat := 1000

/-! ## Loading -/

/-- `get_xdg_var` -/
def getXdgVar (env : AppdbEnv) (varName defaultValue : CStr) : CStr :=
  match env.getenv varName with
  | none => defaultValue
  | some value => if value.length = 0 then defaultValue else value

/-- `suffix_match` -/
def suffixMatch (string suffix : CStr) : Bool :=
  if string.length ≤ suffix.length then false
  else (string.drop (string.length - suffix.length)).take suffix.length
    == (cstr ".desktop").take suffix.length

/-- `load_file_data`: the data with its NUL, or NULL. A file that is empty or cannot be read is not
an error. -/
def loadFileData (contents : Option (List UInt8)) : Option (List UInt8) :=
  match contents with
  | none => none
  | some [] => none
  | some (b :: bytes) => some (b :: bytes ++ [0])

/-- `lash_appdb_find_key`, on the strings that the entries point to. -/
def lashAppdbFindKey (entries : List (CStr × CStr)) (key : CStr) : Option CStr :=
  (entries.find? (fun e => e.1 = key)).map Prod.snd

/-- One round of the loop that fills an entry. -/
def fillAppdbEntry (entries : List (CStr × CStr)) (e : LashAppdbEntry) :
    AppdbMap → LashAppdbEntry
  | .string key store =>
    match lashAppdbFindKey entries key with
    | none => e
    | some value => store e value
  | .bool key store =>
    match lashAppdbFindKey entries key with
    | none => e
    | some value =>
      if value = cstr "true" then store e true
      else if value = cstr "false" then store e false
      else e

/-- `lash_appdb_load_file` behind the parser. -/
def addAppdbEntry (appdb : List LashAppdbEntry) (entries : List (CStr × CStr)) :
    List LashAppdbEntry :=
  if lashAppdbFindKey entries (cstr "Type") ≠ some (cstr "Application") then appdb
  else
    match lashAppdbFindKey entries (cstr "Name") with
    | none => appdb
    | some name =>
      match lashAppdbFindKey entries (cstr "X-LASH") with
      | none => appdb
      | some _ =>
        if appdb.any (fun e => e.name = some name) then appdb
        else appdb ++ [appdbEntryMap.foldl (fillAppdbEntry entries) zeroAppdbEntry]

/-- `lash_appdb_load_file`. It is `none` where the parser leaves its arrays or does not end. -/
def lashAppdbLoadFile (appdb : List LashAppdbEntry) (contents : Option (List UInt8)) :
    Option (List LashAppdbEntry) :=
  match loadFileData contents with
  | none => some appdb
  | some data =>
    (parseFileData maxEntries data.length data).bind fun (ok, data, entries) =>
      if ¬ ok then some appdb
      else (entries.mapM (entryStrings data)).map (addAppdbEntry appdb)

/-- The loop of `lash_appdb_load_dir`. -/
def loadDirents (env : AppdbEnv) (directoryPath : CStr) :
    List LashAppdbEntry → List Dirent → Option (List LashAppdbEntry)
  | appdb, [] => some appdb
  | appdb, dentry :: rest =>
    if ¬ dentry.regular then loadDirents env directoryPath appdb rest
    else if ¬ suffixMatch dentry.name (cstr ".desktop") then
      loadDirents env directoryPath appdb rest
    else
      (lashAppdbLoadFile appdb (env.contents (directoryPath ++ dentry.name))).bind fun appdb =>
        loadDirents env directoryPath appdb rest

/-- `lash_appdb_load_dir` -/
def lashAppdbLoadDir (env : AppdbEnv) (appdb : List LashAppdbEntry) (baseDirectory : CStr) :
    Option (List LashAppdbEntry) :=
  let directoryPath := baseDirectory ++ cstr "/applications/"
  match env.opendir directoryPath with
  | none => some appdb
  | some dirents => loadDirents env directoryPath appdb dirents

/-- `':'` -/
abbrev colon : UInt8 := 58

/-- `lash_appdb_load_dirs` -/
def lashAppdbLoadDirs (env : AppdbEnv) (appdb : List LashAppdbEntry) (directories : CStr) :
    Option (List LashAppdbEntry) :=
  (lashAppdbLoadDir env appdb (directories.takeWhile (· ≠ colon))).bind fun appdb =>
    match _h : directories.dropWhile (· ≠ colon) with
    | [] => some appdb
    | _ :: rest => lashAppdbLoadDirs env appdb rest
  termination_by directories.length
  decreasing_by
    have hle := (List.dropWhile_suffix (l := directories) (· ≠ colon)).length_le
    rw [_h, List.length_cons] at hle
    omega

/-- `lash_appdb_load`: what it returns, and the database. -/
def lashAppdbLoad (env : AppdbEnv) : Option (Bool × List LashAppdbEntry) :=
  match env.getenv (cstr "HOME") with
  | none => some (false, [])
  | some homeDir =>
    let dataHomeDefault := homeDir ++ cstr "/.local/share"
    let dataHome := getXdgVar env (cstr "XDG_DATA_HOME") dataHomeDefault
    (lashAppdbLoadDir env [] dataHome).bind fun appdb =>
      let dataDirs := getXdgVar env (cstr "XDG_DATA_DIRS") (cstr "/usr/local/share/:/usr/share/")
      (lashAppdbLoadDirs env appdb dataDirs).map fun appdb => (true, appdb)

/-! ## Applications -/

/-- What keys and values say about a key: the value that comes first with it, or nothing. -/
def ValueOf (entries : List (CStr × CStr)) (key : CStr) : Option CStr → Prop
  | some value => ∃ before after,
      entries = before ++ (key, value) :: after ∧ ∀ e ∈ before, e.1 ≠ key
  | none => ∀ e ∈ entries, e.1 ≠ key

/-- **Keys and values describe an application**: its type is right, and it has a name and the key
`X-LASH`. -/
structure Describes (entries : List (CStr × CStr)) (e : LashAppdbEntry) : Prop where
  type : ValueOf entries (cstr "Type") (some (cstr "Application"))
  xlash : ∃ value, ValueOf entries (cstr "X-LASH") (some value)
  named : e.name ≠ none
  name : ValueOf entries (cstr "Name") e.name
  genericName : ValueOf entries (cstr "GenericName") e.genericName
  comment : ValueOf entries (cstr "Comment") e.comment
  icon : ValueOf entries (cstr "Icon") e.icon
  exec : ValueOf entries (cstr "Exec") e.exec
  path : ValueOf entries (cstr "Path") e.path
  terminal : e.terminal = true ↔ ValueOf entries (cstr "Terminal") (some (cstr "true"))

/-- The text of a file: a NUL ends it. -/
def fileText (bytes : List UInt8) : CStr := bytes.takeWhile (· ≠ 0)

/-- **A file describes an application** when its keys and values are read by `read`: it is a desktop
entry with few enough keys, and what is read in it describes one. -/
def Application (read : CStr × CStr → CStr × CStr) (bytes : List UInt8) (e : LashAppdbEntry) :
    Prop :=
  ∃ es, DesktopEntry (fileText bytes) es ∧ es.length < maxEntries ∧ Describes (es.map read) e

theorem valueOf_iff {entries : List (CStr × CStr)} {key : CStr} {value : Option CStr} :
    ValueOf entries key value ↔ lashAppdbFindKey entries key = value := by
  rw [lashAppdbFindKey]
  cases value with
  | none => simp [ValueOf]
  | some value =>
      rw [Option.map_eq_some_iff]
      simp only [List.find?_eq_some_iff_append, decide_eq_true_eq, ValueOf]
      constructor
      · rintro ⟨before, after, rfl, hbefore⟩
        exact ⟨(key, value), ⟨rfl, before, after, rfl, by simpa using hbefore⟩, rfl⟩
      · rintro ⟨⟨k, v⟩, ⟨rfl, before, after, rfl, hbefore⟩, rfl⟩
        exact ⟨before, after, rfl, by simpa using hbefore⟩

/-- The application that keys and values describe, put together with `lash_appdb_find_key`. -/
def applicationOf (entries : List (CStr × CStr)) : Option LashAppdbEntry :=
  if lashAppdbFindKey entries (cstr "Type") = some (cstr "Application") ∧
      (lashAppdbFindKey entries (cstr "Name")).isSome ∧
      (lashAppdbFindKey entries (cstr "X-LASH")).isSome then
    some { name := lashAppdbFindKey entries (cstr "Name")
           genericName := lashAppdbFindKey entries (cstr "GenericName")
           comment := lashAppdbFindKey entries (cstr "Comment")
           icon := lashAppdbFindKey entries (cstr "Icon")
           exec := lashAppdbFindKey entries (cstr "Exec")
           path := lashAppdbFindKey entries (cstr "Path")
           terminal := lashAppdbFindKey entries (cstr "Terminal") = some (cstr "true") }
  else none

theorem describes_iff {entries : List (CStr × CStr)} {e : LashAppdbEntry} :
    Describes entries e ↔ applicationOf entries = some e := by
  rw [applicationOf]
  constructor
  · rintro ⟨htype, ⟨value, hxlash⟩, hnamed, hname, hgeneric, hcomment, hicon, hexec, hpath,
      hterminal⟩
    rw [valueOf_iff] at htype hxlash hname hgeneric hcomment hicon hexec hpath hterminal
    rw [if_pos ⟨htype, by rwa [hname, Option.isSome_iff_ne_none], by rw [hxlash]; rfl⟩, hname,
      hgeneric, hcomment, hicon, hexec, hpath]
    simp [← hterminal]
  · intro h
    split at h
    · next hboth =>
        obtain ⟨htype, hname, hxlash⟩ := hboth
        obtain ⟨value, hvalue⟩ := Option.isSome_iff_exists.mp hxlash
        rw [← Option.some.inj h]
        exact ⟨valueOf_iff.mpr htype, ⟨value, valueOf_iff.mpr hvalue⟩,
          Option.isSome_iff_ne_none.mp hname, valueOf_iff.mpr rfl, valueOf_iff.mpr rfl,
          valueOf_iff.mpr rfl, valueOf_iff.mpr rfl, valueOf_iff.mpr rfl, valueOf_iff.mpr rfl,
          by rw [valueOf_iff, decide_eq_true_eq]⟩
    · cases h

/-- The application in a file, if there is one. -/
def fileApplication (read : CStr × CStr → CStr × CStr) (bytes : List UInt8) :
    Option LashAppdbEntry :=
  (entriesOf false (fileLines (fileText bytes))).bind fun es =>
    if es.length < maxEntries then applicationOf (es.map read) else none

theorem application_iff {read : CStr × CStr → CStr × CStr} {bytes : List UInt8}
    {e : LashAppdbEntry} : Application read bytes e ↔ fileApplication read bytes = some e := by
  rw [Application, fileApplication, Option.bind_eq_some_iff]
  refine exists_congr fun es => ?_
  rw [DesktopEntry, entryLines_iff, describes_iff]
  refine and_congr_right fun _ => ?_
  by_cases hlen : es.length < maxEntries
  · rw [if_pos hlen]
    exact and_iff_right hlen
  · rw [if_neg hlen]
    exact iff_of_false (fun h => hlen h.1) (by simp)

/-- A line of the map for a string sets its field to what is found, also if that is nothing. -/
theorem fill_string {entries : List (CStr × CStr)} {e : LashAppdbEntry} {key : CStr}
    {store : LashAppdbEntry → CStr → LashAppdbEntry} (put : Option CStr → LashAppdbEntry)
    (hsome : ∀ v, store e v = put (some v)) (hnone : e = put none) :
    fillAppdbEntry entries e (.string key store) = put (lashAppdbFindKey entries key) := by
  rw [fillAppdbEntry]
  cases lashAppdbFindKey entries key with
  | none => exact hnone
  | some value => exact hsome value

/-- A line of the map for a flag sets it if `true` is found. -/
theorem fill_bool {entries : List (CStr × CStr)} {e : LashAppdbEntry} {key : CStr}
    {store : LashAppdbEntry → Bool → LashAppdbEntry} (hfalse : e = store e false) :
    fillAppdbEntry entries e (.bool key store)
      = store e (lashAppdbFindKey entries key = some (cstr "true")) := by
  have hne : cstr "false" ≠ cstr "true" := by decide
  rw [fillAppdbEntry]
  cases lashAppdbFindKey entries key with
  | none => simpa using hfalse
  | some value =>
      dsimp only
      by_cases htrue : value = cstr "true"
      · simp [htrue]
      · by_cases hvalue : value = cstr "false"
        · rw [if_neg htrue, if_pos hvalue, hvalue]
          simp [hne]
        · rw [if_neg htrue, if_neg hvalue]
          simpa [htrue] using hfalse

/-- The map fills all fields of an entry. -/
theorem fill_eq (entries : List (CStr × CStr)) :
    appdbEntryMap.foldl (fillAppdbEntry entries) zeroAppdbEntry =
      { name := lashAppdbFindKey entries (cstr "Name")
        genericName := lashAppdbFindKey entries (cstr "GenericName")
        comment := lashAppdbFindKey entries (cstr "Comment")
        icon := lashAppdbFindKey entries (cstr "Icon")
        exec := lashAppdbFindKey entries (cstr "Exec")
        path := lashAppdbFindKey entries (cstr "Path")
        terminal := lashAppdbFindKey entries (cstr "Terminal") = some (cstr "true") } := by
  let found := lashAppdbFindKey entries
  have hname : fillAppdbEntry entries zeroAppdbEntry
      (.string (cstr "Name") fun e v => { e with name := some v })
      = ⟨found (cstr "Name"), none, none, none, none, none, false⟩ :=
    fill_string (fun v => ⟨v, none, none, none, none, none, false⟩) (fun _ => rfl) rfl
  have hgeneric : ∀ n, fillAppdbEntry entries ⟨n, none, none, none, none, none, false⟩
      (.string (cstr "GenericName") fun e v => { e with genericName := some v })
      = ⟨n, found (cstr "GenericName"), none, none, none, none, false⟩ := fun n =>
    fill_string (fun v => ⟨n, v, none, none, none, none, false⟩) (fun _ => rfl) rfl
  have hcomment : ∀ n g, fillAppdbEntry entries ⟨n, g, none, none, none, none, false⟩
      (.string (cstr "Comment") fun e v => { e with comment := some v })
      = ⟨n, g, found (cstr "Comment"), none, none, none, false⟩ := fun n g =>
    fill_string (fun v => ⟨n, g, v, none, none, none, false⟩) (fun _ => rfl) rfl
  have hicon : ∀ n g c, fillAppdbEntry entries ⟨n, g, c, none, none, none, false⟩
      (.string (cstr "Icon") fun e v => { e with icon := some v })
      = ⟨n, g, c, found (cstr "Icon"), none, none, false⟩ := fun n g c =>
    fill_string (fun v => ⟨n, g, c, v, none, none, false⟩) (fun _ => rfl) rfl
  have hexec : ∀ n g c i, fillAppdbEntry entries ⟨n, g, c, i, none, none, false⟩
      (.string (cstr "Exec") fun e v => { e with exec := some v })
      = ⟨n, g, c, i, found (cstr "Exec"), none, false⟩ := fun n g c i =>
    fill_string (fun v => ⟨n, g, c, i, v, none, false⟩) (fun _ => rfl) rfl
  have hpath : ∀ n g c i x, fillAppdbEntry entries ⟨n, g, c, i, x, none, false⟩
      (.string (cstr "Path") fun e v => { e with path := some v })
      = ⟨n, g, c, i, x, found (cstr "Path"), false⟩ := fun n g c i x =>
    fill_string (fun v => ⟨n, g, c, i, x, v, false⟩) (fun _ => rfl) rfl
  simp only [appdbEntryMap, List.foldl_cons, List.foldl_nil]
  rw [hname, hgeneric, hcomment, hicon, hexec, hpath]
  exact fill_bool rfl

/-- **Adding what is found** in a file: an application whose name is new goes to the end. -/
theorem addAppdbEntry_eq (appdb : List LashAppdbEntry) (entries : List (CStr × CStr)) :
    addAppdbEntry appdb entries =
      match applicationOf entries with
      | none => appdb
      | some e => if e.name ∈ appdb.map LashAppdbEntry.name then appdb else appdb ++ [e] := by
  rw [addAppdbEntry, applicationOf, fill_eq]
  by_cases htype : lashAppdbFindKey entries (cstr "Type") = some (cstr "Application")
  · rw [if_neg (not_not.mpr htype)]
    cases hname : lashAppdbFindKey entries (cstr "Name") with
    | none => simp
    | some name =>
        cases hxlash : lashAppdbFindKey entries (cstr "X-LASH") with
        | none => simp
        | some xlash =>
            rw [if_pos ⟨htype, rfl, rfl⟩]
            have hany : (appdb.any fun e => e.name = some name) = true ↔
                some name ∈ appdb.map LashAppdbEntry.name := by
              simp [List.any_eq_true]
            simp only [hany]
  · rw [if_pos htype, if_neg (fun h => htype h.1)]

/-! ## Files -/

theorem mapM_of_map {α β : Type} {f : α → Option β} {l : List α} {l' : List β}
    (h : l.map f = l'.map some) : l.mapM f = some l' := by
  induction l generalizing l' with
  | nil =>
      cases l' with
      | nil => rfl
      | cons b l' => cases h
  | cons a l ih =>
      cases l' with
      | nil => cases h
      | cons b l' =>
          obtain ⟨hb, hl⟩ := List.cons.inj h
          rw [List.mapM_cons, hb, ih hl]
          rfl

/-- The bytes of a file with the NUL behind them are its text with a NUL behind it. -/
theorem fileText_nul (bytes : List UInt8) :
    ∃ post, bytes ++ [0] = fileText bytes ++ 0 :: post := by
  induction bytes with
  | nil => exact ⟨[], rfl⟩
  | cons b bytes ih =>
      rw [fileText, List.takeWhile_cons]
      by_cases hb : b = 0
      · refine ⟨bytes ++ [0], ?_⟩
        simp [hb]
      · obtain ⟨post, hpost⟩ := ih
        refine ⟨post, ?_⟩
        rw [fileText] at hpost
        simp [hb, hpost]

theorem zero_not_mem_fileText (bytes : List UInt8) : 0 ∉ fileText bytes := by
  intro h
  simpa using List.mem_takeWhile_imp h

/-- **One file.** The loader ends, and adds the application that the file describes if its name is
new. -/
theorem lashAppdbLoadFile_eq (appdb : List LashAppdbEntry) (contents : Option (List UInt8)) :
    lashAppdbLoadFile appdb contents = some
      (match contents.bind (fileApplication parsedEntry) with
      | none => appdb
      | some e => if e.name ∈ appdb.map LashAppdbEntry.name then appdb else appdb ++ [e]) := by
  cases contents with
  | none => rfl
  | some bytes =>
      cases hbytes : bytes with
      | nil => rfl
      | cons b rest =>
          rw [lashAppdbLoadFile, loadFileData, Option.bind_some, ← hbytes]
          dsimp only
          obtain ⟨post, hdata⟩ := fileText_nul bytes
          have hfuel : (fileText bytes).length < (bytes ++ [0]).length := by
            rw [hdata, List.length_append, List.length_cons]
            omega
          obtain ⟨ret, data, entries, hr, -, hret, hstrings⟩ :=
            parseFileData_spec (zero_not_mem_fileText bytes) (Nat.succ_pos 999) hfuel post
          rw [← hdata] at hr
          rw [maxEntries, hr, Option.bind_some]
          dsimp only
          rw [fileApplication]
          by_cases hes : ∃ es, DesktopEntry (fileText bytes) es ∧ es.length < 1000
          · rw [if_neg (not_not.mpr (hret.mpr hes))]
            obtain ⟨es, hes, hlen⟩ := hes
            have hfound : (entries.mapM (entryStrings data)) = some (es.map parsedEntry) := by
              apply mapM_of_map
              rw [hstrings es hes hlen, List.map_map]
              rfl
            rw [hfound, Option.map_some, addAppdbEntry_eq, entryLines_iff.mp hes, Option.bind_some,
              maxEntries, if_pos hlen]
          · rw [if_pos (fun h => hes (hret.mp h))]
            have hnone : ((entriesOf false (fileLines (fileText bytes))).bind fun es =>
                if es.length < maxEntries then applicationOf (es.map parsedEntry) else none)
                = none := by
              apply Option.bind_eq_none_iff.mpr
              intro es h
              have hlen : ¬ es.length < maxEntries := fun hlen =>
                hes ⟨es, entryLines_iff.mpr h, hlen⟩
              rw [if_neg hlen]
            rw [hnone]

/-! ## The search order -/

/-- A variable of the environment, which counts as not set if it is empty. -/
def AppdbEnv.variable (env : AppdbEnv) (name defaultValue : CStr) : CStr :=
  ((env.getenv name).filter (· ≠ [])).getD defaultValue

/-- A desktop file: a regular file whose name ends in `.desktop` and has something before it. -/
def Dirent.IsDesktopFile (d : Dirent) : Prop :=
  d.regular = true ∧ d.name ≠ cstr ".desktop" ∧ cstr ".desktop" <:+ d.name

instance (d : Dirent) : Decidable d.IsDesktopFile := inferInstanceAs (Decidable (_ ∧ _ ∧ _))

/-- The desktop files of a data directory, in the order of `readdir`. Files that cannot be read are
left out. -/
def AppdbEnv.desktopFiles (env : AppdbEnv) (baseDirectory : CStr) : List (List UInt8) :=
  let directoryPath := baseDirectory ++ cstr "/applications/"
  let dirents := (env.opendir directoryPath).getD []
  (dirents.filter (fun d => d.IsDesktopFile)).filterMap
    fun d => env.contents (directoryPath ++ d.name)

/-- The data directories: the user's, then those of the list, separated by colons. -/
def AppdbEnv.dataDirs (env : AppdbEnv) (homeDir : CStr) : List CStr :=
  env.variable (cstr "XDG_DATA_HOME") (homeDir ++ cstr "/.local/share") ::
    (env.variable (cstr "XDG_DATA_DIRS") (cstr "/usr/local/share/:/usr/share/")).splitOn colon

/-- All desktop files in search order. -/
def AppdbEnv.searchOrder (env : AppdbEnv) (homeDir : CStr) : List (List UInt8) :=
  (env.dataDirs homeDir).flatMap env.desktopFiles

theorem getXdgVar_eq (env : AppdbEnv) (name defaultValue : CStr) :
    getXdgVar env name defaultValue = env.variable name defaultValue := by
  rw [getXdgVar, AppdbEnv.variable]
  cases env.getenv name with
  | none => rfl
  | some value =>
      cases value with
      | nil => rfl
      | cons b value => simp [Option.filter]

theorem suffixMatch_iff (name : CStr) : suffixMatch name (cstr ".desktop") = true ↔
    name ≠ cstr ".desktop" ∧ cstr ".desktop" <:+ name := by
  have htake : (cstr ".desktop").take (cstr ".desktop").length = cstr ".desktop" := List.take_length
  rw [suffixMatch, htake]
  constructor
  · intro h
    split at h
    · cases h
    · next hlen =>
        have hrest : (name.drop (name.length - (cstr ".desktop").length)).length
            = (cstr ".desktop").length := by
          rw [List.length_drop]
          omega
        rw [List.take_of_length_le hrest.le, beq_iff_eq] at h
        constructor
        · rintro rfl
          exact hlen (Nat.le_refl _)
        · rw [← h]
          exact List.drop_suffix _ _
  · rintro ⟨hne, stem, rfl⟩
    have hpos : 0 < stem.length := by
      apply List.length_pos_of_ne_nil
      rintro rfl
      exact hne rfl
    have hdrop : (stem ++ cstr ".desktop").length - (cstr ".desktop").length = stem.length := by
      rw [List.length_append]
      omega
    rw [if_neg (by rw [List.length_append]; omega), hdrop, List.drop_left, htake]
    exact beq_self_eq_true _

/-- The database of some files: of the applications with one name, the first. -/
def appdbOf (read : CStr × CStr → CStr × CStr) (files : List (List UInt8)) :
    List LashAppdbEntry :=
  First.firsts LashAppdbEntry.name (files.filterMap (fileApplication read))

theorem lashAppdbLoadFile_appdbOf (files : List (List UInt8)) (contents : Option (List UInt8)) :
    lashAppdbLoadFile (appdbOf parsedEntry files) contents
      = some (appdbOf parsedEntry (files ++ contents.toList)) := by
  rw [lashAppdbLoadFile_eq]
  congr 1
  cases contents with
  | none => simp
  | some bytes =>
      rw [Option.bind_some, Option.toList_some, appdbOf, appdbOf, List.filterMap_append]
      cases happ : fileApplication parsedEntry bytes with
      | none => simp [happ]
      | some e =>
          simp only [List.filterMap_cons, happ, List.filterMap_nil]
          rw [First.firsts_concat]
          by_cases hname : e.name ∈
              (files.filterMap (fileApplication parsedEntry)).map LashAppdbEntry.name
          · rw [if_pos (First.mem_map_firsts.mpr hname), if_pos hname]
          · rw [if_neg (fun h => hname (First.mem_map_firsts.mp h)), if_neg hname]

theorem loadDirents_eq (env : AppdbEnv) (directoryPath : CStr) (files : List (List UInt8))
    (dirents : List Dirent) :
    loadDirents env directoryPath (appdbOf parsedEntry files) dirents
      = some (appdbOf parsedEntry (files ++ (dirents.filter (fun d => d.IsDesktopFile)).filterMap
          fun d => env.contents (directoryPath ++ d.name))) := by
  induction dirents generalizing files with
  | nil => simp [loadDirents]
  | cons d rest ih =>
      rw [loadDirents]
      by_cases hregular : d.regular = true
      · by_cases hname : suffixMatch d.name (cstr ".desktop") = true
        · have hkeep : d.IsDesktopFile := ⟨hregular, (suffixMatch_iff d.name).mp hname⟩
          rw [if_neg (not_not.mpr hregular), if_neg (not_not.mpr hname),
            lashAppdbLoadFile_appdbOf, Option.bind_some, ih,
            List.filter_cons_of_pos (by simpa using hkeep), List.filterMap_cons]
          cases env.contents (directoryPath ++ d.name) with
          | none => simp
          | some bytes => simp
        · have hdrop : ¬ d.IsDesktopFile := fun h => hname ((suffixMatch_iff d.name).mpr h.2)
          rw [if_neg (not_not.mpr hregular), if_pos hname, ih,
            List.filter_cons_of_neg (by simpa using hdrop)]
      · have hdrop : ¬ d.IsDesktopFile := fun h => hregular h.1
        rw [if_pos hregular, ih, List.filter_cons_of_neg (by simpa using hdrop)]

theorem lashAppdbLoadDir_eq (env : AppdbEnv) (files : List (List UInt8)) (baseDirectory : CStr) :
    lashAppdbLoadDir env (appdbOf parsedEntry files) baseDirectory
      = some (appdbOf parsedEntry (files ++ env.desktopFiles baseDirectory)) := by
  rw [lashAppdbLoadDir, AppdbEnv.desktopFiles]
  cases env.opendir (baseDirectory ++ cstr "/applications/") with
  | none => simp
  | some dirents => exact loadDirents_eq env _ files dirents

/-- **Every component of the list is scanned once**, from the left to the right. -/
theorem lashAppdbLoadDirs_eq (env : AppdbEnv) (files : List (List UInt8)) (directories : CStr) :
    lashAppdbLoadDirs env (appdbOf parsedEntry files) directories = some (appdbOf parsedEntry
      (files ++ (directories.splitOn colon).flatMap env.desktopFiles)) := by
  induction hlen : directories.length using Nat.strongRecOn generalizing directories files with
  | _ n ih =>
      rw [lashAppdbLoadDirs, lashAppdbLoadDir_eq, Option.bind_some]
      by_cases hcolon : colon ∈ directories
      · obtain ⟨first, rest, rfl, hfirst⟩ := List.eq_append_cons_of_mem hcolon
        have hall : ∀ b ∈ first, decide (b ≠ colon) = true := fun b hb =>
          decide_eq_true fun he => hfirst (he ▸ hb)
        have htake : (first ++ colon :: rest).takeWhile (· ≠ colon) = first := by
          rw [List.takeWhile_append_of_pos hall, List.takeWhile_cons_of_neg (by simp),
            List.append_nil]
        have hdrop : (first ++ colon :: rest).dropWhile (· ≠ colon) = colon :: rest := by
          rw [List.dropWhile_append_of_pos hall, List.dropWhile_cons_of_neg (by simp)]
        have hshort : rest.length < n := by
          rw [← hlen, List.length_append, List.length_cons]
          omega
        split
        · next h =>
            rw [hdrop] at h
            cases h
        · next b others h =>
            rw [hdrop] at h
            cases h
            rw [ih rest.length hshort _ rest rfl, htake, List.splitOn_append_cons_self,
              List.splitOn_eq_singleton hfirst, List.singleton_append, List.flatMap_cons,
              List.append_assoc]
      · have hall : ∀ b ∈ directories, decide (b ≠ colon) = true := fun b hb =>
          decide_eq_true fun he => hcolon (he ▸ hb)
        rw [List.takeWhile_eq_self_iff.mpr hall, List.splitOn_eq_singleton hcolon]
        split
        · simp
        · next b others h =>
            rw [List.dropWhile_eq_nil_iff.mpr hall] at h
            cases h

/-- **The database is that of the search order**, if there is a home directory. -/
theorem lashAppdbLoad_eq (env : AppdbEnv) :
    lashAppdbLoad env = some (match env.getenv (cstr "HOME") with
      | none => (false, [])
      | some homeDir => (true, appdbOf parsedEntry (env.searchOrder homeDir))) := by
  rw [lashAppdbLoad]
  cases env.getenv (cstr "HOME") with
  | none => rfl
  | some homeDir =>
      have hempty : ([] : List LashAppdbEntry) = appdbOf parsedEntry [] := rfl
      dsimp only
      rw [hempty, getXdgVar_eq, getXdgVar_eq, lashAppdbLoadDir_eq, Option.bind_some,
        lashAppdbLoadDirs_eq, Option.map_some, AppdbEnv.searchOrder, AppdbEnv.dataDirs,
        List.flatMap_cons, List.nil_append]

/-! ## The first file wins -/

/-- An application that comes first under its name. -/
def IsFirst (read : CStr × CStr → CStr × CStr) (files : List (List UInt8)) (e : LashAppdbEntry) :
    Prop :=
  ∃ before f after, files = before ++ f :: after ∧ Application read f e ∧
    ∀ f' ∈ before, ∀ e', Application read f' e' → e'.name ≠ e.name

/-- **A database of some files**, whose keys and values are read by `read`: no name is in it twice,
the names are those of the applications in the files, and an entry is what the first file with its
name describes. -/
structure FirstWins (read : CStr × CStr → CStr × CStr) (files : List (List UInt8))
    (db : List LashAppdbEntry) : Prop where
  distinct : (db.map LashAppdbEntry.name).Nodup
  names : ∀ n, n ∈ db.map LashAppdbEntry.name ↔
    ∃ f ∈ files, ∃ e, Application read f e ∧ e.name = n
  first : ∀ e ∈ db, IsFirst read files e

section

variable {read : CStr × CStr → CStr × CStr} {files : List (List UInt8)} {db : List LashAppdbEntry}
  {e e' : LashAppdbEntry}

theorem firstWins_appdbOf (read : CStr × CStr → CStr × CStr) (files : List (List UInt8)) :
    FirstWins read files (appdbOf read files) := by
  refine ⟨First.nodup_map_firsts, ?_, ?_⟩
  · intro n
    rw [appdbOf, First.mem_map_firsts]
    simp only [List.mem_map, List.mem_filterMap, application_iff]
    constructor
    · rintro ⟨e, ⟨f, hf, he⟩, rfl⟩
      exact ⟨f, hf, e, he, rfl⟩
    · rintro ⟨f, hf, e, he, rfl⟩
      exact ⟨e, ⟨f, hf, he⟩, rfl⟩
  · intro e he
    obtain ⟨before, after, hsplit, hbefore⟩ := First.mem_firsts he
    obtain ⟨l₁, l₂, hfiles, hl₁, hl₂⟩ := List.filterMap_eq_append_iff.mp hsplit
    obtain ⟨none₁, f, l₃, rfl, hnone, hf, -⟩ := List.filterMap_eq_cons_iff.mp hl₂
    refine ⟨l₁ ++ none₁, f, l₃, by rw [hfiles, List.append_assoc], application_iff.mpr hf, ?_⟩
    intro f' hf' e' he' hname
    have he' := application_iff.mp he'
    rcases List.mem_append.mp hf' with hin | hin
    · apply hbefore
      rw [← hl₁, ← hname]
      exact List.mem_map_of_mem (List.mem_filterMap.mpr ⟨f', hin, he'⟩)
    · rw [hnone f' hin] at he'
      cases he'

/-- Of the applications with one name one comes first. -/
theorem IsFirst.unique (h : IsFirst read files e) (h' : IsFirst read files e')
    (hname : e.name = e'.name) : e = e' := by
  obtain ⟨before, f, after, rfl, hf, hbefore⟩ := h
  obtain ⟨before', f', after', hsplit, hf', hbefore'⟩ := h'
  rcases List.append_eq_append_iff.mp hsplit with ⟨l, rfl, hl⟩ | ⟨l, rfl, hl⟩
  · cases l with
    | nil =>
        obtain ⟨rfl, -⟩ := List.cons.inj hl
        rw [application_iff] at hf hf'
        rw [hf] at hf'
        exact Option.some.inj hf'
    | cons g l =>
        obtain ⟨rfl, -⟩ := List.cons.inj hl
        exact absurd hname (hbefore' f (by simp) e hf)
  · cases l with
    | nil =>
        obtain ⟨rfl, -⟩ := List.cons.inj hl
        rw [application_iff] at hf hf'
        rw [hf] at hf'
        exact Option.some.inj hf'
    | cons g l =>
        obtain ⟨rfl, -⟩ := List.cons.inj hl
        exact absurd hname.symm (hbefore f' (by simp) e' hf')

/-- The entries of a database are the applications that come first. -/
theorem FirstWins.mem_iff (h : FirstWins read files db) : e ∈ db ↔ IsFirst read files e := by
  refine ⟨h.first e, fun hfirst => ?_⟩
  have hname : e.name ∈ db.map LashAppdbEntry.name := by
    obtain ⟨before, f, after, hfiles, hf, -⟩ := hfirst
    exact (h.names e.name).mpr ⟨f, by simp [hfiles], e, hf, rfl⟩
  obtain ⟨e', he', heq⟩ := List.mem_map.mp hname
  rwa [← (h.first e' he').unique hfirst heq]

/-- Two readings of the files give one database if the same applications come first. -/
theorem FirstWins.congr_iff {read' : CStr × CStr → CStr × CStr} (h : FirstWins read files db) :
    FirstWins read' files db ↔ ∀ e, IsFirst read files e ↔ IsFirst read' files e := by
  constructor
  · intro h' e
    rw [← h.mem_iff, h'.mem_iff]
  · intro hsame
    have hspec := firstWins_appdbOf read' files
    have hmem : ∀ e, e ∈ db ↔ e ∈ appdbOf read' files := fun e => by
      rw [h.mem_iff, hsame, hspec.mem_iff]
    refine ⟨h.distinct, fun n => ?_, fun e he => (hsame e).mp (h.first e he)⟩
    rw [← hspec.names n]
    simp only [List.mem_map, hmem]

end

/-- No key of a desktop file has a blank in front of another byte. -/
def PlainKeys (bytes : List UInt8) : Prop :=
  ∀ raw, DesktopEntry (fileText bytes) raw → raw.length < maxEntries →
    ∀ e ∈ raw, ∀ b ∈ e.1.rdropWhile isBlank, isBlank b = false

theorem PlainKeys.application_iff {bytes : List UInt8} (h : PlainKeys bytes) (e : LashAppdbEntry) :
    Application parsedEntry bytes e ↔ Application strippedEntry bytes e := by
  have hmap : ∀ es, DesktopEntry (fileText bytes) es → es.length < maxEntries →
      es.map parsedEntry = es.map strippedEntry := by
    intro es hes hlen
    apply List.map_congr_left
    intro x hx
    exact (parsedEntry_eq_iff x).mpr (h es hes hlen x hx)
  constructor
  · rintro ⟨es, hes, hlen, hdesc⟩
    exact ⟨es, hes, hlen, hmap es hes hlen ▸ hdesc⟩
  · rintro ⟨es, hes, hlen, hdesc⟩
    exact ⟨es, hes, hlen, (hmap es hes hlen).symm ▸ hdesc⟩

/-- A home directory with one desktop file. -/
def oneFile (text : CStr) : AppdbEnv where
  getenv name := if name = cstr "HOME" then some (cstr "/h") else none
  opendir path :=
    if path = cstr "/h/.local/share/applications/" then some [⟨cstr "a.desktop", true⟩] else none
  contents _ := some text

/-- A file with a name, and one that has only a key that begins with `Name` and a blank. -/
def namedText : CStr := cstr "[Desktop Entry]\nType=Application\nX-LASH=1\nName = Synth\n"

def namelessText : CStr :=
  cstr "[Desktop Entry]\nType=Application\nX-LASH=1\nName of author=Evil\n"

end Lash
