import Lash.InfoFile
import Lash.Lib.Buffer
import Mathlib.Data.List.DropRight

/-!
# Desktop entries

`lash_appdb_parse_file_data` of `lashd/appdb.c` reads the first group of a desktop file. It works in
the array that holds the file: it ends lines, keys and values with NULs and gives pointers to them
back.

`DesktopEntry` is the grammar of the texts it accepts. `parseFileData_spec` says that it accepts
them, and which keys and values it finds: those that are in the text but for blanks in keys, where a
key is cut at its first blank and not only at those behind it (`parse_as_grammar_iff`).
-/

namespace Lash

open Buffer

/-! ## The parser -/

/-- `' '` and `'\t'` -/
def isBlank (b : UInt8) : Bool := b == 32 || b == 9

/-- `'='` -/
abbrev equalsSign : UInt8 := 61

/-- `'#'` -/
abbrev hashSign : UInt8 := 35

/-- `struct entry`: pointers into the data. -/
structure AppEntry where
  key : Nat
  value : Nat
  deriving DecidableEq

/-- `strlstrip`: the first place that holds no blank. -/
def strlstrip (b : List UInt8) (string : Nat) : Option Nat :=
  match h : b[string]? with
  | none => none
  | some c => if isBlank c then strlstrip b (string + 1) else some string
  termination_by b.length - string
  decreasing_by
    have hlt := (List.getElem?_eq_some_iff.mp h).1
    omega

/-- The loop of `strrstrip`, `n` places before `temp` reaches `string`. It does not stop at a place
that holds no blank. -/
def strrstripLoop (string : Nat) : (n : Nat) → (b : List UInt8) → Option (List UInt8)
  | 0, b => some b
  | n + 1, b =>
    match b[string + n]? with
    | none => none
    | some c =>
      if isBlank c then (poke b (string + n) [0]).bind (strrstripLoop string n)
      else strrstripLoop string n b

/-- `strrstrip` -/
def strrstrip (b : List UInt8) (string : Nat) : Option (List UInt8) :=
  (Buffer.string 0 b string).bind fun s => strrstripLoop string s.length b

/-- How the loop goes on after a line: with the next one (`continue`, or its end), to `exit`, or
with a return. -/
inductive LineResult where
  | next (data : List UInt8) (groupFound : Bool) (entries : List AppEntry)
  | exit (data : List UInt8) (groupFound : Bool) (entries : List AppEntry)
  | failed (data : List UInt8)

/-- The loop's body after the line was ended. It is `none` where the data or the array of entries is
left. -/
def parseLine (maxCount : Nat) (data : List UInt8) (line : Nat) (groupFound : Bool)
    (entries : List AppEntry) : Option LineResult := do
  let c ← data[line]?
  if c = 0 ∨ c = hashSign then return .next data groupFound entries
  if ¬ groupFound then
    let s ← Buffer.string 0 data line
    if s ≠ cstr "[Desktop Entry]" then return .failed data
    return .next data true entries
  match ← strchr 0 data line equalsSign with
  | none => return .exit data groupFound entries
  | some value =>
    let data ← poke data value [0]
    let data ← strrstrip data line
    let value ← strlstrip data (value + 1)
    if entries.length + 1 = maxCount then return .failed data
    if entries.length < maxCount then
      return .next data groupFound (entries ++ [{ key := line, value := value }])
    else none

/-- The loop of `lash_appdb_parse_file_data`: the result, the data, and the entries. -/
def parseFileDataLoop (maxCount : Nat) : (fuel : Nat) → (data : List UInt8) → (line : Nat) →
    (groupFound : Bool) → (entries : List AppEntry) → Option (Bool × List UInt8 × List AppEntry)
  | 0, _, _, _, _ => none
  | fuel + 1, data, line, groupFound, entries =>
    (strchr 0 data line newline).bind fun nextLine =>
      (match nextLine with
        | some p => poke data p [0]
        | none => some data).bind fun data =>
          (parseLine maxCount data line groupFound entries).bind fun r =>
            match r with
            | .failed data => some (false, data, entries)
            | .exit data groupFound entries => some (groupFound, data, entries)
            | .next data groupFound entries =>
              match nextLine with
              | some p => parseFileDataLoop maxCount fuel data (p + 1) groupFound entries
              | none => some (groupFound, data, entries)

/-- `lash_appdb_parse_file_data` -/
def parseFileData (maxCount fuel : Nat) (data : List UInt8) :
    Option (Bool × List UInt8 × List AppEntry) :=
  parseFileDataLoop maxCount fuel data 0 false []

/-- The key and the value of an entry, as strings. -/
def entryStrings (data : List UInt8) (e : AppEntry) : Option (CStr × CStr) := do
  let key ← Buffer.string 0 data e.key
  let value ← Buffer.string 0 data e.value
  return (key, value)

/-! ## The grammar -/

/-- A line that is skipped: an empty one or a comment. -/
def IsComment (line : CStr) : Prop := line = [] ∨ line.head? = some hashSign

instance (line : CStr) : Decidable (IsComment line) := inferInstanceAs (Decidable (_ ∨ _))

/-- The lines of the group up to the first one without `=`, and its keys and values as they are in
the text. -/
inductive GroupLines : List CStr → List (CStr × CStr) → Prop
  | nil : GroupLines [] []
  | skip {line lines es} : IsComment line → GroupLines lines es → GroupLines (line :: lines) es
  | keyValue {key value lines es} : ¬ IsComment (key ++ equalsSign :: value) → equalsSign ∉ key →
      GroupLines lines es → GroupLines ((key ++ equalsSign :: value) :: lines) ((key, value) :: es)
  | other {line lines} : ¬ IsComment line → equalsSign ∉ line → GroupLines (line :: lines) []

/-- The lines of a file: the first one that is not skipped begins the group. -/
inductive EntryLines : List CStr → List (CStr × CStr) → Prop
  | skip {line lines es} : IsComment line → EntryLines lines es → EntryLines (line :: lines) es
  | group {lines es} : GroupLines lines es → EntryLines (cstr "[Desktop Entry]" :: lines) es

/-- **A desktop entry** and its keys and values. -/
def DesktopEntry (text : CStr) (es : List (CStr × CStr)) : Prop := EntryLines (fileLines text) es

/-- The keys and values of a group. -/
def groupEntries : List CStr → List (CStr × CStr)
  | [] => []
  | line :: lines =>
    if IsComment line then groupEntries lines
    else if equalsSign ∈ line then
      (line.takeWhile (· ≠ equalsSign), (line.dropWhile (· ≠ equalsSign)).tail)
        :: groupEntries lines
    else []

/-- The keys and values of a file, if there is a group; `found` says that it has begun. -/
def entriesOf : (found : Bool) → List CStr → Option (List (CStr × CStr))
  | true, lines => some (groupEntries lines)
  | false, [] => none
  | false, line :: lines =>
    if IsComment line then entriesOf false lines
    else if line = cstr "[Desktop Entry]" then some (groupEntries lines)
    else none

theorem takeWhile_key {key : CStr} (h : equalsSign ∉ key) (value : CStr) :
    (key ++ equalsSign :: value).takeWhile (· ≠ equalsSign) = key ∧
      (key ++ equalsSign :: value).dropWhile (· ≠ equalsSign) = equalsSign :: value := by
  have hall : ∀ b ∈ key, decide (b ≠ equalsSign) = true := fun b hb =>
    decide_eq_true fun he => h (he ▸ hb)
  constructor
  · rw [List.takeWhile_append_of_pos hall, List.takeWhile_cons_of_neg (by simp), List.append_nil]
  · rw [List.dropWhile_append_of_pos hall, List.dropWhile_cons_of_neg (by simp)]

theorem groupEntries_key {key value : CStr} (hline : ¬ IsComment (key ++ equalsSign :: value))
    (hkey : equalsSign ∉ key) (lines : List CStr) :
    groupEntries ((key ++ equalsSign :: value) :: lines) = (key, value) :: groupEntries lines := by
  rw [groupEntries, if_neg hline, if_pos (by simp), (takeWhile_key hkey value).1,
    (takeWhile_key hkey value).2, List.tail_cons]

/-- A line holds a key and a value, or no `=`. -/
theorem key_or_not (line : CStr) :
    (∃ key value, line = key ++ equalsSign :: value ∧ equalsSign ∉ key) ∨ equalsSign ∉ line := by
  by_cases h : equalsSign ∈ line
  · obtain ⟨key, value, hline, hkey⟩ := List.eq_append_cons_of_mem h
    exact .inl ⟨key, value, hline, hkey⟩
  · exact .inr h

theorem groupLines_iff {lines : List CStr} {es : List (CStr × CStr)} :
    GroupLines lines es ↔ groupEntries lines = es := by
  constructor
  · intro h
    induction h with
    | nil => rfl
    | skip hline _ ih => rw [groupEntries, if_pos hline, ih]
    | keyValue hline hkey _ ih => rw [groupEntries_key hline hkey, ih]
    | other hline hkey => rw [groupEntries, if_neg hline, if_neg hkey]
  · rintro rfl
    induction lines with
    | nil => exact .nil
    | cons line lines ih =>
        by_cases hline : IsComment line
        · rw [groupEntries, if_pos hline]
          exact .skip hline ih
        · rcases key_or_not line with ⟨key, value, rfl, hkey⟩ | hkey
          · rw [groupEntries_key hline hkey]
            exact .keyValue hline hkey ih
          · rw [groupEntries, if_neg hline, if_neg hkey]
            exact .other hline hkey

/-- The line that begins a group is no comment. -/
theorem header_not_comment : ¬ IsComment (cstr "[Desktop Entry]") := by decide

theorem entryLines_iff {lines : List CStr} {es : List (CStr × CStr)} :
    EntryLines lines es ↔ entriesOf false lines = some es := by
  constructor
  · intro h
    induction h with
    | skip hline _ ih => rw [entriesOf, if_pos hline, ih]
    | group h => rw [entriesOf, if_neg header_not_comment, if_pos rfl, groupLines_iff.mp h]
  · intro h
    induction lines with
    | nil => cases h
    | cons line lines ih =>
        rw [entriesOf] at h
        split at h
        · next hline => exact .skip hline (ih h)
        · split at h
          · next hheader =>
              subst hheader
              exact .group (groupLines_iff.mpr (Option.some.inj h))
          · cases h

/-! ## Stripping -/

/-- `strlstrip` stops at the first byte that is no blank; a NUL is none. -/
theorem strlstrip_eq (pre s post : List UInt8) {i : Nat} (hi : pre.length = i) :
    strlstrip (pre ++ (s ++ 0 :: post)) i = some (i + (s.takeWhile isBlank).length) := by
  induction s generalizing pre i with
  | nil =>
      have hcell : (pre ++ ([] ++ 0 :: post))[i]? = some 0 := getElem?_append_cons pre _ _ hi
      rw [strlstrip]
      split
      · next h =>
          rw [hcell] at h
          cases h
      · next c h =>
          rw [hcell] at h
          cases h
          rfl
  | cons b s ih =>
      have hcell : (pre ++ (b :: s ++ 0 :: post))[i]? = some b := getElem?_append_cons pre _ _ hi
      rw [strlstrip]
      split
      · next h =>
          rw [hcell] at h
          cases h
      · next c h =>
          rw [hcell] at h
          cases h
          rw [List.takeWhile_cons]
          split
          · have hrest := ih (pre ++ [b]) (i := i + 1) (by rw [List.length_append, hi]; rfl)
            simp only [List.append_assoc, List.singleton_append] at hrest
            rw [List.cons_append, hrest, List.length_cons]
            congr 1
            omega
          · rfl

/-- What `strrstrip` makes of a byte. -/
def clearBlank (b : UInt8) : UInt8 := if isBlank b then 0 else b

/-- The loop clears every blank that it comes to. -/
theorem strrstripLoop_eq (pre s post : List UInt8) {i : Nat} (hi : pre.length = i) :
    strrstripLoop i s.length (pre ++ (s ++ post)) = some (pre ++ (s.map clearBlank ++ post)) := by
  induction s using List.reverseRecOn generalizing post with
  | nil => rfl
  | append_singleton s b ih =>
      have hat : (pre ++ s).length = i + s.length := by rw [List.length_append, hi]
      have hcell : (pre ++ (s ++ [b] ++ post))[i + s.length]? = some b := by
        have h := getElem?_append_cons (pre ++ s) b post hat
        simpa only [List.append_assoc, List.singleton_append] using h
      rw [List.length_append, List.length_singleton, strrstripLoop, hcell, List.map_append,
        List.map_singleton]
      dsimp only
      by_cases hb : isBlank b = true
      · have hpoke := poke_cell (pre ++ s) b 0 post hat
        simp only [List.append_assoc, List.singleton_append] at hpoke ⊢
        rw [if_pos hb, hpoke, Option.bind_some, ih (0 :: post), clearBlank, if_pos hb]
      · simp only [List.append_assoc, List.singleton_append]
        rw [if_neg hb, ih (b :: post), clearBlank, if_neg hb]

/-- The part of a key that `strrstrip` leaves: what stands before its first blank. -/
def cutKey (key : CStr) : CStr := key.takeWhile (fun b => ¬ isBlank b)

theorem takeWhile_clearBlank {key : CStr} (h : 0 ∉ key) :
    (key.map clearBlank).takeWhile (· ≠ 0) = cutKey key := by
  induction key with
  | nil => rfl
  | cons b key ih =>
      obtain ⟨hb, hkey⟩ := List.ne_and_not_mem_of_not_mem_cons h
      rw [List.map_cons, List.takeWhile_cons, cutKey, List.takeWhile_cons, clearBlank]
      by_cases hblank : isBlank b = true
      · simp [hblank]
      · simpa [cutKey, hblank, Ne.symm hb] using ih hkey

theorem strrstrip_eq (pre : List UInt8) {key : CStr} (post : List UInt8) {i : Nat}
    (hi : pre.length = i) (h : 0 ∉ key) :
    strrstrip (pre ++ (key ++ 0 :: post)) i = some (pre ++ (key.map clearBlank ++ 0 :: post)) := by
  rw [strrstrip, string_append pre hi h, Option.bind_some]
  exact strrstripLoop_eq pre key (0 :: post) hi

/-! ## Lines -/

/-- What the parser finds of a key and its value. -/
def parsedEntry (e : CStr × CStr) : CStr × CStr := (cutKey e.1, e.2.dropWhile isBlank)

/-- A comment is known by its first byte. -/
theorem isComment_iff {line : CStr} (h : 0 ∉ line) (pre post : List UInt8) {i : Nat}
    (hi : pre.length = i) :
    ∃ c, (pre ++ (line ++ 0 :: post))[i]? = some c ∧ (c = 0 ∨ c = hashSign ↔ IsComment line) := by
  cases line with
  | nil =>
      refine ⟨0, getElem?_append_cons pre _ _ hi, ?_⟩
      exact iff_of_true (.inl rfl) (.inl rfl)
  | cons b line =>
      refine ⟨b, getElem?_append_cons pre _ _ hi, ?_⟩
      have hb : b ≠ 0 := (List.ne_and_not_mem_of_not_mem_cons h).1.symm
      simp [IsComment, hb]

section

variable {maxCount : Nat} {pre post : List UInt8} {line : CStr} {entries : List AppEntry}

theorem parseLine_comment (h : 0 ∉ line) (hline : IsComment line) (found : Bool) :
    parseLine maxCount (pre ++ (line ++ 0 :: post)) pre.length found entries
      = some (.next (pre ++ (line ++ 0 :: post)) found entries) := by
  obtain ⟨c, hc, hiff⟩ := isComment_iff h pre post rfl
  rw [parseLine, hc]
  exact if_pos (hiff.mpr hline)

/-- The line that begins the group, or has to. -/
theorem parseLine_header (h : 0 ∉ line) (hline : ¬ IsComment line) :
    parseLine maxCount (pre ++ (line ++ 0 :: post)) pre.length false entries =
      some (if line = cstr "[Desktop Entry]" then .next (pre ++ (line ++ 0 :: post)) true entries
        else .failed (pre ++ (line ++ 0 :: post))) := by
  obtain ⟨c, hc, hiff⟩ := isComment_iff h pre post rfl
  have hnot : ¬ (c = 0 ∨ c = hashSign) := fun hcom => hline (hiff.mp hcom)
  rw [parseLine, hc]
  simp only [Option.bind_eq_bind, Option.bind_some, if_neg hnot, string_append pre rfl h]
  by_cases hheader : line = cstr "[Desktop Entry]"
  · simp [hheader]
  · simp [hheader]

/-- A line of the group without `=`. -/
theorem parseLine_other (h : 0 ∉ line) (hline : ¬ IsComment line) (hkey : equalsSign ∉ line) :
    parseLine maxCount (pre ++ (line ++ 0 :: post)) pre.length true entries
      = some (.exit (pre ++ (line ++ 0 :: post)) true entries) := by
  obtain ⟨c, hc, hiff⟩ := isComment_iff h pre post rfl
  have hnot : ¬ (c = 0 ∨ c = hashSign) := fun hcom => hline (hiff.mp hcom)
  rw [parseLine, hc]
  simp [hnot, strchr_append pre rfl h, hkey]

/-- A line with a key and a value. The strings of the new entry do not depend on what follows. -/
theorem parseLine_key {key value : CStr} (h : 0 ∉ key ++ equalsSign :: value)
    (hline : ¬ IsComment (key ++ equalsSign :: value)) (hkey : equalsSign ∉ key)
    (hcount : entries.length + 1 ≤ maxCount) :
    ∃ line' e, line'.length = (key ++ equalsSign :: value).length ∧
      (∀ rest, entryStrings (pre ++ (line' ++ 0 :: rest)) e = some (parsedEntry (key, value))) ∧
      parseLine maxCount (pre ++ (key ++ equalsSign :: value ++ 0 :: post)) pre.length true entries
        = some (if entries.length + 1 = maxCount then .failed (pre ++ (line' ++ 0 :: post))
          else .next (pre ++ (line' ++ 0 :: post)) true (entries ++ [e])) := by
  obtain ⟨c, hc, hiff⟩ := isComment_iff h pre post rfl
  have hnot : ¬ (c = 0 ∨ c = hashSign) := fun hcom => hline (hiff.mp hcom)
  have hkey0 : 0 ∉ key := fun hm => h (List.mem_append_left _ hm)
  have hvalue0 : 0 ∉ value := fun hm =>
    h (List.mem_append_right _ (List.mem_cons_of_mem _ hm))
  -- the `=` becomes a NUL, then the blanks in front of it
  have hmem : equalsSign ∈ key ++ equalsSign :: value := by simp
  have hidx : (key ++ equalsSign :: value).idxOf equalsSign = key.length := by
    rw [List.idxOf_append_of_notMem hkey, List.idxOf_cons_self, Nat.add_zero]
  have hpoke : poke (pre ++ (key ++ equalsSign :: value ++ 0 :: post)) (pre.length + key.length) [0]
      = some (pre ++ (key ++ 0 :: (value ++ 0 :: post))) := by
    have hcell := poke_cell (pre ++ key) equalsSign 0 (value ++ 0 :: post)
      List.length_append
    simpa only [List.append_assoc, List.cons_append] using hcell
  have hstrip := strrstrip_eq pre (value ++ 0 :: post) rfl hkey0
  have hafter : (pre ++ (key.map clearBlank ++ [0])).length = pre.length + key.length + 1 := by
    simp only [List.length_append, List.length_map, List.length_singleton]
    omega
  have hvalue := strlstrip_eq (pre ++ (key.map clearBlank ++ [0])) value post hafter
  simp only [List.append_assoc, List.singleton_append] at hvalue
  refine ⟨key.map clearBlank ++ 0 :: value,
    { key := pre.length, value := pre.length + key.length + 1 + (value.takeWhile isBlank).length },
    by simp, ?_, ?_⟩
  · intro rest
    have hname := @string_append_takeWhile UInt8 _ 0 pre (key.map clearBlank)
      (value ++ 0 :: rest) _ rfl
    rw [takeWhile_clearBlank hkey0] at hname
    have hdrop : 0 ∉ value.dropWhile isBlank := fun hm =>
      hvalue0 ((List.dropWhile_suffix _).subset hm)
    have hat : (pre ++ (key.map clearBlank ++ 0 :: value.takeWhile isBlank)).length
        = pre.length + key.length + 1 + (value.takeWhile isBlank).length := by
      simp only [List.length_append, List.length_map, List.length_cons]
      omega
    have hrest := @string_append _ _ 0 (pre ++ (key.map clearBlank ++ 0 :: value.takeWhile isBlank))
      _ rest _ hat hdrop
    have hsplit : pre ++ (key.map clearBlank ++ 0 :: value.takeWhile isBlank) ++
        (value.dropWhile isBlank ++ 0 :: rest)
        = pre ++ (key.map clearBlank ++ 0 :: (value ++ 0 :: rest)) := by
      conv_rhs => rw [← List.takeWhile_append_dropWhile (p := isBlank) (l := value)]
      simp only [List.append_assoc, List.cons_append]
    rw [hsplit] at hrest
    rw [List.append_assoc, List.cons_append, entryStrings, hname]
    dsimp only [Option.bind_eq_bind, Option.bind_some]
    rw [hrest]
    rfl
  · rw [parseLine, hc]
    simp only [Option.bind_eq_bind, Option.bind_some, if_neg hnot, strchr_append pre rfl h,
      if_pos hmem, hidx, hpoke, hstrip, hvalue]
    by_cases hfull : entries.length + 1 = maxCount
    · simp [hfull]
    · have hroom : entries.length < maxCount := by omega
      simp [hfull, hroom]

end

/-! ## The loop -/

/-- What the loop gives back if it comes to lines with these keys and values, or to none that it
accepts, when it has found `count` entries already. -/
def Reads (maxCount count : Nat) (spec : Option (List (CStr × CStr))) (ret : Bool)
    (strings : List (Option (CStr × CStr))) : Prop :=
  (ret = true ↔ ∃ es, spec = some es ∧ count + es.length < maxCount) ∧
    ∀ es, spec = some es → count + es.length < maxCount →
      strings = es.map (fun e => some (parsedEntry e))

theorem Reads.failed {maxCount count : Nat} {strings : List (Option (CStr × CStr))} :
    Reads maxCount count none false strings := by
  refine ⟨⟨fun h => absurd h Bool.false_ne_true, ?_⟩, ?_⟩
  · rintro ⟨es, hes, -⟩
    cases hes
  · intro es hes
    cases hes

/-- Too many keys and values. -/
theorem Reads.full {maxCount count : Nat} {es : List (CStr × CStr)}
    {strings : List (Option (CStr × CStr))} (h : maxCount ≤ count + es.length) :
    Reads maxCount count (some es) false strings := by
  refine ⟨⟨fun h => absurd h Bool.false_ne_true, ?_⟩, ?_⟩
  · rintro ⟨es', hes, hlt⟩
    cases hes
    omega
  · intro es' hes hlt
    cases hes
    omega

theorem Reads.nil {maxCount count : Nat} (h : count < maxCount) :
    Reads maxCount count (some []) true [] := by
  refine ⟨⟨fun _ => ⟨[], rfl, h⟩, fun _ => rfl⟩, ?_⟩
  intro es hes _
  cases hes
  rfl

theorem Reads.cons {maxCount count : Nat} {e : CStr × CStr} {es : List (CStr × CStr)} {ret : Bool}
    {strings : List (Option (CStr × CStr))} (h : Reads maxCount (count + 1) (some es) ret strings) :
    Reads maxCount count (some (e :: es)) ret (some (parsedEntry e) :: strings) := by
  obtain ⟨hret, hstrings⟩ := h
  have hlen : count + (e :: es).length = count + 1 + es.length := by
    rw [List.length_cons]
    omega
  constructor
  · rw [hret]
    constructor
    · rintro ⟨es', hes, hlt⟩
      cases hes
      exact ⟨e :: es, rfl, by omega⟩
    · rintro ⟨es', hes, hlt⟩
      cases hes
      exact ⟨es, rfl, by omega⟩
  · intro es' hes hlt
    cases hes
    rw [hstrings es rfl (by omega), List.map_cons]

/-- How the loop ends, as a function of how it goes on after a line. -/
def afterLine (go : List UInt8 → Bool → List AppEntry → Option (Bool × List UInt8 × List AppEntry))
    (entries : List AppEntry) : LineResult → Option (Bool × List UInt8 × List AppEntry)
  | .failed data => some (false, data, entries)
  | .exit data groupFound entries => some (groupFound, data, entries)
  | .next data groupFound entries => go data groupFound entries

/-- The result of the loop at a place of the data, with the entries found so far. -/
def LoopReads (maxCount : Nat) (pre text : List UInt8) (entries : List AppEntry)
    (spec : Option (List (CStr × CStr))) (r : Option (Bool × List UInt8 × List AppEntry)) : Prop :=
  ∃ ret text' new, r = some (ret, pre ++ text', entries ++ new) ∧ text'.length = text.length ∧
    (entries ++ new).length + 1 ≤ maxCount ∧
    Reads maxCount entries.length spec ret (new.map (entryStrings (pre ++ text')))

theorem entriesOf_true (lines : List CStr) : entriesOf true lines = some (groupEntries lines) := by
  rw [entriesOf]

theorem entriesOf_comment {line : CStr} (h : IsComment line) (found : Bool) (lines : List CStr) :
    entriesOf found (line :: lines) = entriesOf found lines := by
  cases found with
  | false => rw [entriesOf, if_pos h]
  | true => rw [entriesOf, entriesOf, groupEntries, if_pos h]

/-- **One line.** If the loop reads the lines behind it, it reads the line and them. -/
theorem parseLine_reads {maxCount : Nat} {pre post : List UInt8} {line : CStr}
    {lines : List CStr} (h : 0 ∉ line)
    {go : List UInt8 → Bool → List AppEntry → Option (Bool × List UInt8 × List AppEntry)}
    (hgo : ∀ (line' : List UInt8) (found : Bool) (entries : List AppEntry),
      line'.length = line.length → entries.length + 1 ≤ maxCount →
      LoopReads maxCount (pre ++ (line' ++ [0])) post entries (entriesOf found lines)
        (go (pre ++ (line' ++ 0 :: post)) found entries))
    (found : Bool) {entries : List AppEntry} (hcount : entries.length + 1 ≤ maxCount) :
    LoopReads maxCount pre (line ++ 0 :: post) entries (entriesOf found (line :: lines))
      ((parseLine maxCount (pre ++ (line ++ 0 :: post)) pre.length found entries).bind
        (afterLine go entries)) := by
  -- the loop goes on behind a line that holds other bytes now
  have hbehind : ∀ (line' : List UInt8) (found : Bool) (old : List AppEntry),
      line'.length = line.length → old.length + 1 ≤ maxCount →
      ∃ ret post' new, go (pre ++ (line' ++ 0 :: post)) found old
          = some (ret, pre ++ (line' ++ 0 :: post'), old ++ new) ∧ post'.length = post.length ∧
        (old ++ new).length + 1 ≤ maxCount ∧
        Reads maxCount old.length (entriesOf found lines) ret
          (new.map (entryStrings (pre ++ (line' ++ 0 :: post')))) := by
    intro line' found old hlen hold
    obtain ⟨ret, post', new, hr, hpost, hnew, hreads⟩ := hgo line' found old hlen hold
    simp only [List.append_assoc, List.singleton_append] at hr hreads
    exact ⟨ret, post', new, hr, hpost, hnew, hreads⟩
  have hsame : ∀ (found : Bool),
      LoopReads maxCount pre (line ++ 0 :: post) entries (entriesOf found lines)
        (go (pre ++ (line ++ 0 :: post)) found entries) := by
    intro found
    obtain ⟨ret, post', new, hr, hpost, hnew, hreads⟩ := hbehind line found entries rfl hcount
    refine ⟨ret, line ++ 0 :: post', new, hr, ?_, hnew, hreads⟩
    simp only [List.length_append, List.length_cons, hpost]
  by_cases hline : IsComment line
  · rw [parseLine_comment h hline, entriesOf_comment hline]
    exact hsame found
  · cases found with
    | false =>
        rw [parseLine_header h hline, entriesOf, if_neg hline]
        by_cases hheader : line = cstr "[Desktop Entry]"
        · rw [if_pos hheader, if_pos hheader]
          have hgroup := hsame true
          rw [entriesOf_true] at hgroup
          exact hgroup
        · rw [if_neg hheader, if_neg hheader]
          exact ⟨false, _, [], by rw [List.append_nil]; rfl, rfl, by rwa [List.append_nil],
            .failed⟩
    | true =>
        rcases key_or_not line with ⟨key, value, rfl, hkey⟩ | hkey
        · obtain ⟨line', e, hlen, hstrings, hparse⟩ :=
            @parseLine_key _ _ post _ _ _ h hline hkey hcount
          rw [hparse, entriesOf, groupEntries_key hline hkey]
          by_cases hfull : entries.length + 1 = maxCount
          · rw [if_pos hfull]
            refine ⟨false, line' ++ 0 :: post, [], by rw [List.append_nil]; rfl, ?_,
              by rwa [List.append_nil], .full ?_⟩
            · simp only [List.length_append, List.length_cons] at hlen ⊢
              omega
            · rw [List.length_cons]
              omega
          · rw [if_neg hfull]
            have hroom : (entries ++ [e]).length + 1 ≤ maxCount := by
              rw [List.length_append, List.length_singleton]
              omega
            obtain ⟨ret, post', new, hr, hpost, hnew, hreads⟩ :=
              hbehind line' true (entries ++ [e]) hlen hroom
            refine ⟨ret, line' ++ 0 :: post', e :: new, ?_, ?_, ?_, ?_⟩
            · rw [List.append_assoc] at hr
              exact hr
            · simp only [List.length_append, List.length_cons] at hlen ⊢
              omega
            · rw [List.append_assoc] at hnew
              exact hnew
            · rw [List.length_append, List.length_singleton] at hreads
              rw [entriesOf_true] at hreads
              rw [List.map_cons, hstrings]
              exact hreads.cons
        · rw [parseLine_other h hline hkey, entriesOf, groupEntries, if_neg hline, if_neg hkey]
          exact ⟨true, _, [], by rw [List.append_nil]; rfl, rfl, by rwa [List.append_nil],
            .nil (by omega)⟩

theorem LoopReads.congr {maxCount : Nat} {pre text text' : List UInt8} {entries : List AppEntry}
    {spec : Option (List (CStr × CStr))} {r : Option (Bool × List UInt8 × List AppEntry)}
    (h : LoopReads maxCount pre text entries spec r) (hlen : text.length = text'.length) :
    LoopReads maxCount pre text' entries spec r := by
  obtain ⟨ret, data, new, hr, hdata, hnew, hreads⟩ := h
  exact ⟨ret, data, new, hr, hdata.trans hlen, hnew, hreads⟩

/-- One round of the loop. -/
theorem parseFileDataLoop_succ (maxCount fuel : Nat) (data : List UInt8) (line : Nat)
    (found : Bool) (entries : List AppEntry) :
    parseFileDataLoop maxCount (fuel + 1) data line found entries =
      (strchr 0 data line newline).bind fun nextLine =>
        (match nextLine with
          | some p => poke data p [0]
          | none => some data).bind fun data =>
            (parseLine maxCount data line found entries).bind (afterLine
              (fun data found entries => match nextLine with
                | some p => parseFileDataLoop maxCount fuel data (p + 1) found entries
                | none => some (found, data, entries)) entries) := by
  rw [parseFileDataLoop]
  rfl

/-- The loop reads the lines of the text at a place of the data. -/
theorem parseFileDataLoop_reads {maxCount fuel : Nat} {text : CStr} (h : 0 ∉ text)
    (hfuel : text.length < fuel) (pre post : List UInt8) (found : Bool) {entries : List AppEntry}
    (hcount : entries.length + 1 ≤ maxCount) :
    LoopReads maxCount pre (text ++ 0 :: post) entries (entriesOf found (fileLines text))
      (parseFileDataLoop maxCount fuel (pre ++ (text ++ 0 :: post)) pre.length found entries) := by
  induction fuel generalizing text pre found entries with
  | zero => omega
  | succ fuel ih =>
      have hnl := @strchr_append _ _ 0 pre text post _ newline rfl h
      rw [parseFileDataLoop_succ, hnl]
      rcases line_or_last text with ⟨line, rest, rfl, hline⟩ | hlast
      · -- a line that ends in a newline
        have hline0 : 0 ∉ line := fun hm => h (List.mem_append_left _ hm)
        have hrest0 : 0 ∉ rest := fun hm => h (List.mem_append_right _ (List.mem_cons_of_mem _ hm))
        have hidx : (line ++ newline :: rest).idxOf newline = line.length := by
          rw [List.idxOf_append_of_notMem hline, List.idxOf_cons_self, Nat.add_zero]
        have hpoke :
            poke (pre ++ (line ++ newline :: rest ++ 0 :: post)) (pre.length + line.length) [0]
              = some (pre ++ (line ++ 0 :: (rest ++ 0 :: post))) := by
          have hcell := poke_cell (pre ++ line) newline 0 (rest ++ 0 :: post)
            List.length_append
          simpa only [List.append_assoc, List.cons_append] using hcell
        rw [if_pos (by simp), hidx, Option.bind_some]
        dsimp only
        rw [hpoke, Option.bind_some, fileLines_line hline]
        refine (parseLine_reads hline0 ?_ found hcount).congr (by simp)
        intro line' found old hlen hold
        have hat : (pre ++ (line' ++ [0])).length = pre.length + line.length + 1 := by
          simp only [List.length_append, List.length_singleton, hlen]
          omega
        have hshort : rest.length < fuel := by
          simp only [List.length_append, List.length_cons] at hfuel
          omega
        have hrest := ih hrest0 hshort (pre ++ (line' ++ [0])) found hold
        rw [hat] at hrest
        simpa only [List.append_assoc, List.singleton_append] using hrest
      · -- what follows the last newline
        have hspec : entriesOf found (fileLines text) = entriesOf found [text] := by
          by_cases hnil : text = []
          · subst hnil
            rw [entriesOf_comment (.inl rfl), fileLines]
          · rw [fileLines_last hnil hlast]
        rw [if_neg hlast, Option.bind_some]
        dsimp only
        rw [Option.bind_some, hspec]
        refine parseLine_reads h ?_ found hcount
        intro line' found old hlen hold
        refine ⟨found, post, [], ?_, rfl, by rwa [List.append_nil], ?_⟩
        · simp
        · cases found with
          | false => exact .failed
          | true => exact .nil (by omega)

/-- **The parser reads a text.** It ends and stays in its two arrays; it accepts a desktop entry
with less than `maxCount` keys, and its entries are what `parsedEntry` makes of the keys and
values. -/
theorem parseFileData_spec {maxCount fuel : Nat} {text : CStr} (h : 0 ∉ text) (hmax : 1 ≤ maxCount)
    (hfuel : text.length < fuel) (post : List UInt8) :
    ∃ ret data entries,
      parseFileData maxCount fuel (text ++ 0 :: post) = some (ret, data, entries) ∧
      entries.length < maxCount ∧
      (ret = true ↔ ∃ es, DesktopEntry text es ∧ es.length < maxCount) ∧
      ∀ es, DesktopEntry text es → es.length < maxCount →
        entries.map (entryStrings data) = es.map (fun e => some (parsedEntry e)) := by
  have hcount : ([] : List AppEntry).length + 1 ≤ maxCount := hmax
  obtain ⟨ret, data, entries, hr, -, hnew, hreads⟩ := parseFileDataLoop_reads h hfuel [] post
    false hcount
  rw [List.nil_append] at hr hnew hreads
  rw [List.nil_append] at hr
  refine ⟨ret, data, entries, hr, hnew, ?_⟩
  rw [List.length_nil, Reads] at hreads
  simp only [Nat.zero_add] at hreads
  simp only [DesktopEntry, entryLines_iff]
  exact hreads

/-! ## Blanks in keys -/

/-- A key with the blanks behind it removed, and a value with those in front of it removed. -/
def strippedEntry (e : CStr × CStr) : CStr × CStr :=
  (e.1.rdropWhile isBlank, e.2.dropWhile isBlank)

/-- A key is cut behind its last byte that is no blank just if it has no blank before. -/
theorem cutKey_eq_iff (key : CStr) :
    cutKey key = key.rdropWhile isBlank ↔ ∀ b ∈ key.rdropWhile isBlank, isBlank b = false := by
  constructor
  · intro h b hb
    rw [← h] at hb
    simpa using List.mem_takeWhile_imp hb
  · intro h
    have hsplit := List.rdropWhile_append_rtakeWhile (p := isBlank) (l := key)
    have hall : ∀ b ∈ key.rdropWhile isBlank, (fun b => decide ¬isBlank b = true) b = true := by
      intro b hb
      simp [h b hb]
    have hrest : (key.rtakeWhile isBlank).takeWhile (fun b => decide ¬isBlank b = true) = [] := by
      apply List.takeWhile_eq_nil_iff.mpr
      intro hne
      have hblank := List.mem_rtakeWhile_imp (List.getElem_mem (l := key.rtakeWhile isBlank) hne)
      simpa using hblank
    conv_lhs => rw [cutKey, ← hsplit]
    rw [List.takeWhile_append_of_pos hall, hrest, List.append_nil]

theorem parsedEntry_eq_iff (e : CStr × CStr) :
    parsedEntry e = strippedEntry e ↔ ∀ b ∈ e.1.rdropWhile isBlank, isBlank b = false := by
  rw [← cutKey_eq_iff, parsedEntry, strippedEntry, Prod.mk.injEq]
  exact and_iff_left rfl

theorem map_parsedEntry_eq_iff (es : List (CStr × CStr)) :
    es.map (fun e => some (parsedEntry e)) = (es.map strippedEntry).map some ↔
      ∀ e ∈ es, ∀ b ∈ e.1.rdropWhile isBlank, isBlank b = false := by
  rw [List.map_map, List.map_inj_left]
  simp only [Function.comp_apply, Option.some.injEq, parsedEntry_eq_iff]

/-- The text has a group, and only one list of keys and values. -/
theorem DesktopEntry.unique {text : CStr} {es es' : List (CStr × CStr)} (h : DesktopEntry text es)
    (h' : DesktopEntry text es') : es = es' := by
  have hsome := entryLines_iff.mp h
  rw [entryLines_iff.mp h'] at hsome
  exact (Option.some.inj hsome).symm

/-- **The parser reads its grammar** exactly if no key of a text that it accepts has a blank in
front of another byte. It always ends, and stays in its arrays. -/
theorem parse_as_grammar_iff {maxCount fuel : Nat} {text : CStr} (h : 0 ∉ text)
    (hmax : 1 ≤ maxCount) (hfuel : text.length < fuel) :
    ∃ ret data entries, parseFileData maxCount fuel (text ++ [0]) = some (ret, data, entries) ∧
      entries.length ≤ maxCount ∧
      ((∀ es, ret = true ∧ entries.map (entryStrings data) = es.map some ↔
          ∃ raw, DesktopEntry text raw ∧ raw.length < maxCount ∧ es = raw.map strippedEntry) ↔
        ∀ raw, DesktopEntry text raw → raw.length < maxCount →
          ∀ e ∈ raw, ∀ b ∈ e.1.rdropWhile isBlank, isBlank b = false) := by
  obtain ⟨ret, data, entries, hr, hlen, hret, hstrings⟩ := parseFileData_spec h hmax hfuel []
  refine ⟨ret, data, entries, hr, hlen.le, ?_⟩
  constructor
  · intro hclaim raw hraw hsmall
    have hgiven := ((hclaim (raw.map strippedEntry)).mpr ⟨raw, hraw, hsmall, rfl⟩).2
    rw [hstrings raw hraw hsmall] at hgiven
    exact (map_parsedEntry_eq_iff raw).mp hgiven
  · intro hblanks es
    constructor
    · rintro ⟨hyes, heq⟩
      obtain ⟨raw, hraw, hsmall⟩ := hret.mp hyes
      refine ⟨raw, hraw, hsmall, ?_⟩
      rw [hstrings raw hraw hsmall,
        (map_parsedEntry_eq_iff raw).mpr (hblanks raw hraw hsmall)] at heq
      exact ((Option.some_injective _).list_map heq).symm
    · rintro ⟨raw, hraw, hsmall, rfl⟩
      refine ⟨hret.mpr ⟨raw, hraw, hsmall⟩, ?_⟩
      rw [hstrings raw hraw hsmall]
      exact (map_parsedEntry_eq_iff raw).mpr (hblanks raw hraw hsmall)

/-- A text with a comment and a key without blanks in it. -/
def plainText : CStr := cstr "# x\n[Desktop Entry]\nName = a b\n"

theorem parse_as_grammar_iff_plain :
    ∃ data entries, parseFileData 1000 100 (plainText ++ [0]) = some (true, data, entries) ∧
      entries.map (entryStrings data) = [some (cstr "Name", cstr "a b")] := by
  have hnul : 0 ∉ plainText := by decide
  have hshort : plainText.length < 100 := by decide
  have hraw : DesktopEntry plainText [(cstr "Name ", cstr " a b")] :=
    entryLines_iff.mpr (by decide)
  have hblanks : ∀ raw, DesktopEntry plainText raw → raw.length < 1000 →
      ∀ e ∈ raw, ∀ b ∈ e.1.rdropWhile isBlank, isBlank b = false := by
    intro raw h _
    rw [h.unique hraw]
    decide +kernel
  have hmax : 1 ≤ 1000 := by omega
  obtain ⟨ret, data, entries, hr, -, hiff⟩ := parse_as_grammar_iff hnul hmax hshort
  have hes : [(cstr "Name", cstr "a b")] = [(cstr "Name ", cstr " a b")].map strippedEntry := by
    decide
  obtain ⟨rfl, hstrings⟩ := (hiff.mpr hblanks _).mpr ⟨_, hraw, by decide, hes⟩
  exact ⟨data, entries, hr, hstrings⟩

/-- A text with a blank in a key. -/
def blankText : CStr := cstr "[Desktop Entry]\nMy Key=v\n"

/-- **The key is cut**: it is `My Key` in the text, and `My` for the parser. -/
theorem key_cut_at_blank : DesktopEntry blankText [(cstr "My Key", cstr "v")] ∧
    ∃ data entries, parseFileData 1000 100 (blankText ++ [0]) = some (true, data, entries) ∧
      entries.map (entryStrings data) = [some (cstr "My", cstr "v")] := by
  have hraw : DesktopEntry blankText [(cstr "My Key", cstr "v")] := entryLines_iff.mpr (by decide)
  have hnul : 0 ∉ blankText := by decide
  have hshort : blankText.length < 100 := by decide
  have hmax : 1 ≤ 1000 := by omega
  obtain ⟨ret, data, entries, hr, -, hret, hstrings⟩ := parseFileData_spec hnul hmax hshort []
  obtain rfl := hret.mpr ⟨_, hraw, by decide⟩
  refine ⟨hraw, data, entries, hr, ?_⟩
  rw [hstrings _ hraw (by decide)]
  decide

end Lash
