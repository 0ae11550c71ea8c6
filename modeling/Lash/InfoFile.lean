import Lash.Reopen
import Mathlib.Data.List.TakeWhile

/-!
# Info files, good and bad

What `storeOpen` makes of the info file of a store, whatever is in it. The first line counts the
keys, and each of the next lines is one. A store is opened with as many keys as are counted, or
not at all, and then it has none (`opened_or_empty`).
-/

namespace Lash

/-! ## Lines -/

/-- The lines of a file without their newlines. What follows the last newline is a line if there is
anything. -/
def fileLines : List UInt8 → List CStr
  | [] => []
  | b :: data =>
    if b = newline then [] :: fileLines data
    else match fileLines data with
      | [] => [[b]]
      | line :: lines => (b :: line) :: lines

theorem fileLines_line {line : CStr} (h : newline ∉ line) (rest : List UInt8) :
    fileLines (line ++ newline :: rest) = line :: fileLines rest := by
  induction line with
  | nil => rw [List.nil_append, fileLines, if_pos rfl]
  | cons b line ih =>
      obtain ⟨hb, hline⟩ := List.ne_and_not_mem_of_not_mem_cons h
      rw [List.cons_append, fileLines, if_neg hb.symm, ih hline]

/-- The last line of a file can lack its newline. -/
theorem fileLines_last {line : CStr} (hne : line ≠ []) (h : newline ∉ line) :
    fileLines line = [line] := by
  induction line with
  | nil => exact absurd rfl hne
  | cons b line ih =>
      obtain ⟨hb, hline⟩ := List.ne_and_not_mem_of_not_mem_cons h
      rw [fileLines, if_neg hb.symm]
      by_cases hnil : line = []
      · rw [hnil, fileLines]
      · rw [ih hnil hline]

/-- Each line takes a byte. -/
theorem length_fileLines (data : List UInt8) : (fileLines data).length ≤ data.length := by
  induction data with
  | nil => exact le_refl 0
  | cons b data ih =>
      rw [fileLines]
      split_ifs
      · exact Nat.succ_le_succ ih
      · split
        · exact Nat.succ_le_succ (Nat.zero_le _)
        · next hlines =>
            rw [hlines] at ih
            exact Nat.le_succ_of_le ih

/-- A file starts with a line that ends in a newline, or has none. -/
theorem line_or_last (data : List UInt8) :
    (∃ line rest, data = line ++ newline :: rest ∧ newline ∉ line) ∨ newline ∉ data := by
  by_cases h : newline ∈ data
  · obtain ⟨line, rest, hdata, hline⟩ := List.eq_append_cons_of_mem h
    exact .inl ⟨line, rest, hdata, hline⟩
  · exact .inr h

theorem getline_last {line : CStr} (hne : line ≠ []) (h : newline ∉ line) :
    getline line = some (line, []) := by
  have hdrop : line.dropWhile (· ≠ newline) = [] := by
    apply List.dropWhile_eq_nil_iff.mpr
    intro b hb
    have hbn : b ≠ newline := fun he => h (he ▸ hb)
    simpa using hbn
  rw [getline, if_neg hne, hdrop]

/-- A line without a newline is the key as it is. -/
theorem lineKey_last {k : CStr} (hzero : 0 ∉ k) (hline : newline ∉ k) : lineKey k = k := by
  apply List.takeWhile_eq_self_iff.mpr
  intro b hb
  have h0 : b ≠ 0 := fun he => hzero (he ▸ hb)
  have hn : b ≠ newline := fun he => hline (he ▸ hb)
  simp [h0, hn]

/-- The newline of a line is not part of its key. -/
theorem lineKey_newline {line : CStr} (h : newline ∉ line) :
    lineKey (line ++ [newline]) = lineKey line := by
  induction line with
  | nil => rfl
  | cons b line ih =>
      obtain ⟨-, hline⟩ := List.ne_and_not_mem_of_not_mem_cons h
      rw [List.cons_append, lineKey, lineKey, List.takeWhile_cons, List.takeWhile_cons]
      split
      · exact congrArg _ (ih hline)
      · rfl

/-- The keys are the next lines of the file up to their first NUL, if there are as many. -/
theorem readKeys_lines (n : Nat) (data : List UInt8) :
    readKeys n data = if n ≤ (fileLines data).length
      then some (((fileLines data).map lineKey).take n) else none := by
  induction n generalizing data with
  | zero => rw [readKeys, if_pos (Nat.zero_le _), List.take_zero]
  | succ n ih =>
      rw [readKeys]
      rcases line_or_last data with ⟨line, rest, rfl, hline⟩ | hlast
      · -- a line that ends in a newline
        rw [getline_line hline, fileLines_line hline]
        dsimp only
        rw [ih rest, lineKey_newline hline, List.length_cons, List.map_cons, List.take_succ_cons]
        simp only [Nat.succ_le_succ_iff]
        split_ifs <;> rfl
      · by_cases hnil : data = []
        · rw [hnil, getline, if_pos rfl, fileLines, if_neg (by simp)]
        · -- what follows the last newline
          rw [getline_last hnil hlast, fileLines_last hnil hlast]
          dsimp only
          rw [ih [], fileLines]
          cases n with
          | zero => rfl
          | succ n => rfl

/-- The bytes of the lines are bytes of the file. -/
theorem mem_of_mem_fileLines {data : List UInt8} {line : CStr} (h : line ∈ fileLines data)
    {b : UInt8} (hb : b ∈ line) : b ∈ data ∧ b ≠ newline := by
  induction data generalizing line with
  | nil => exact absurd h (by simp [fileLines])
  | cons a data ih =>
      rw [fileLines] at h
      split at h
      · rcases List.mem_cons.mp h with rfl | h
        · exact absurd hb List.not_mem_nil
        · exact (ih h hb).imp_left (List.mem_cons_of_mem _)
      · next ha =>
          split at h
          · rw [List.mem_singleton] at h
            subst h
            rw [List.mem_singleton] at hb
            subst hb
            exact ⟨List.mem_cons_self, ha⟩
          · next first lines hlines =>
              rcases List.mem_cons.mp h with rfl | h
              · rcases List.mem_cons.mp hb with rfl | hb
                · exact ⟨List.mem_cons_self, ha⟩
                · have hfirst : first ∈ fileLines data := hlines ▸ List.mem_cons_self
                  exact (ih hfirst hb).imp_left (List.mem_cons_of_mem _)
              · have hline : line ∈ fileLines data := hlines ▸ List.mem_cons_of_mem _ h
                exact (ih hline hb).imp_left (List.mem_cons_of_mem _)

/-- **The keys are the next lines of the file**, if there are as many. -/
theorem readKeys_eq {data : List UInt8} (h : 0 ∉ data) (n : Nat) :
    readKeys n data =
      if n ≤ (fileLines data).length then some ((fileLines data).take n) else none := by
  have hsame : (fileLines data).map lineKey = fileLines data := by
    refine (List.map_congr_left fun line hline => ?_).trans (List.map_id _)
    exact lineKey_last (fun hz => h (mem_of_mem_fileLines hline hz).1)
      (fun hn => (mem_of_mem_fileLines hline hn).2 rfl)
  rw [readKeys_lines, hsame]

/-! ## The count -/

/-- The first line is a number of keys: what `strtol` reads up to the newline, or nothing at all. -/
def CountLine (line : CStr) (n : Nat) : Prop :=
  line = [] ∧ n = 0 ∨ n < 2 ^ 63 ∧ scanNumber (line ++ [newline]) = some ((n : Int), [newline])

/-- What is left behind a number is the end of the string. -/
theorem scanNumber_rest {s t : CStr} {n : Int} (h : scanNumber s = some (n, t)) : t <:+ s := by
  have hsign : ∀ u : CStr, (takeSign u).2 <:+ u := by
    intro u
    unfold takeSign
    split
    · exact List.suffix_cons _ _
    · exact List.suffix_cons _ _
    · exact List.suffix_refl _
  unfold scanNumber at h
  dsimp only at h
  split at h
  · cases h
  · obtain ⟨-, rfl⟩ := Prod.mk.inj (Option.some.inj h)
    exact ((List.dropWhile_suffix _).trans (hsign _)).trans (List.dropWhile_suffix _)

/-- The only newline of a line is its last byte. -/
theorem suffix_newline {line t : CStr} (hline : newline ∉ line) (h : t <:+ line ++ [newline])
    (hhead : t.head? = some newline) : t = [newline] := by
  obtain ⟨pre, hpre⟩ := h
  cases t with
  | nil => cases hhead
  | cons b tail =>
      obtain rfl := Option.some.inj hhead
      rcases List.eq_nil_or_concat tail with rfl | ⟨init, last, rfl⟩
      · rfl
      · have hcons : (pre ++ newline :: init) ++ [last] = line ++ [newline] := by
          rw [← hpre, List.append_assoc, List.cons_append, List.concat_eq_append]
        have hinit : pre ++ newline :: init = line := (List.append_inj' hcons rfl).1
        exact absurd (hinit ▸ List.mem_append_right _ List.mem_cons_self) hline

/-- A line that ends in a newline is taken for the number that it is. A negative one is taken for a
number of keys that no file has lines for. -/
theorem parseNumKeys_line {line : CStr} (hline : newline ∉ line) (n : Nat) :
    parseNumKeys (line ++ [newline]) = some n ↔
      CountLine line n ∨ 2 ^ 63 ≤ n ∧ n < 2 ^ 64 ∧
        scanNumber (line ++ [newline]) = some ((n : Int) - 2 ^ 64, [newline]) := by
  rw [parseNumKeys, CountLine]
  cases hscan : scanNumber (line ++ [newline]) with
  | none =>
      rw [Option.getD_none]
      dsimp only
      rw [if_neg (by omega)]
      have hhead : (line ++ [newline]).head? = some newline ↔ line = [] := by
        cases line with
        | nil => simp
        | cons b line =>
            obtain ⟨hb, -⟩ := List.ne_and_not_mem_of_not_mem_cons hline
            simp [hb.symm]
      by_cases hnil : line = []
      · rw [if_pos (hhead.mpr hnil)]
        simp [hnil, eq_comm]
      · rw [if_neg (fun h => hnil (hhead.mp h))]
        simp [hnil]
  | some r =>
      obtain ⟨z, rest⟩ := r
      rw [Option.getD_some]
      dsimp only
      -- there is no number in an empty line
      have hnil : line ≠ [] := by
        rintro rfl
        cases hscan
      by_cases hrange : z < -2 ^ 63 ∨ 2 ^ 63 ≤ z
      · rw [if_pos hrange]
        simp only [reduceCtorEq, hnil, false_and, false_or, Option.some.injEq, Prod.mk.injEq,
          false_iff]
        omega
      · rw [if_neg hrange]
        by_cases hhead : rest.head? = some newline
        · obtain rfl := suffix_newline hline (scanNumber_rest hscan) hhead
          rw [if_pos hhead]
          simp only [hnil, false_and, false_or, Option.some.injEq, Prod.mk.injEq, and_true]
          omega
        · rw [if_neg hhead]
          have hrest : rest ≠ [newline] := fun h => hhead (by rw [h]; rfl)
          simp [hnil, hrest]

/-- A line without a newline is taken for no number. -/
theorem parseNumKeys_last {line : CStr} (hline : newline ∉ line) : parseNumKeys line = none := by
  have hnot : ∀ t : CStr, t <:+ line → t.head? ≠ some newline := by
    intro t ht hhead
    exact hline (ht.subset (List.mem_of_mem_head? hhead))
  rw [parseNumKeys]
  cases hscan : scanNumber line with
  | none =>
      rw [Option.getD_none]
      dsimp only
      rw [if_neg (by omega), if_neg (hnot line (List.suffix_refl line))]
  | some r =>
      rw [Option.getD_some]
      dsimp only
      rw [if_neg (hnot r.2 (scanNumber_rest hscan)), ite_self]

/-! ## Opening -/

/-- The first line of a file counts the keys that follow it. -/
def Counts (data : List UInt8) (n : Nat) (keys : List CStr) : Prop :=
  ∃ line rest, data = line ++ newline :: rest ∧ newline ∉ line ∧ CountLine line n ∧
    n ≤ (fileLines rest).length ∧ keys = (fileLines rest).take n

/-- There is only one first line. -/
theorem first_line_inj {line line' : CStr} {rest rest' : List UInt8} (h : newline ∉ line)
    (h' : newline ∉ line') (heq : line ++ newline :: rest = line' ++ newline :: rest') :
    line = line' ∧ rest = rest' := by
  have hget := getline_line h rest
  rw [heq, getline_line h'] at hget
  obtain ⟨hline, hrest⟩ := Prod.mk.inj (Option.some.inj hget)
  exact ⟨(List.append_cancel_right hline).symm, hrest.symm⟩

section

variable {dir : CStr} {fs : Fs} {data : List UInt8}

/-- A store is opened with the keys that its file counts. -/
theorem storeOpen_counts (h : fs.read (storeNew dir).infoFilename = some data) (hzero : 0 ∉ data)
    {n : Nat} {keys : List CStr} (hcounts : Counts data n keys) :
    storeOpen (storeNew dir) fs = (true, { storeNew dir with numKeys := n, keys := keys }) := by
  obtain ⟨line, rest, rfl, hline, hcount, hlen, rfl⟩ := hcounts
  have hrest : 0 ∉ rest := fun hm => hzero (List.mem_append_right _ (List.mem_cons_of_mem _ hm))
  rw [storeOpen_of_read h, getline_line hline, Option.bind_some,
    (parseNumKeys_line hline n).mpr (.inl hcount), Option.bind_some, readKeys_eq hrest, if_pos hlen]
  rfl

/-- A store whose file does not count its keys has none. A file is shorter than `2 ^ 63` bytes, so
it does not have the lines for a negative count. -/
theorem storeOpen_not_counts (h : fs.read (storeNew dir).infoFilename = some data)
    (hzero : 0 ∉ data) (hsize : data.length < 2 ^ 63) (hnot : ¬ ∃ n keys, Counts data n keys) :
    storeOpen (storeNew dir) fs = (false, storeNew dir) := by
  rw [storeOpen_of_read h]
  rcases line_or_last data with ⟨line, rest, rfl, hline⟩ | hlast
  · have hrest : 0 ∉ rest := fun hm => hzero (List.mem_append_right _ (List.mem_cons_of_mem _ hm))
    rw [getline_line hline, Option.bind_some]
    cases hnum : parseNumKeys (line ++ [newline]) with
    | none => rfl
    | some n =>
        have hshort : ¬ n ≤ (fileLines rest).length := by
          intro hlen
          rcases (parseNumKeys_line hline n).mp hnum with hcount | ⟨hbig, -⟩
          · exact hnot ⟨n, _, line, rest, rfl, hline, hcount, hlen, rfl⟩
          · have hlines := length_fileLines rest
            rw [List.length_append, List.length_cons] at hsize
            omega
        rw [Option.bind_some, readKeys_eq hrest, if_neg hshort]
        rfl
  · by_cases hnil : data = []
    · rw [hnil, getline, if_pos rfl]
      rfl
    · rw [getline_last hnil hlast, Option.bind_some, parseNumKeys_last hlast]
      rfl

/-- **A store is opened with all its keys or has none**: it is opened if and only if the first
line of its info file is a count of lines that are there. -/
theorem opened_or_empty (h : fs.read (storeNew dir).infoFilename = some data) (hzero : 0 ∉ data)
    (hsize : data.length < 2 ^ 63) :
    (∀ n keys, Counts data n keys →
      storeOpen (storeNew dir) fs = (true, { storeNew dir with numKeys := n, keys := keys })) ∧
    ((¬ ∃ n keys, Counts data n keys) → storeOpen (storeNew dir) fs = (false, storeNew dir)) ∧
    ∀ line rest z tail, data = line ++ newline :: rest → newline ∉ line →
      scanNumber (line ++ [newline]) = some (z, tail) →
      z < 0 ∨ 2 ^ 63 ≤ z ∨ tail ≠ [newline] ∨ ((fileLines rest).length : Int) < z →
      storeOpen (storeNew dir) fs = (false, storeNew dir) := by
  refine ⟨fun n keys => storeOpen_counts h hzero, storeOpen_not_counts h hzero hsize, ?_⟩
  rintro line rest z tail hdata hline hscan hbad
  apply storeOpen_not_counts h hzero hsize
  rintro ⟨n, keys, line', rest', hdata', hline', hcount, hlen, -⟩
  obtain ⟨rfl, rfl⟩ := first_line_inj hline hline' (hdata.symm.trans hdata')
  rcases hcount with ⟨rfl, rfl⟩ | ⟨hsmall, hread⟩
  · cases hscan
  · obtain ⟨rfl, rfl⟩ := Prod.mk.inj (Option.some.inj (hread.symm.trans hscan))
    rcases hbad with hneg | hbig | htail | hmany
    · omega
    · omega
    · exact htail rfl
    · omega

end

/-- A store of two keys, the second of which has no newline. -/
def twoKeysFs : Fs where
  entries := [([cstr "d"], .dir), ([cstr "d", storeInfoFile], .file (cstr "2\nx\ny"))]
  faults := []

/-- It is opened with both. -/
theorem opened_or_empty_two :
    storeOpen (storeNew (cstr "/d")) twoKeysFs
      = (true, { storeNew (cstr "/d") with numKeys := 2, keys := [cstr "x", cstr "y"] }) := by
  have hread : twoKeysFs.read (storeNew (cstr "/d")).infoFilename = some (cstr "2\nx\ny") := by
    decide +kernel
  refine (opened_or_empty hread (by decide) (by decide)).1 2 [cstr "x", cstr "y"] ?_
  exact ⟨cstr "2", cstr "x\ny", by decide, by decide, .inr ⟨by decide, by decide +kernel⟩,
    by decide, by decide⟩

end Lash
