import Lash.Format
import Lash.Lib.Buffer
import Lash.Names

/-!
# The array of new project names

`server_create_new_project_name` builds the names it tries in an array of 1034 bytes. That is room
for the longest suggestion, a blank, nine digits and a NUL. After the last of its 999 999 999 names
the loop writes one more, with a number of ten digits, and does not look at it any more: a
suggestion of 1023 bytes all of whose names are taken is written one byte too far, and nothing else
is (`new_name_iff`).
-/

namespace Lash

/-- The size of `new_name`. -/
def newNameSize : Nat := 1034

/-- The number of names that are tried. -/
def newNameCount : Nat := 999999999

/-- The name that is tried in a round: first the suggestion, then the suggestion with a number. -/
def newNameCandidate (suggestion : CStr) : Nat → CStr
  | 0 => suggestion
  | k + 1 => suggestion ++ cstr " " ++ decimal (k + 2)

namespace Server

/-- The loop of `server_create_new_project_name` with the array it works in. It is `none` where the
array is left. -/
def newNameArrayLoop (s : Server) (suggestion : CStr) :
    (n i : Nat) → (newName : List UInt8) → Option (Option CStr)
  | 0, _, _ => some none
  | n + 1, i, newName =>
    (Buffer.string 0 newName 0).bind fun name =>
      if s.nameIsFree name then some (some name)
      else
        -- `sprintf(new_name, "%s %d", suggestion, i)`
        (Buffer.poke newName 0 (suggestion ++ cstr " " ++ decimal i ++ [0])).bind
          (newNameArrayLoop s suggestion n (i + 1))

/-- `server_create_new_project_name` with its static array, in which there may be anything. -/
def createNewProjectNameIn (s : Server) (newName : List UInt8) (suggestion : CStr) :
    Option (Option CStr) :=
  let suggestion := if suggestion = [] then cstr "New Project" else suggestion
  if suggestion.length > 1023 then some none
  else
    (Buffer.poke newName 0 (suggestion ++ [0])).bind
      (s.newNameArrayLoop suggestion newNameCount 2)

end Server

/-! ## Numbers in names -/

theorem zero_not_mem_decimal (n : Nat) : 0 ∉ decimal n :=
  fun h => absurd (isDigit_of_mem_decimal h) (by decide)

/-- The number behind the last one has ten digits. -/
theorem length_decimal_last : (decimal 1000000000).length = 10 := by
  rw [decimal, if_neg (by omega), List.length_map, List.length_reverse]
  norm_num

/-- A name with a number and its NUL. -/
theorem length_numbered (suggestion : CStr) (i : Nat) :
    (suggestion ++ cstr " " ++ decimal i ++ [0]).length
      = suggestion.length + (decimal i).length + 2 := by
  have hblank : (cstr " ").length = 1 := by decide
  simp only [List.length_append, List.length_singleton, hblank]
  omega

theorem zero_not_mem_numbered {suggestion : CStr} (h : 0 ∉ suggestion) (i : Nat) :
    0 ∉ suggestion ++ cstr " " ++ decimal i := by
  have hblank : (0 : UInt8) ∉ cstr " " := by decide
  simp only [List.mem_append, not_or]
  exact ⟨⟨h, hblank⟩, zero_not_mem_decimal i⟩

namespace Server

variable {s : Server} {suggestion : CStr}

/-! ## The loop without the array -/

/-- The loop finds nothing exactly if the names of all its rounds are taken. -/
theorem newNameLoop_eq_none {n k : Nat} :
    s.newNameLoop suggestion n (k + 2) (newNameCandidate suggestion k) = none ↔
      ∀ j < n, s.nameIsFree (newNameCandidate suggestion (k + j)) = false := by
  induction n generalizing k with
  | zero => simp [newNameLoop]
  | succ n ih =>
      have hrest := @ih (k + 1)
      rw [newNameLoop]
      constructor
      · intro h j hj
        split at h
        · cases h
        · next hfree =>
            cases j with
            | zero => simpa using hfree
            | succ j =>
                have hlater := hrest.mp h j (by omega)
                rwa [Nat.add_right_comm k 1 j] at hlater
      · intro h
        have hfirst := h 0 (by omega)
        rw [Nat.add_zero] at hfirst
        rw [if_neg (by simp [hfirst])]
        apply hrest.mpr
        intro j hj
        have hlater := h (j + 1) (by omega)
        rwa [Nat.add_right_comm k 1 j]

/-! ## The loop on the array -/

/-- **One round is left, or more.** As long as the array holds the name of the round the loops
agree, but for the name behind the last one if the suggestion has 1023 bytes. -/
theorem newNameArrayLoop_eq (hnul : 0 ∉ suggestion) (hlen : suggestion.length ≤ 1023) {n i : Nat}
    (hi : n + i = 1000000000) {newName : List UInt8} {name : CStr}
    (hsize : newName.length = newNameSize) (hname : Buffer.string 0 newName 0 = some name) :
    s.newNameArrayLoop suggestion (n + 1) i newName =
      if suggestion.length = 1023 ∧ s.newNameLoop suggestion (n + 1) i name = none then none
      else some (s.newNameLoop suggestion (n + 1) i name) := by
  induction n generalizing i newName name with
  | zero =>
      rw [Nat.zero_add] at hi
      subst hi
      rw [newNameArrayLoop, hname, Option.bind_some, newNameLoop]
      split
      · rw [if_neg (by simp)]
      · -- the name behind the last one
        rw [newNameLoop]
        have hnew := length_numbered suggestion 1000000000
        rw [length_decimal_last] at hnew
        by_cases hlong : suggestion.length = 1023
        · rw [if_pos ⟨hlong, rfl⟩, Buffer.poke, if_neg (by rw [hnew, hsize, newNameSize]; omega),
            Option.bind_none]
        · rw [if_neg (fun h => hlong h.1), Buffer.poke,
            if_pos (by rw [hnew, hsize, newNameSize]; omega), Option.bind_some, newNameArrayLoop]
  | succ n ih =>
      rw [newNameArrayLoop, hname, Option.bind_some, newNameLoop]
      split
      · rw [if_neg (by simp)]
      · have hdigits : (decimal i).length ≤ 9 := length_decimal_le (by omega) (by omega)
        have hnew := length_numbered suggestion i
        obtain ⟨next, hpoke, hsize', hnext⟩ := Buffer.poke_string (b := newName)
          (zero_not_mem_numbered hnul i) (by rw [hsize, newNameSize] at *; omega)
        rw [hpoke, Option.bind_some]
        exact ih (by omega) (hsize'.trans hsize) hnext

/-- The loop from its first round. -/
theorem newNameLoop_none {suggestion : CStr} :
    s.newNameLoop suggestion newNameCount 2 suggestion = none ↔
      ∀ k < newNameCount, s.nameIsFree (newNameCandidate suggestion k) = false := by
  have h := @newNameLoop_eq_none s suggestion newNameCount 0
  simp only [Nat.zero_add] at h
  exact h

/-- What the function does with a suggestion that is not empty. -/
theorem newName_of_suggestion (hnul : 0 ∉ suggestion) {newName : List UInt8}
    (hsize : newName.length = newNameSize) (hlen : suggestion.length ≤ 1023) :
    (Buffer.poke newName 0 (suggestion ++ [0])).bind
        (s.newNameArrayLoop suggestion newNameCount 2) =
      if suggestion.length = 1023 ∧
          ∀ k < newNameCount, s.nameIsFree (newNameCandidate suggestion k) = false then none
      else some (s.newNameLoop suggestion newNameCount 2 suggestion) := by
  have hroom : (suggestion ++ [0]).length ≤ newName.length := by
    rw [List.length_append, List.length_singleton, hsize, newNameSize]
    omega
  obtain ⟨next, hpoke, hsize', hnext⟩ := Buffer.poke_string hnul hroom
  have hloop := newNameArrayLoop_eq (s := s) hnul hlen (n := 999999998) (i := 2) (by omega)
    (hsize'.trans hsize) hnext
  rw [hpoke, Option.bind_some]
  simp only [← newNameLoop_none]
  exact hloop

/-- **The array changes nothing**, but if a suggestion of 1023 bytes has no name that is free. -/
theorem createNewProjectNameIn_eq (hnul : 0 ∉ suggestion) {newName : List UInt8}
    (hsize : newName.length = newNameSize) :
    s.createNewProjectNameIn newName suggestion =
      if suggestion.length = 1023 ∧
          ∀ k < newNameCount, s.nameIsFree (newNameCandidate suggestion k) = false then none
      else some (s.createNewProjectName suggestion) := by
  unfold createNewProjectNameIn createNewProjectName
  dsimp only
  by_cases hempty : suggestion = []
  · have hlen : (cstr "New Project").length = 11 := by decide
    have hshort : ¬ (cstr "New Project").length > 1023 := by omega
    subst hempty
    rw [if_pos rfl, if_neg hshort, if_neg hshort,
      newName_of_suggestion (by decide) hsize (by omega), if_neg (fun h => by omega),
      if_neg (fun h => absurd h.1 (by simp))]
    rfl
  · rw [if_neg hempty]
    by_cases hlong : suggestion.length > 1023
    · rw [if_pos hlong, if_pos hlong, if_neg (fun h => absurd h.1 (by omega))]
    · rw [if_neg hlong, if_neg hlong, newName_of_suggestion hnul hsize (by omega)]
      rfl

/-- **A new name is made in its array and is new** exactly if the suggestion does not have 1023
bytes, or one of the names that are tried is free: no byte outside of the array is written, a name
that is given back is neither that of a loaded project nor that of a directory with an info file,
and a longer suggestion gives none. -/
theorem new_name_iff (hnul : 0 ∉ suggestion) {newName : List UInt8}
    (hsize : newName.length = newNameSize) :
    (∃ r, s.createNewProjectNameIn newName suggestion = some r ∧
        (∀ name, r = some name → (∀ b ∈ s.loaded, (s.project b).name ≠ name) ∧
          s.g.fs.lashFileExists (lashGetFqn (lashGetFqn s.g.projectsDir name) projectInfoFile)
            = false) ∧
        (1023 < suggestion.length → r = none)) ↔
      (suggestion.length = 1023 →
        ∃ k < newNameCount, s.nameIsFree (newNameCandidate suggestion k) = true) := by
  rw [createNewProjectNameIn_eq hnul hsize]
  constructor
  · rintro ⟨r, hr, -⟩ hlen
    by_contra hnone
    have htaken : ∀ k < newNameCount, s.nameIsFree (newNameCandidate suggestion k) = false := by
      intro k hk
      apply Bool.eq_false_iff.mpr
      intro hfree
      exact hnone ⟨k, hk, hfree⟩
    rw [if_pos ⟨hlen, htaken⟩] at hr
    cases hr
  · intro hfree
    have hnot : ¬ (suggestion.length = 1023 ∧
        ∀ k < newNameCount, s.nameIsFree (newNameCandidate suggestion k) = false) := by
      rintro ⟨hlen, htaken⟩
      obtain ⟨k, hk, hyes⟩ := hfree hlen
      rw [htaken k hk] at hyes
      cases hyes
    rw [if_neg hnot]
    refine ⟨_, rfl, ?_, ?_⟩
    · intro name hname
      have hyes := createNewProjectName_nameIsFree hname
      refine ⟨fun b hb => createNewProjectName_free hname hb, ?_⟩
      rw [nameIsFree, Bool.and_eq_true, Bool.not_eq_true'] at hyes
      exact hyes.2
    · intro hlong
      have hne : suggestion ≠ [] := by
        rintro rfl
        exact absurd hlong (by simp)
      rw [createNewProjectName, if_neg hne]
      exact if_pos hlong

/-- A project is loaded that is called song, and one that is to be called so gets another name. -/
theorem new_name_iff_song :
    ∃ (s : Server) (b : Addr), b ∈ s.loaded ∧ (s.project b).name = cstr "song" ∧
      s.createNewProjectNameIn (List.replicate newNameSize 0) (cstr "song")
        = some (some (cstr "song 2")) ∧
      ∀ c ∈ s.loaded, (s.project c).name ≠ cstr "song 2" := by
  have hnul : (0 : UInt8) ∉ cstr "song" := by decide
  have hsize : (List.replicate newNameSize (0 : UInt8)).length = newNameSize :=
    List.length_replicate
  have hrun : (runFrom RenamesApart
      [.connect (cstr ":1") 5 (cstr "synth") 0 [] [cstr "synth"] 1,
        .projectRename (cstr "New Project") (cstr "song")]).any
      (fun s => (1 ∈ s.loaded ∧ (s.project 1).name = cstr "song") ∧
        s.createNewProjectName (cstr "song") = some (cstr "song 2")) = true := by
    decide +kernel
  obtain ⟨s, -, hgood⟩ := exists_of_runFrom hrun
  obtain ⟨⟨hloaded, hname⟩, hnew⟩ := of_decide_eq_true hgood
  obtain ⟨r, hr, hfree, -⟩ := (@new_name_iff s (cstr "song") hnul _ hsize).mpr
    (fun h => absurd h (by decide))
  obtain rfl : r = some (cstr "song 2") := by
    rw [createNewProjectNameIn_eq hnul hsize, if_neg (fun h => absurd h.1 (by decide)),
      hnew] at hr
    exact (Option.some.inj hr).symm
  exact ⟨s, 1, hloaded, hname, hr, (hfree _ rfl).1⟩

/-- A server that has loaded a project under each of the first `n` names that are tried. -/
def crowded (n : Nat) (suggestion : CStr) : Server :=
  { Server.start { entries := [], faults := [] } (cstr "/p") with
    project := fun a => { projectNew a with name := newNameCandidate suggestion a }
    loaded := List.range n }

theorem crowded_taken (suggestion : CStr) {n k : Nat} (hk : k < n) :
    (crowded n suggestion).nameIsFree (newNameCandidate suggestion k) = false := by
  have hfound :
      ((crowded n suggestion).findProjectByName (newNameCandidate suggestion k)).isSome := by
    apply List.find?_isSome.mpr
    exact ⟨k, List.mem_range.mpr hk, decide_eq_true rfl⟩
  rw [nameIsFree, Option.isNone_eq_false_iff.mpr hfound, Bool.false_and]

/-- **The array is left** for a suggestion of 1023 bytes none of whose names is free. -/
theorem new_name_too_long :
    (crowded newNameCount (List.replicate 1023 97)).createNewProjectNameIn
      (List.replicate newNameSize 0) (List.replicate 1023 97) = none := by
  have hnul : (0 : UInt8) ∉ List.replicate 1023 97 :=
    fun h => absurd (List.eq_of_mem_replicate h) (by decide)
  rw [createNewProjectNameIn_eq hnul List.length_replicate]
  exact if_pos ⟨List.length_replicate, fun k hk => crowded_taken _ hk⟩

end Server

end Lash
