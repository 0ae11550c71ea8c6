import Lash.Lib.Buffer
import Lash.Types
import Mathlib.Data.List.Infix

/-!
# The client library: command lines

`lash_extract_args` of the old API takes the LASH options out of a command line. It overwrites them
with NULL first, and then closes the gaps by moving what stands behind each, in the place of the
array. What is left behind the new end are copies of the last argument.

`args_extracted` says what the array and the `lash_args_t` hold afterwards.
-/

namespace Lash

/-! ## Arguments -/

/-- The server should not try to resume a lost client with this one. -/
abbrev flagNoAutoresume : Flags := 0x00000008

/-- Do not attempt to automatically start the server. -/
abbrev flagNoStartServer : Flags := 0x00000020

/-- `lash_args_t` -/
structure LashArgs where
  project : Option CStr
  server : Option CStr
  flags : Flags
  argc : Nat
  argv : Option (List CStr)

/-- `lash_args_new` -/
def lashArgsNew : LashArgs :=
  { project := none, server := none, flags := 0, argc := 0, argv := none }

/-- `strncmp(s, t, n) == 0` -/
def strncmpEq (s t : CStr) (n : Nat) : Bool := (s ++ [0]).take n == (t ++ [0]).take n

/-- `tolower` in the C locale. -/
def toLower (b : UInt8) : UInt8 := if 65 ≤ b ∧ b ≤ 90 then b + 32 else b

/-- `strncasecmp(s, t, n) == 0` -/
def strncasecmpEq (s t : CStr) (n : Nat) : Bool := strncmpEq (s.map toLower) (t.map toLower) n

/-- What `lash_extract_args` does about an argument: `none` where it is no option of LASH, else the
flag that it sets, which is 0 for the deprecated ones. -/
def lashOption (arg : CStr) : Option Flags :=
  if strncasecmpEq (cstr "--lash-server=") arg 14 then some 0
  else if strncasecmpEq (cstr "--lash-project=") arg 15 then some 0
  else if strncmpEq (cstr "--lash-id=") arg 10 then some 0
  else if strncmpEq (cstr "--lash-no-autoresume") arg 20 then some flagNoAutoresume
  else if strncmpEq (cstr "--lash-no-start-server") arg 22 then some flagNoStartServer
  else none

/-- The loop that overwrites the options: `n` arguments are left, `i` is the next one. It is `none`
where the array is left or a NULL is read. -/
def checkArgs : (n i : Nat) → LashArgs → (argv : List (Option CStr)) →
    Option (LashArgs × List (Option CStr))
  | 0, _, args, argv => some (args, argv)
  | n + 1, i, args, argv =>
    match argv[i]? with
    | some (some arg) =>
      match lashOption arg with
      | some flag =>
        (Buffer.poke argv i [none]).bind
          (checkArgs n (i + 1) { args with flags := args.flags ||| flag })
      | none => checkArgs n (i + 1) args argv
    | _ => none

/-- The inner loop, `(*argv)[j] = (*argv)[j + 1]`, with `n` rounds left. -/
def shiftArgs : (n j : Nat) → (argv : List (Option CStr)) → Option (List (Option CStr))
  | 0, _, argv => some argv
  | n + 1, j, argv =>
    match argv[j + 1]? with
    | some arg => (Buffer.poke argv j [arg]).bind (shiftArgs n (j + 1))
    | none => none

/-- The loop that closes the gaps. A gap is closed up to the old end of the array, and the place is
looked at again. -/
def sortArgs (argc i validCount : Nat) (argv : List (Option CStr)) :
    Option (Nat × List (Option CStr)) :=
  if i < validCount then
    match argv[i]? with
    | none => none
    | some none =>
      match shiftArgs (argc - 1 - i) i argv with
      | none => none
      | some argv => sortArgs argc (i - 1 + 1) (validCount - 1) argv
    | some (some _) => sortArgs argc (i + 1) validCount argv
  else some (validCount, argv)
  termination_by validCount - i

/-- The copies that `lash_args_set_args` makes of the arguments from the `i`th on. -/
def dupArgs : (n i : Nat) → (argv : List (Option CStr)) → Option (List CStr)
  | 0, _, _ => some []
  | n + 1, i, argv =>
    match argv[i]? with
    | some (some arg) => (dupArgs n (i + 1) argv).map (arg :: ·)
    | _ => none

/-- `lash_args_set_args` -/
def lashArgsSetArgs (args : LashArgs) (argc : Nat) (argv : List (Option CStr)) : Option LashArgs :=
  (dupArgs argc 0 argv).map fun copies =>
    { args with argc := argc, argv := if argc > 0 then some copies else none }

/-- `lash_extract_args`: the new `*argc`, the array, and the arguments that are returned. -/
def lashExtractArgs (argc : Nat) (argv : List (Option CStr)) :
    Option (Nat × List (Option CStr) × LashArgs) :=
  (checkArgs (argc - 1) 1 lashArgsNew argv).bind fun (args, argv) =>
    (sortArgs argc 1 argc argv).bind fun (validCount, argv) =>
      (lashArgsSetArgs args validCount argv).map fun args => (validCount, argv, args)

/-! ## Options -/

/-- A comparison of as many characters as a string has asks for a prefix. -/
theorem strncmpEq_iff {p : CStr} (h : 0 ∉ p) (arg : CStr) :
    strncmpEq p arg p.length = true ↔ p <+: arg := by
  rw [strncmpEq, beq_iff_eq, List.take_left, ← List.prefix_iff_eq_take, List.prefix_concat_iff]
  constructor
  · rintro (rfl | hpre)
    · exact absurd (by simp) h
    · exact hpre
  · exact Or.inr

/-- The options of LASH: two of them are recognised in upper and lower case. -/
def IsLashOption (arg : CStr) : Prop :=
  cstr "--lash-server=" <+: arg.map toLower ∨ cstr "--lash-project=" <+: arg.map toLower ∨
    cstr "--lash-id=" <+: arg ∨ cstr "--lash-no-autoresume" <+: arg ∨
    cstr "--lash-no-start-server" <+: arg

instance (arg : CStr) : Decidable (IsLashOption arg) := by
  unfold IsLashOption
  infer_instance

/-- `lashOption` in terms of prefixes. -/
theorem lashOption_eq (arg : CStr) : lashOption arg =
    if cstr "--lash-server=" <+: arg.map toLower then some 0
    else if cstr "--lash-project=" <+: arg.map toLower then some 0
    else if cstr "--lash-id=" <+: arg then some 0
    else if cstr "--lash-no-autoresume" <+: arg then some flagNoAutoresume
    else if cstr "--lash-no-start-server" <+: arg then some flagNoStartServer
    else none := by
  have hserver : strncasecmpEq (cstr "--lash-server=") arg 14 = true ↔
      cstr "--lash-server=" <+: arg.map toLower := strncmpEq_iff (by decide) _
  have hproject : strncasecmpEq (cstr "--lash-project=") arg 15 = true ↔
      cstr "--lash-project=" <+: arg.map toLower := strncmpEq_iff (by decide) _
  have hid : strncmpEq (cstr "--lash-id=") arg 10 = true ↔ cstr "--lash-id=" <+: arg :=
    strncmpEq_iff (by decide) _
  have hresume : strncmpEq (cstr "--lash-no-autoresume") arg 20 = true ↔
      cstr "--lash-no-autoresume" <+: arg := strncmpEq_iff (by decide) _
  have hstart : strncmpEq (cstr "--lash-no-start-server") arg 22 = true ↔
      cstr "--lash-no-start-server" <+: arg := strncmpEq_iff (by decide) _
  simp only [lashOption, hserver, hproject, hid, hresume, hstart]

theorem lashOption_isSome (arg : CStr) : (lashOption arg).isSome = true ↔ IsLashOption arg := by
  rw [lashOption_eq, IsLashOption]
  split_ifs with h₁ h₂ h₃ h₄ h₅ <;> simp [*]

/-- An argument starts with one of two options that begin differently. -/
theorem not_starts_with {p q arg : CStr} (hp : ¬ p <+: q) (hq : ¬ q <+: p) (h : p <+: arg) :
    ¬ q <+: arg := by
  intro h'
  rcases List.prefix_or_prefix_of_prefix h h' with hpq | hqp
  · exact hp hpq
  · exact hq hqp

/-- An argument starts with an option in small letters when the case is ignored, too. -/
theorem prefix_lower {p arg : CStr} (hp : p.map toLower = p) (h : p <+: arg) :
    p <+: arg.map toLower := by
  have hmap := h.map toLower
  rwa [hp] at hmap

/-- `--lash-no-autoresume` and nothing else sets its flag. -/
theorem lashOption_noAutoresume (arg : CStr) :
    (lashOption arg).getD 0 &&& flagNoAutoresume ≠ 0 ↔ cstr "--lash-no-autoresume" <+: arg := by
  rw [lashOption_eq]
  by_cases h : cstr "--lash-no-autoresume" <+: arg
  · have hlower : cstr "--lash-no-autoresume" <+: arg.map toLower := prefix_lower (by decide) h
    rw [if_neg (not_starts_with (by decide) (by decide) hlower),
      if_neg (not_starts_with (by decide) (by decide) hlower),
      if_neg (not_starts_with (by decide) (by decide) h), if_pos h]
    exact iff_of_true (by decide) h
  · apply iff_of_false _ h
    rw [if_neg h]
    split_ifs <;> decide

/-- `--lash-no-start-server` and nothing else sets its flag. -/
theorem lashOption_noStartServer (arg : CStr) :
    (lashOption arg).getD 0 &&& flagNoStartServer ≠ 0 ↔
      cstr "--lash-no-start-server" <+: arg := by
  rw [lashOption_eq]
  by_cases h : cstr "--lash-no-start-server" <+: arg
  · have hlower : cstr "--lash-no-start-server" <+: arg.map toLower := prefix_lower (by decide) h
    rw [if_neg (not_starts_with (by decide) (by decide) hlower),
      if_neg (not_starts_with (by decide) (by decide) hlower),
      if_neg (not_starts_with (by decide) (by decide) h),
      if_neg (not_starts_with (by decide) (by decide) h), if_pos h]
    exact iff_of_true (by decide) h
  · apply iff_of_false _ h
    rw [if_neg h]
    split_ifs <;> decide

/-- The flags after some arguments. -/
def flagsOf (flags : Flags) (args : List CStr) : Flags :=
  args.foldl (fun f a => f ||| (lashOption a).getD 0) flags

/-- A flag is set if it was set or one of the arguments sets it. -/
theorem flagsOf_and {m : Flags} (flags : Flags) (args : List CStr) :
    flagsOf flags args &&& m ≠ 0 ↔
      flags &&& m ≠ 0 ∨ ∃ a ∈ args, (lashOption a).getD 0 &&& m ≠ 0 := by
  induction args generalizing flags with
  | nil => simp [flagsOf]
  | cons a args ih =>
      have hor : (flags ||| (lashOption a).getD 0) &&& m ≠ 0 ↔
          flags &&& m ≠ 0 ∨ (lashOption a).getD 0 &&& m ≠ 0 := by
        rw [BitVec.and_or_distrib_right]
        exact (not_congr BitVec.or_eq_zero_iff).trans not_and_or
      have hrest := ih (flags ||| (lashOption a).getD 0)
      rw [hor] at hrest
      rw [List.exists_mem_cons_iff, ← or_assoc]
      exact hrest

/-! ## The array -/

/-- An argument after the first loop. -/
def checkedArg (arg : CStr) : Option CStr := if IsLashOption arg then none else some arg

/-- The first loop overwrites the options and sets their flags. -/
theorem checkArgs_eq (args : LashArgs) (l : List CStr) (pre post : List (Option CStr)) {i : Nat}
    (hi : pre.length = i) :
    checkArgs l.length i args (pre ++ (l.map some ++ post)) =
      some ({ args with flags := flagsOf args.flags l }, pre ++ (l.map checkedArg ++ post)) := by
  induction l generalizing args pre i with
  | nil => rfl
  | cons a l ih =>
      have hcell : (pre ++ (some a :: (l.map some ++ post)))[i]? = some (some a) :=
        Buffer.getElem?_append_cons pre _ _ hi
      have hflags : flagsOf args.flags (a :: l)
          = flagsOf (args.flags ||| (lashOption a).getD 0) l := rfl
      have hnext : ∀ (args : LashArgs) (c : Option CStr),
          checkArgs l.length (i + 1) args (pre ++ c :: (l.map some ++ post)) =
            some ({ args with flags := flagsOf args.flags l },
              pre ++ c :: (l.map checkedArg ++ post)) := by
        intro args c
        have h := ih args (pre ++ [c]) (i := i + 1) (by rw [List.length_append, hi]; rfl)
        simpa only [List.append_assoc, List.singleton_append] using h
      have hchecked := lashOption_isSome a
      rw [List.length_cons, List.map_cons, List.cons_append, checkArgs, hcell, List.map_cons,
        List.cons_append, hflags]
      dsimp only
      cases hopt : lashOption a with
      | none =>
          rw [hopt] at hchecked
          have hnot : checkedArg a = some a := if_neg (fun h => by simpa using hchecked.mpr h)
          have hzero : args.flags ||| 0 = args.flags := BitVec.or_zero
          rw [hnot, Option.getD_none, hzero]
          exact hnext args (some a)
      | some flag =>
          rw [hopt] at hchecked
          have hgone : checkedArg a = none := if_pos (hchecked.mp rfl)
          dsimp only
          rw [hgone, Option.getD_some, Buffer.poke_cell pre _ none _ hi, Option.bind_some]
          exact hnext { args with flags := args.flags ||| flag } none

/-- Closing a gap moves what stands behind it, and doubles the last one. -/
theorem shiftArgs_eq (x : Option CStr) (xs pre post : List (Option CStr)) {j : Nat}
    (hj : pre.length = j) :
    ∃ last, shiftArgs xs.length j (pre ++ (x :: xs ++ post))
      = some (pre ++ (xs ++ last :: post)) := by
  induction xs generalizing x pre j with
  | nil => exact ⟨x, rfl⟩
  | cons y xs ih =>
      have hcell : (pre ++ (x :: y :: xs ++ post))[j + 1]? = some y := by
        have h := Buffer.getElem?_append_cons (pre ++ [x]) y (xs ++ post) (i := j + 1)
          (by rw [List.length_append, hj]; rfl)
        simpa only [List.append_assoc, List.cons_append, List.nil_append] using h
      obtain ⟨last, hlast⟩ := ih y (pre ++ [y]) (j := j + 1) (by rw [List.length_append, hj]; rfl)
      refine ⟨last, ?_⟩
      rw [List.length_cons, shiftArgs, hcell]
      dsimp only
      rw [List.cons_append, Buffer.poke_cell pre x y _ hj, Option.bind_some]
      simpa only [List.append_assoc, List.cons_append, List.nil_append] using hlast

/-- The second loop leaves the arguments that are not NULL at the start of the array. `pre` was
looked at, `cells` were not, and `stale` are copies behind the new end. -/
theorem sortArgs_eq (cells pre stale post : List (Option CStr)) {argc i validCount : Nat}
    (hi : pre.length = i) (hone : 1 ≤ i) (hvalid : i + cells.length = validCount)
    (hargc : validCount + stale.length = argc) :
    ∃ stale', sortArgs argc i validCount (pre ++ (cells ++ (stale ++ post))) =
      some (i + (cells.filter Option.isSome).length,
        pre ++ (cells.filter Option.isSome ++ (stale' ++ post))) := by
  induction cells generalizing pre stale i validCount with
  | nil =>
      rw [List.length_nil, Nat.add_zero] at hvalid
      refine ⟨stale, ?_⟩
      rw [sortArgs, if_neg (by omega), ← hvalid]
      rfl
  | cons c cells ih =>
      have hcell : (pre ++ (c :: (cells ++ (stale ++ post))))[i]? = some c :=
        Buffer.getElem?_append_cons pre _ _ hi
      rw [List.length_cons] at hvalid
      rw [sortArgs, if_pos (by omega), List.cons_append, hcell]
      cases c with
      | none =>
          -- the rest of the array moves down by one, and the place is looked at again
          obtain ⟨last, hshift⟩ := shiftArgs_eq none (cells ++ stale) pre post hi
          have hcount : argc - 1 - i = (cells ++ stale).length := by
            rw [List.length_append]
            omega
          have harray : pre ++ none :: (cells ++ (stale ++ post))
              = pre ++ (none :: (cells ++ stale) ++ post) := by
            rw [List.cons_append, List.append_assoc]
          have hvalid' : i + cells.length = validCount - 1 := by omega
          have hargc' : validCount - 1 + (stale ++ [last]).length = argc := by
            rw [List.length_append, List.length_singleton]
            omega
          obtain ⟨stale', hrest⟩ := ih pre (stale ++ [last]) hi hone hvalid' hargc'
          refine ⟨stale', ?_⟩
          rw [harray, hcount, hshift, Nat.sub_add_cancel hone]
          simpa only [List.append_assoc, List.singleton_append, List.filter_cons,
            Option.isSome_none, Bool.false_eq_true, if_false] using hrest
      | some a =>
          obtain ⟨stale', hrest⟩ := ih (i := i + 1) (pre ++ [some a]) stale
            (by rw [List.length_append, hi]; rfl) (by omega) (by omega) hargc
          refine ⟨stale', ?_⟩
          simp only [List.append_assoc, List.singleton_append] at hrest
          rw [List.filter_cons_of_pos rfl, List.length_cons, List.cons_append]
          rw [Nat.add_right_comm i 1, Nat.add_assoc] at hrest
          exact hrest

theorem dupArgs_eq (l : List CStr) (pre post : List (Option CStr)) {i : Nat}
    (hi : pre.length = i) : dupArgs l.length i (pre ++ (l.map some ++ post)) = some l := by
  induction l generalizing pre i with
  | nil => rfl
  | cons a l ih =>
      have hcell : (pre ++ (some a :: (l.map some ++ post)))[i]? = some (some a) :=
        Buffer.getElem?_append_cons pre _ _ hi
      have h := ih (pre ++ [some a]) (i := i + 1) (by rw [List.length_append, hi]; rfl)
      simp only [List.append_assoc, List.singleton_append] at h
      rw [List.length_cons, List.map_cons, List.cons_append, dupArgs, hcell]
      dsimp only
      rw [h, Option.map_some]

/-! ## The command line -/

/-- The arguments that are left: the program's name, and what is no option of LASH. -/
def keptArgs (arg₀ : CStr) (args : List CStr) : List CStr :=
  arg₀ :: args.filter (fun a => ¬ IsLashOption a)

theorem filter_checkedArg (args : List CStr) :
    (args.map checkedArg).filter Option.isSome
      = (args.filter (fun a => ¬ IsLashOption a)).map some := by
  induction args with
  | nil => rfl
  | cons a args ih =>
      by_cases h : IsLashOption a
      · simpa [checkedArg, h] using ih
      · simpa [checkedArg, h] using ih

/-- **The options of LASH are taken out, and nothing else is.** The array starts with the arguments
that are left, in their order; the arguments that are returned are copies of these, and the flags
say which of the two options were there. -/
theorem args_extracted (arg₀ : CStr) (args : List CStr) (post : List (Option CStr)) :
    ∃ argv' r, lashExtractArgs (args.length + 1) ((arg₀ :: args).map some ++ post)
        = some ((keptArgs arg₀ args).length, argv', r) ∧
      argv'.take (keptArgs arg₀ args).length = (keptArgs arg₀ args).map some ∧
      r.argc = (keptArgs arg₀ args).length ∧ r.argv = some (keptArgs arg₀ args) ∧
      (r.flags &&& flagNoAutoresume ≠ 0 ↔ ∃ a ∈ args, cstr "--lash-no-autoresume" <+: a) ∧
      (r.flags &&& flagNoStartServer ≠ 0 ↔ ∃ a ∈ args, cstr "--lash-no-start-server" <+: a) := by
  have hcheck := checkArgs_eq lashArgsNew args [some arg₀] post (i := 1) rfl
  have hcells : 1 + (args.map checkedArg).length = args.length + 1 := by
    rw [List.length_map, Nat.add_comm]
  obtain ⟨stale, hsort⟩ :=
    sortArgs_eq (args.map checkedArg) [some arg₀] [] post (i := 1) rfl (le_refl 1) hcells
      (Nat.add_zero _)
  have hlen : 1 + ((args.map checkedArg).filter Option.isSome).length
      = (keptArgs arg₀ args).length := by
    rw [filter_checkedArg, List.length_map, keptArgs, List.length_cons, Nat.add_comm]
  have harray : [some arg₀] ++ ((args.map checkedArg).filter Option.isSome ++ (stale ++ post))
      = (keptArgs arg₀ args).map some ++ (stale ++ post) := by
    rw [filter_checkedArg]
    rfl
  have hcopies : dupArgs (keptArgs arg₀ args).length 0
      ((keptArgs arg₀ args).map some ++ (stale ++ post)) = some (keptArgs arg₀ args) :=
    dupArgs_eq (keptArgs arg₀ args) [] (stale ++ post) rfl
  have hpos : (keptArgs arg₀ args).length > 0 := Nat.succ_pos _
  rw [hlen, harray] at hsort
  have hall : lashExtractArgs (args.length + 1) ((arg₀ :: args).map some ++ post) =
      some ((keptArgs arg₀ args).length, (keptArgs arg₀ args).map some ++ (stale ++ post),
        { lashArgsNew with
          flags := flagsOf 0 args
          argc := (keptArgs arg₀ args).length
          argv := some (keptArgs arg₀ args) }) := by
    rw [lashExtractArgs, Nat.add_sub_cancel, List.map_cons, List.cons_append]
    rw [List.singleton_append] at hcheck
    rw [List.nil_append] at hsort
    rw [hcheck, Option.bind_some]
    dsimp only
    rw [hsort, Option.bind_some]
    dsimp only
    rw [lashArgsSetArgs, hcopies, Option.map_some, Option.map_some, if_pos hpos]
    rfl
  refine ⟨_, _, hall, ?_, rfl, rfl, ?_, ?_⟩
  · exact List.take_left' (List.length_map _)
  · rw [flagsOf_and]
    simp only [lashOption_noAutoresume]
    exact or_iff_right (by simp)
  · rw [flagsOf_and]
    simp only [lashOption_noStartServer]
    exact or_iff_right (by simp)

end Lash
