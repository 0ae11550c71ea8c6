import Lash.Lib.Buffer
import Lash.Lib.Shell
import Lash.Types

/-!
# The command line for a terminal

`loader_exec_program_in_xterm` of `lashd/loader.c` writes the arguments of a client into one
string, each between double quotes, for a shell that `xterm` is to start. The string fills its
buffer (`writeXtermCommand_text`), but what stands between the quotes is written as it is: the
shell reads the arguments that were meant just if it finds nothing in them that has a meaning
there (`xterm_command_iff`).

That such arguments are needed is shown by counting. What the shell reads is as much shorter than
the string as there are quotes around the arguments, so a quote or a backslash inside of an
argument would have to be made up for, and nothing behind it does that (`length_of_commands`).
-/

namespace Lash

open Buffer

/-! ## Writing the command -/

/-- `XTERM_COMMAND_EXTENSION` -/
def xtermCommandExtension : CStr := cstr "&& sh || sh"

/-- `"\"%s\" "` -/
def quotedArg (arg : CStr) : CStr := Shell.doubleQuote :: (arg ++ [Shell.doubleQuote, Shell.space])

/-- The length of the buffer, as the first loop counts it. -/
def xtermCommandLength (argv : List CStr) : Nat :=
  argv.foldl (fun len arg => len + (arg.length + 3)) (xtermCommandExtension.length + 1)

/-- The second loop and the `sprintf` behind it. Each `sprintf` ends its text with a NUL. -/
def writeXtermCommand : List CStr → List UInt8 → Nat → Option (List UInt8)
  | [], buf, ptr => poke buf ptr (xtermCommandExtension ++ [0])
  | arg :: argv, buf, ptr =>
    (poke buf ptr (quotedArg arg ++ [0])).bind fun buf =>
      writeXtermCommand argv buf (ptr + (arg.length + 3))

/-- `loader_exec_program_in_xterm`, up to what `execlp` is called with. `buf` is what the buffer
holds before it is written. -/
def loaderExecProgramInXterm (argv : List CStr) (buf : List UInt8) : Option (List CStr) := do
  let buf ← writeXtermCommand argv buf 0
  let command ← string 0 buf 0
  some [cstr "xterm", cstr "-e", cstr "/bin/sh", cstr "-c", command]

/-- The whole text of the command. -/
def xtermCommand (argv : List CStr) : CStr := argv.flatMap quotedArg ++ xtermCommandExtension

theorem quotedArg_length (arg : CStr) : (quotedArg arg).length = arg.length + 3 := by
  rw [quotedArg, List.length_cons, List.length_append]
  rfl

theorem xtermCommandLength_eq (argv : List CStr) :
    xtermCommandLength argv = (xtermCommand argv).length + 1 := by
  have h : ∀ n, argv.foldl (fun len arg => len + (arg.length + 3)) n =
      n + (argv.flatMap quotedArg).length := by
    induction argv with
    | nil => exact fun n => rfl
    | cons arg argv ih =>
        intro n
        rw [List.foldl_cons, ih, List.flatMap_cons, List.length_append, quotedArg_length]
        omega
  rw [xtermCommandLength, h, xtermCommand, List.length_append]
  omega

/-- The writes fill the free part of the buffer with the text and its NUL. -/
theorem writeXtermCommand_append (argv : List CStr) (pre free : List UInt8)
    (hfree : free.length = (xtermCommand argv).length + 1) :
    writeXtermCommand argv (pre ++ free) pre.length = some (pre ++ (xtermCommand argv ++ [0])) := by
  induction argv generalizing pre free with
  | nil =>
      have := poke_append pre free (xtermCommandExtension ++ [0]) [] rfl
        (hfree.trans (by rw [List.length_append]; rfl))
      rw [List.append_nil, List.append_nil] at this
      exact this
  | cons arg argv ih =>
      have hcommand : xtermCommand (arg :: argv) = quotedArg arg ++ xtermCommand argv := by
        rw [xtermCommand, List.flatMap_cons, List.append_assoc]
        rfl
      rw [hcommand, List.length_append] at hfree
      -- The NUL is the first byte of what the next `sprintf` writes.
      obtain ⟨old, post, rfl, hold⟩ : ∃ old post, free = old ++ post ∧
          old.length = (quotedArg arg ++ [0]).length := by
        refine ⟨free.take ((quotedArg arg).length + 1), free.drop ((quotedArg arg).length + 1),
          (List.take_append_drop _ _).symm, ?_⟩
        rw [List.length_take, List.length_append, List.length_singleton]
        omega
      have hpost : (0 :: post).length = (xtermCommand argv).length + 1 := by
        rw [List.length_append, List.length_singleton] at hold
        rw [List.length_append] at hfree
        rw [List.length_cons]
        omega
      have hnext := ih (pre ++ quotedArg arg) (0 :: post) hpost
      rw [List.length_append, quotedArg_length] at hnext
      rw [writeXtermCommand, poke_append pre old (quotedArg arg ++ [0]) post rfl hold,
        Option.bind_some, hcommand]
      simpa using hnext

/-- **The text and its NUL fill the buffer.** -/
theorem writeXtermCommand_text (argv : List CStr) (buf : List UInt8)
    (hbuf : buf.length = xtermCommandLength argv) :
    writeXtermCommand argv buf 0 = some (xtermCommand argv ++ [0]) :=
  writeXtermCommand_append argv [] buf (hbuf.trans (xtermCommandLength_eq argv))

/-! ## Reading the command -/

open Shell

/-- `&& sh || sh` -/
def shOrSh : List (Op × List (List UInt8)) := [(.and, [cstr "sh"]), (.or, [cstr "sh"])]

/-- The text behind a word, where these arguments follow. -/
def behind : List CStr → CStr
  | [] => space :: xtermCommandExtension
  | arg :: argv => space :: doubleQuote :: (arg ++ doubleQuote :: behind argv)

theorem behind_eq (argv : List CStr) : behind argv = space :: xtermCommand argv := by
  induction argv with
  | nil => rfl
  | cons arg argv ih =>
      rw [behind, ih, xtermCommand, xtermCommand, List.flatMap_cons, quotedArg]
      simp

/-- The extension has no byte too many. -/
theorem length_of_extension {n : Nat} {s : List UInt8} {ts : List Token} (hs : s <:+ behind [])
    (ht : tokens n s = some ts) (hc : commands false ts = some ([], shOrSh)) :
    (behind []).length ≤ s.length + 1 := by
  have hshort : ∀ k : Fin 13, 2 ≤ k.val →
      (tokens 13 ((behind []).drop k)).bind (commands false) ≠ some ([], shOrSh) := by
    decide +kernel
  have hdrop : (behind []).drop ((behind []).length - s.length) = s :=
    (List.suffix_iff_eq_drop.mp hs).symm
  have hlen : (behind []).length = 12 := by decide +kernel
  by_contra hlt
  apply hshort ⟨12 - s.length, by omega⟩ (by dsimp only; omega)
  dsimp only
  rw [← hlen, hdrop, tokens_enough ht (by omega)]
  exact hc

section

variable {arg t pre w v rest : List UInt8}

theorem suffix_behind (arg b : List UInt8) : b <:+ arg ++ doubleQuote :: b :=
  (List.suffix_cons _ _).trans (List.suffix_append _ _)

/-- The text of a word does not end with the space behind a closing quote. -/
theorem not_space_of_reads (h : Shell.Reads .none w v) (hne : w ≠ [])
    (hin : w ++ rest <:+ arg ++ doubleQuote :: space :: t) : rest.length ≠ t.length := by
  intro hlen
  obtain ⟨x, c, rfl⟩ : ∃ x c, w = x ++ [c] := by
    obtain ⟨x, c, hc⟩ := (List.eq_nil_or_concat w).resolve_left hne
    exact ⟨x, c, hc.trans List.concat_eq_append⟩
  have hc : c :: rest = space :: t := by
    have hc : c :: rest <:+ arg ++ doubleQuote :: space :: t :=
      List.IsSuffix.trans ⟨x, by simp⟩ hin
    have hlen' : (c :: rest).length = (space :: t).length := congrArg (· + 1) hlen
    exact (List.suffix_of_suffix_length_le hc (suffix_behind arg _) hlen'.le).eq_of_length hlen'
  obtain ⟨rfl, rfl⟩ := List.cons.inj hc
  -- The space would have to be escaped, but the byte in front of it is the quote.
  obtain ⟨b, rfl⟩ := h.space_last rfl
  have hback : backslash :: space :: rest <:+ arg ++ doubleQuote :: space :: rest :=
    List.IsSuffix.trans ⟨b, by simp⟩ hin
  have heq := (List.suffix_of_suffix_length_le hback (List.suffix_append _ _)
    (Nat.le_refl _)).eq_of_length rfl
  cases (List.cons.inj heq).1

/-- The text of an argument that stands in front of its closing quote does not end with this
quote. -/
theorem not_quote_of_reads (h : Shell.Reads .none w arg) (hne : w ≠ [])
    (hin : pre ++ (w ++ t) <:+ arg ++ doubleQuote :: t) : False := by
  have hle := hin.length_le
  have hlong := h.length.1
  simp only [List.length_append, List.length_cons] at hle
  obtain ⟨x, c, rfl⟩ : ∃ x c, w = x ++ [c] := by
    obtain ⟨x, c, hc⟩ := (List.eq_nil_or_concat w).resolve_left hne
    exact ⟨x, c, hc.trans List.concat_eq_append⟩
  have hc : c :: t = doubleQuote :: t := by
    have hc : c :: t <:+ arg ++ doubleQuote :: t := List.IsSuffix.trans ⟨pre ++ x, by simp⟩ hin
    exact (List.suffix_of_suffix_length_le hc (List.suffix_append _ _)
      (Nat.le_refl _)).eq_of_length rfl
  obtain ⟨rfl, -⟩ := List.cons.inj hc
  -- It would be the one thing in the word that is escaped.
  obtain ⟨b, rfl, rfl⟩ := h.escaped_last (by omega) rfl
  simp only [List.length_append, List.length_singleton] at hle hlong
  have heq := hin.eq_of_length (by
    simp only [List.length_append, List.length_cons, List.length_nil]
    omega)
  have hpre : pre = [] := by
    apply List.eq_nil_of_length_eq_zero
    omega
  rw [hpre, List.nil_append, List.append_assoc, List.append_assoc, List.append_assoc] at heq
  have hlast := (List.cons.inj (List.append_cancel_left heq)).1
  cases hlast

/-- The text of an argument that stands in front of its closing quote does not end sooner. -/
theorem length_le_of_reads (h : Shell.Reads .none w arg) (hstop : StopsAt rest)
    (hin : pre ++ (w ++ rest) <:+ arg ++ doubleQuote :: t) : rest.length ≤ t.length := by
  by_contra hlt
  have hle := hin.length_le
  have hlong := h.length.1
  simp only [List.length_append, List.length_cons] at hle
  have hpre : pre = [] := by
    apply List.eq_nil_of_length_eq_zero
    omega
  obtain ⟨rfl, -⟩ := h.eq_of_length (by omega)
  have heq := hin.eq_of_length (by simp only [List.length_append, List.length_cons]; omega)
  rw [hpre, List.nil_append] at heq
  cases hstop _ _ (List.append_cancel_left heq)

end

/-- **What is read as the last of the arguments is hardly shorter than what was written for
them.** It may lack one byte, which is the space in front. -/
theorem length_of_commands {argv : List CStr} {n : Nat} {s : List UInt8} {ts : List Token}
    (hs : s <:+ behind argv) (ht : tokens n s = some ts)
    (hc : commands false ts = some (argv, shOrSh)) : (behind argv).length ≤ s.length + 1 := by
  induction argv generalizing n s ts with
  | nil => exact length_of_extension hs ht hc
  | cons arg argv ih =>
      by_contra hlt
      obtain ⟨raw, us, rfl, hus⟩ := commands_word hc
      obtain ⟨pre, w, rest, m, rfl, hw, hne, hstop, hrest⟩ := tokens_word ht
      -- The text of the argument begins behind its opening quote.
      have hin : pre ++ (w ++ rest) <:+ arg ++ doubleQuote :: behind argv := by
        refine List.suffix_of_suffix_length_le hs
          ((List.suffix_cons _ _).trans (List.suffix_cons _ _)) ?_
        simp only [behind, List.length_append, List.length_cons] at hlt ⊢
        omega
      have hle := length_le_of_reads hw hstop hin
      have hsuffix : rest <:+ behind argv := by
        have hrestIn := ((List.suffix_append w rest).trans (List.suffix_append pre _)).trans hin
        exact List.suffix_of_suffix_length_le hrestIn (suffix_behind arg _) hle
      have hrestLen := ih hsuffix hrest hus
      rcases Nat.eq_or_lt_of_le hle with hsame | hless
      · rw [hsuffix.eq_of_length hsame] at hin
        exact not_quote_of_reads hw hne hin
      · rw [behind_eq] at hin hrestLen hless
        rw [List.length_cons] at hrestLen hless
        exact not_space_of_reads hw hne ((List.suffix_append pre _).trans hin) (by omega)

/-- An argument that is read as it was meant stands for itself between its quotes, and the others
stand behind the closing one. -/
theorem verbatim_of_reads {arg w rest : List UInt8} {argv : List CStr}
    (h : Shell.Reads .double w arg) (hsplit : arg ++ doubleQuote :: behind argv = w ++ rest)
    (hrest : rest <:+ behind argv → (behind argv).length ≤ rest.length + 1) :
    verbatim arg = true ∧ rest = behind argv := by
  have hlong := h.length.2 (by decide)
  have hlen := congrArg List.length hsplit
  simp only [List.length_append, List.length_cons] at hlen
  have hsuffix : rest <:+ behind argv :=
    List.suffix_of_suffix_length_le ⟨w, hsplit.symm⟩ (suffix_behind arg _) (by omega)
  have hrestLen := hrest hsuffix
  rcases Nat.eq_or_lt_of_le hsuffix.length_le with hsame | hless
  · -- The word ends at a closing quote that nothing else is in its text for.
    obtain rfl := hsuffix.eq_of_length hsame
    have hw : w = arg ++ [doubleQuote] := by
      apply (List.append_left_inj (behind argv)).mp
      rw [← hsplit]
      simp
    obtain ⟨u, x, hux, harg, hu, hx⟩ := h.verbatim_of_length (by rw [hw]; simp)
    have hxnil : x = [] := by
      rw [hw, harg, List.append_assoc] at hux
      cases x with
      | nil => rfl
      | cons c x =>
          have hc := (List.cons.inj (List.append_cancel_left hux)).1
          exact absurd (hc ▸ List.mem_cons_self) hx
    rw [harg, hxnil, List.append_nil]
    exact ⟨hu, rfl⟩
  · -- One byte later it would end with a space that is not escaped.
    exfalso
    rw [behind_eq] at hsplit hless hrestLen hsuffix
    rw [List.length_cons] at hless hrestLen
    have hrestEq : rest = xtermCommand argv :=
      (List.suffix_of_suffix_length_le hsuffix (List.suffix_cons _ _) (by omega)).eq_of_length
        (by omega)
    have hw : w = (arg ++ [doubleQuote]) ++ [space] := by
      apply (List.append_left_inj rest).mp
      rw [← hsplit, hrestEq]
      simp
    obtain ⟨b, hb⟩ := h.space_last hw
    cases (List.cons.inj (List.append_inj_right' hb rfl)).1

/-- Arguments that are read as they were meant stand for themselves between their quotes. -/
theorem verbatim_of_commands {argv : List CStr} {n : Nat} {ts : List Token}
    (ht : tokens n (behind argv) = some ts) (hc : commands false ts = some (argv, shOrSh)) :
    ∀ arg ∈ argv, verbatim arg = true := by
  induction argv generalizing n ts with
  | nil => exact fun arg hmem => nomatch hmem
  | cons arg argv ih =>
      obtain ⟨n, rfl⟩ : ∃ k, n = k + 2 := by
        rcases n with _ | _ | n
        · cases ht
        · cases ht
        · exact ⟨n, rfl⟩
      obtain ⟨w, v, rest, raw, us, hsplit, hw, rfl, hus⟩ := tokens_quoted (n := n) ht
      obtain ⟨raw', us', hcons, hrest⟩ := commands_word hc
      obtain ⟨hword, rfl⟩ := List.cons.inj hcons
      obtain ⟨rfl, -⟩ := Token.word.inj hword
      obtain ⟨harg, rfl⟩ :=
        verbatim_of_reads hw hsplit fun hsuffix => length_of_commands hsuffix hus hrest
      intro a ha
      rcases List.mem_cons.mp ha with rfl | ha
      · exact harg
      · exact ih hus hrest a ha

/-- Arguments that stand for themselves between their quotes are read as they were meant. -/
theorem commands_behind {argv : List CStr} (h : ∀ arg ∈ argv, verbatim arg = true) {n : Nat}
    (hn : (behind argv).length < n) :
    ∃ ts, tokens n (behind argv) = some ts ∧ commands false ts = some (argv, shOrSh) := by
  induction argv generalizing n with
  | nil =>
      have hread : tokens 13 (behind []) = some
          [.andIf, .word (cstr "sh") (cstr "sh"), .orIf, .word (cstr "sh") (cstr "sh")] := by
        decide +kernel
      refine ⟨_, tokens_enough hread hn, ?_⟩
      decide +kernel
  | cons arg argv ih =>
      simp only [behind, List.length_cons, List.length_append] at hn
      obtain ⟨n, rfl⟩ : ∃ k, n = k + 2 := ⟨n - 2, by omega⟩
      have hstop : StopsAt (behind argv) := by
        rw [behind_eq]
        intro c t hc
        rw [← (List.cons.inj hc).1]
        rfl
      obtain ⟨ts, hts, hcommands⟩ :=
        ih (fun a ha => h a (List.mem_cons_of_mem _ ha)) (n := n) (by omega)
      have hread := (Shell.Reads.of_verbatim (h arg List.mem_cons_self)).readWord hstop
      rw [List.append_assoc, List.singleton_append] at hread
      have htokens : tokens (n + 2) (behind (arg :: argv)) =
          tokens (n + 1) (doubleQuote :: (arg ++ doubleQuote :: behind argv)) := rfl
      rw [htokens, tokens_doubleQuote, hread, Option.bind_some, hts]
      refine ⟨_, rfl, ?_⟩
      rw [commands, hcommands]
      rfl

/-- **The shell reads the arguments that were meant** if there is one and each of them stands for
itself between double quotes, and in no other case. -/
theorem readList_xtermCommand_iff (argv : List CStr) :
    readList (xtermCommand argv) = some ⟨argv, shOrSh⟩ ↔
      argv ≠ [] ∧ ∀ arg ∈ argv, verbatim arg = true := by
  cases argv with
  | nil =>
      have hread : readList (xtermCommand []) = none := by decide +kernel
      rw [hread]
      constructor
      · intro h
        cases h
      · rintro ⟨h, -⟩
        exact absurd rfl h
  | cons arg argv =>
      -- The text begins with a quote, so its first token is a word that can start a command.
      have htext : ∃ s, xtermCommand (arg :: argv) = doubleQuote :: s := ⟨_, rfl⟩
      have hbehind : ∀ n, tokens (n + 1) (behind (arg :: argv)) =
          tokens n (xtermCommand (arg :: argv)) := by
        intro n
        rw [behind_eq]
        rfl
      have hcommands : ∀ {n ts}, tokens (n + 1) (xtermCommand (arg :: argv)) = some ts →
          commands true ts = commands false ts := by
        intro n ts hts
        obtain ⟨s, hs⟩ := htext
        rw [hs] at hts
        obtain ⟨w, v, rest, raw, us, -, -, rfl, -⟩ := tokens_quoted hts
        exact commands_quoted v raw us
      rw [readList]
      constructor
      · intro h
        obtain ⟨r, hr, hlist⟩ := Option.map_eq_some_iff.mp h
        obtain ⟨ts, hts, hc⟩ := Option.bind_eq_some_iff.mp hr
        obtain ⟨hfirst, hrest⟩ := AndOrList.mk.inj hlist
        have hr' : r = (arg :: argv, shOrSh) := Prod.ext hfirst hrest
        rw [hcommands hts, hr'] at hc
        exact ⟨List.cons_ne_nil _ _, verbatim_of_commands ((hbehind _).trans hts) hc⟩
      · rintro ⟨-, h⟩
        obtain ⟨ts, hts, hc⟩ := commands_behind h
          (n := (xtermCommand (arg :: argv)).length + 2)
          (by rw [behind_eq]; exact Nat.lt_succ_self _)
        rw [hbehind] at hts
        rw [hts, Option.bind_some, hcommands hts, hc]
        rfl

/-- **What `xterm` is told to run.** The command and its NUL fill the buffer. The shell reads it
as the arguments, `&& sh || sh`, if and only if there is an argument and none has a double quote,
a `$` or a back quote in it, or a backslash that is its last byte or stands before another one or
a newline. -/
theorem xterm_command_iff {argv : List CStr} (hz : ∀ arg ∈ argv, 0 ∉ arg) (buf : List UInt8)
    (hbuf : buf.length = xtermCommandLength argv) :
    ∃ command, writeXtermCommand argv buf 0 = some (command ++ [0]) ∧
      loaderExecProgramInXterm argv buf =
        some [cstr "xterm", cstr "-e", cstr "/bin/sh", cstr "-c", command] ∧
      (readList command = some ⟨argv, shOrSh⟩ ↔
        argv ≠ [] ∧ ∀ arg ∈ argv, verbatim arg = true) := by
  have hwrite := writeXtermCommand_text argv buf hbuf
  have hnul : 0 ∉ xtermCommand argv := by
    intro hmem
    rcases List.mem_append.mp hmem with hmem | hmem
    · obtain ⟨arg, harg, hmem⟩ := List.mem_flatMap.mp hmem
      apply hz arg harg
      have hquote : (0 : UInt8) ≠ doubleQuote := by decide
      have hspace : (0 : UInt8) ≠ space := by decide
      simpa [quotedArg, hquote, hspace] using hmem
    · exact absurd hmem (by decide +kernel)
  have hstring : string 0 (xtermCommand argv ++ [0]) 0 = some (xtermCommand argv) :=
    string_append [] rfl hnul
  refine ⟨xtermCommand argv, hwrite, ?_, readList_xtermCommand_iff argv⟩
  rw [loaderExecProgramInXterm, hwrite]
  simp only [Option.bind_eq_bind, Option.bind_some, hstring]

/-- A program with an argument that has a blank in it. -/
theorem xterm_command_iff_blank :
    (∀ arg ∈ [cstr "vi", cstr "a b"], 0 ∉ arg) ∧
      (List.replicate 23 (0 : UInt8)).length = xtermCommandLength [cstr "vi", cstr "a b"] ∧
      ∃ command, writeXtermCommand [cstr "vi", cstr "a b"] (List.replicate 23 0) 0 =
          some (command ++ [0]) ∧
        readList command = some ⟨[cstr "vi", cstr "a b"], shOrSh⟩ := by
  have hz : ∀ arg ∈ [cstr "vi", cstr "a b"], 0 ∉ arg := by decide +kernel
  have hlen : (List.replicate 23 (0 : UInt8)).length =
      xtermCommandLength [cstr "vi", cstr "a b"] := by
    decide +kernel
  obtain ⟨command, hwrite, -, hread⟩ := xterm_command_iff hz (List.replicate 23 0) hlen
  exact ⟨hz, hlen, command, hwrite, hread.mpr (by decide +kernel)⟩

/-- A double quote in an argument ends the quoting: the one argument is read as two. -/
theorem argument_split :
    loaderExecProgramInXterm [cstr "a\" \"b"] (List.replicate 20 0) =
        some [cstr "xterm", cstr "-e", cstr "/bin/sh", cstr "-c",
          cstr "\"a\" \"b\" && sh || sh"] ∧
      readList (cstr "\"a\" \"b\" && sh || sh") = some ⟨[cstr "a", cstr "b"], shOrSh⟩ ∧
      [cstr "a", cstr "b"] ≠ [cstr "a\" \"b"] := by
  decide +kernel

end Lash
