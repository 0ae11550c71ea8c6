import Mathlib.Data.List.Basic

/-!
# How the shell reads a list of commands

The shell command language of POSIX, as far as it is needed for a line of simple commands that are
joined by `&&` and `||`: quoting, comments, line continuations, and the words of each command.
`readList` gives the commands, or `none` for a text that is anything else, because it has other
operators or is not complete, or because a word of it is subject to an expansion. A `$` counts as
one wherever it is not quoted, also where POSIX leaves open what it is.

`Reads` says which texts stand for a word, and `readWord_iff` that the reader takes these texts.
The lemmas about `Reads` compare the length of a text with the length of its word: what is quoted
or escaped is longer than what it stands for.
-/

namespace Shell

/-! ## Characters -/

abbrev space : UInt8 := 32
abbrev newline : UInt8 := 10
abbrev doubleQuote : UInt8 := 34
abbrev singleQuote : UInt8 := 39
abbrev backslash : UInt8 := 92
abbrev dollar : UInt8 := 36
abbrev backquote : UInt8 := 96
abbrev hash : UInt8 := 35
abbrev tilde : UInt8 := 126
abbrev ampersand : UInt8 := 38
abbrev bar : UInt8 := 124
abbrev equals : UInt8 := 61

/-- Space and tab. -/
def isBlank (c : UInt8) : Bool := c = space || c = 9

/-- `;`, `<`, `>`, `(` and `)`, the operators that are not read. -/
def isOtherOperator (c : UInt8) : Bool := [59, 60, 62, 40, 41].contains c

/-- The characters at which a word ends, where they are not quoted. -/
def endsWord (c : UInt8) : Bool :=
  isBlank c || c = newline || c = ampersand || c = bar || isOtherOperator c

/-- What begins an expansion outside of quotes: `$`, a back quote, and `*`, `?` and `[`. -/
def expands (c : UInt8) : Bool := [dollar, backquote, 42, 63, 91].contains c

/-- The characters that a backslash escapes between double quotes. -/
def isEscaped (c : UInt8) : Bool := [dollar, backquote, doubleQuote, backslash].contains c

/-! ## Words -/

/-- The quotes that are open. -/
inductive Quote where
  | none
  | single
  | double
  deriving DecidableEq

/-- A character in front of the word that is read next. -/
def keep (c : UInt8) (r : Option (List UInt8 × List UInt8)) : Option (List UInt8 × List UInt8) :=
  r.map fun p => (c :: p.1, p.2)

/-- The rest of a word, and what stands behind it. -/
def readWord : Quote → List UInt8 → Option (List UInt8 × List UInt8)
  | q, [] => if q = .none then some ([], []) else none
  | .none, c :: s =>
    if endsWord c then some ([], c :: s)
    else if c = doubleQuote then readWord .double s
    else if c = singleQuote then readWord .single s
    else if c = backslash then
      match s with
      | [] => none
      | d :: t => if d = newline then readWord .none t else keep d (readWord .none t)
    else if expands c then none
    else keep c (readWord .none s)
  | .single, c :: s =>
    if c = singleQuote then readWord .none s else keep c (readWord .single s)
  | .double, c :: s =>
    if c = doubleQuote then readWord .none s
    else if c = backslash then
      match s with
      | [] => none
      | d :: t =>
        if d = newline then readWord .double t
        else if isEscaped d then keep d (readWord .double t)
        else keep c (readWord .double (d :: t))
    else if c = dollar ∨ c = backquote then none
    else keep c (readWord .double s)

/-! ## Tokens -/

inductive Token where
  /-- A word, and the text that it was read from. -/
  | word (w raw : List UInt8)
  | andIf
  | orIf
  | newline
  deriving DecidableEq

/-- What stands behind line continuations. -/
def continued : List UInt8 → List UInt8
  | 92 :: 10 :: s => continued s
  | s => s

/-- The second character of an operator. -/
def second (c : UInt8) (s : List UInt8) : Option (List UInt8) :=
  match continued s with
  | d :: t => if d = c then some t else none
  | [] => none

/-- The tokens of a text. -/
def tokens : Nat → List UInt8 → Option (List Token)
  | 0, _ => none
  | _ + 1, [] => some []
  | n + 1, c :: s =>
    if isBlank c then tokens n s
    else if c = newline then (tokens n s).map (Token.newline :: ·)
    else if c = hash then tokens n (s.dropWhile (· ≠ newline))
    else if c = ampersand then
      (second c s).bind fun t => (tokens n t).map (Token.andIf :: ·)
    else if c = bar then
      (second c s).bind fun t => (tokens n t).map (Token.orIf :: ·)
    else if isOtherOperator c ∨ c = tilde then none
    else if c = backslash ∧ s.head? = some newline then tokens n s.tail
    else
      (readWord .none (c :: s)).bind fun r =>
        (tokens n r.2).map (Token.word r.1 ((c :: s).take (s.length + 1 - r.2.length)) :: ·)

/-! ## Commands -/

inductive Op where
  | and
  | or
  deriving DecidableEq

/-- A list of simple commands, each with its words. -/
structure AndOrList where
  first : List (List UInt8)
  rest : List (Op × List (List UInt8))
  deriving DecidableEq

/-- The reserved words. -/
def reserved : List (List UInt8) :=
  ["!", "\x7b", "\x7d", "case", "do", "done", "elif", "else", "esac", "fi", "for", "if", "in",
    "then", "until", "while"].map fun w => w.toUTF8.data.toList

/-- A letter, a digit or an underscore. -/
def isNameCharacter (c : UInt8) : Bool :=
  (65 ≤ c && c ≤ 90) || (97 ≤ c && c ≤ 122) || (48 ≤ c && c ≤ 57) || c = 95

/-- The text of an assignment: a name and `=`, not quoted. -/
def isAssignment (raw : List UInt8) : Bool :=
  let name := raw.takeWhile isNameCharacter
  raw[name.length]? = some equals && name.head?.any fun c => !(48 ≤ c && c ≤ 57)

/-- The words that follow in a command, and the commands behind it. At the start of a command,
`true`, there has to be a word, and newlines may stand in front of it. -/
def commands : Bool → List Token → Option (List (List UInt8) × List (Op × List (List UInt8)))
  | true, .newline :: ts => commands true ts
  | true, .word w raw :: ts =>
    if raw ∈ reserved ∨ isAssignment raw then none
    else (commands false ts).map fun r => (w :: r.1, r.2)
  | true, _ => none
  | false, [] => some ([], [])
  | false, .word w _ :: ts => (commands false ts).map fun r => (w :: r.1, r.2)
  | false, .andIf :: ts => (commands true ts).map fun r => ([], (.and, r.1) :: r.2)
  | false, .orIf :: ts => (commands true ts).map fun r => ([], (.or, r.1) :: r.2)
  | false, .newline :: ts => if ts.all (· = .newline) then some ([], []) else none

/-- The commands of a text. -/
def readList (s : List UInt8) : Option AndOrList :=
  ((tokens (s.length + 1) s).bind (commands true)).map fun r => ⟨r.1, r.2⟩

/-! ## The texts of a word -/

/-- `Reads q w v`: with these quotes open, the text `w` is the rest of a word, and stands for `v`.
-/
inductive Reads : Quote → List UInt8 → List UInt8 → Prop
  | done : Reads .none [] []
  | openDouble {w v} : Reads .double w v → Reads .none (doubleQuote :: w) v
  | openSingle {w v} : Reads .single w v → Reads .none (singleQuote :: w) v
  | escape {d w v} : d ≠ newline → Reads .none w v → Reads .none (backslash :: d :: w) (d :: v)
  | continue {w v} : Reads .none w v → Reads .none (backslash :: newline :: w) v
  | plain {c w v} : endsWord c = false → c ≠ doubleQuote → c ≠ singleQuote → c ≠ backslash →
      expands c = false → Reads .none w v → Reads .none (c :: w) (c :: v)
  | closeSingle {w v} : Reads .none w v → Reads .single (singleQuote :: w) v
  | single {c w v} : c ≠ singleQuote → Reads .single w v → Reads .single (c :: w) (c :: v)
  | closeDouble {w v} : Reads .none w v → Reads .double (doubleQuote :: w) v
  | escapeDouble {d w v} : isEscaped d = true → Reads .double w v →
      Reads .double (backslash :: d :: w) (d :: v)
  | continueDouble {w v} : Reads .double w v → Reads .double (backslash :: newline :: w) v
  | keepBackslash {d w v} : d ≠ newline → isEscaped d = false → Reads .double (d :: w) v →
      Reads .double (backslash :: d :: w) (backslash :: v)
  | double {c w v} : c ≠ doubleQuote → c ≠ backslash → c ≠ dollar → c ≠ backquote →
      Reads .double w v → Reads .double (c :: w) (c :: v)

/-- A word does not go on here. -/
def StopsAt (s : List UInt8) : Prop := ∀ c t, s = c :: t → endsWord c = true

theorem keep_eq_some {c : UInt8} {r : Option (List UInt8 × List UInt8)} {v rest : List UInt8} :
    keep c r = some (v, rest) ↔ ∃ u, r = some (u, rest) ∧ v = c :: u := by
  cases r with
  | none =>
      constructor
      · intro h
        cases h
      · rintro ⟨u, h, -⟩
        cases h
  | some p =>
      rw [keep, Option.map_some]
      constructor
      · intro h
        have h := Prod.mk.inj (Option.some.inj h)
        exact ⟨p.1, by rw [← h.2], h.1.symm⟩
      · rintro ⟨u, h, rfl⟩
        rw [Option.some.inj h]

/-- What the reader takes for a word is a text of that word, and it stops where a word ends. -/
theorem Reads.of_readWord {q : Quote} {s v rest : List UInt8}
    (h : readWord q s = some (v, rest)) : ∃ w, s = w ++ rest ∧ Reads q w v ∧ StopsAt rest := by
  fun_induction readWord q s generalizing v with
  | case1 =>
      have h := Prod.mk.inj (Option.some.inj h)
      rw [← h.1, ← h.2]
      exact ⟨[], rfl, .done, fun c t ht => by cases ht⟩
  | case2 q hq => cases h
  | case3 c s hends =>
      have h := Prod.mk.inj (Option.some.inj h)
      rw [← h.1, ← h.2]
      refine ⟨[], rfl, .done, fun d t ht => ?_⟩
      rw [← (List.cons.inj ht).1]
      exact hends
  | case4 s hends ih =>
      obtain ⟨w, rfl, hw, hstop⟩ := ih h
      exact ⟨doubleQuote :: w, rfl, .openDouble hw, hstop⟩
  | case5 s hends hne ih =>
      obtain ⟨w, rfl, hw, hstop⟩ := ih h
      exact ⟨singleQuote :: w, rfl, .openSingle hw, hstop⟩
  | case6 hends hne hne' => cases h
  | case7 t hends hne hne' ih =>
      obtain ⟨w, rfl, hw, hstop⟩ := ih h
      exact ⟨backslash :: newline :: w, rfl, .continue hw, hstop⟩
  | case8 d t hd hends hne hne' ih =>
      obtain ⟨u, hu, rfl⟩ := keep_eq_some.mp h
      obtain ⟨w, rfl, hw, hstop⟩ := ih hu
      exact ⟨backslash :: d :: w, rfl, .escape hd hw, hstop⟩
  | case9 c s hends hne hne' hb hexp => cases h
  | case10 c s hends hne hne' hb hexp ih =>
      obtain ⟨u, hu, rfl⟩ := keep_eq_some.mp h
      obtain ⟨w, rfl, hw, hstop⟩ := ih hu
      exact ⟨c :: w, rfl, .plain (by simpa using hends) hne hne' hb (by simpa using hexp) hw, hstop⟩
  | case11 s ih =>
      obtain ⟨w, rfl, hw, hstop⟩ := ih h
      exact ⟨singleQuote :: w, rfl, .closeSingle hw, hstop⟩
  | case12 c s hne ih =>
      obtain ⟨u, hu, rfl⟩ := keep_eq_some.mp h
      obtain ⟨w, rfl, hw, hstop⟩ := ih hu
      exact ⟨c :: w, rfl, .single hne hw, hstop⟩
  | case13 s ih =>
      obtain ⟨w, rfl, hw, hstop⟩ := ih h
      exact ⟨doubleQuote :: w, rfl, .closeDouble hw, hstop⟩
  | case14 hne => cases h
  | case15 t hne ih =>
      obtain ⟨w, rfl, hw, hstop⟩ := ih h
      exact ⟨backslash :: newline :: w, rfl, .continueDouble hw, hstop⟩
  | case16 d t hd hesc hne ih =>
      obtain ⟨u, hu, rfl⟩ := keep_eq_some.mp h
      obtain ⟨w, rfl, hw, hstop⟩ := ih hu
      exact ⟨backslash :: d :: w, rfl, .escapeDouble hesc hw, hstop⟩
  | case17 d t hd hesc hne ih =>
      obtain ⟨u, hu, rfl⟩ := keep_eq_some.mp h
      obtain ⟨w, hs, hw, hstop⟩ := ih hu
      cases w with
      | nil => cases hw
      | cons x w =>
          -- The character behind the backslash is the next of the word.
          obtain ⟨rfl, rfl⟩ := List.cons.inj hs
          exact ⟨backslash :: d :: w, rfl, .keepBackslash hd (by simpa using hesc) hw, hstop⟩
  | case18 c s hne hb hexp => cases h
  | case19 c s hne hb hexp ih =>
      obtain ⟨u, hu, rfl⟩ := keep_eq_some.mp h
      obtain ⟨w, rfl, hw, hstop⟩ := ih hu
      exact ⟨c :: w, rfl, .double hne hb (fun hc => hexp (.inl hc)) (fun hc => hexp (.inr hc)) hw,
        hstop⟩

/-- The reader takes every text of a word that stands in front of a place where words end. -/
theorem Reads.readWord {q : Quote} {w v rest : List UInt8} (h : Reads q w v)
    (hrest : StopsAt rest) : readWord q (w ++ rest) = some (v, rest) := by
  induction h with
  | done =>
      cases rest with
      | nil => rw [List.append_nil, Shell.readWord.eq_def]; exact if_pos rfl
      | cons c t => rw [List.nil_append, Shell.readWord.eq_def]; exact if_pos (hrest c t rfl)
  | openDouble _ ih =>
      rw [List.cons_append, Shell.readWord.eq_def]
      exact ih
  | openSingle _ ih =>
      rw [List.cons_append, Shell.readWord.eq_def]
      exact ih
  | escape hd _ ih =>
      rw [List.cons_append, List.cons_append, Shell.readWord.eq_def]
      exact (if_neg hd).trans (keep_eq_some.mpr ⟨_, ih, rfl⟩)
  | «continue» _ ih =>
      rw [List.cons_append, List.cons_append, Shell.readWord.eq_def]
      exact ih
  | plain hends hne hne' hb hexp _ ih =>
      rw [List.cons_append, Shell.readWord.eq_def]
      dsimp only
      rw [if_neg (by simp [hends]), if_neg hne, if_neg hne', if_neg hb, if_neg (by simp [hexp])]
      exact keep_eq_some.mpr ⟨_, ih, rfl⟩
  | closeSingle _ ih =>
      rw [List.cons_append, Shell.readWord.eq_def]
      exact ih
  | single hne _ ih =>
      rw [List.cons_append, Shell.readWord.eq_def]
      exact (if_neg hne).trans (keep_eq_some.mpr ⟨_, ih, rfl⟩)
  | closeDouble _ ih =>
      rw [List.cons_append, Shell.readWord.eq_def]
      exact ih
  | @escapeDouble d w v hesc _ ih =>
      have hd : d ≠ newline := fun h => by rw [h] at hesc; cases hesc
      rw [List.cons_append, List.cons_append, Shell.readWord.eq_def]
      exact (if_neg hd).trans ((if_pos hesc).trans (keep_eq_some.mpr ⟨_, ih, rfl⟩))
  | continueDouble _ ih =>
      rw [List.cons_append, List.cons_append, Shell.readWord.eq_def]
      exact ih
  | keepBackslash hd hesc _ ih =>
      rw [List.cons_append, List.cons_append, Shell.readWord.eq_def]
      exact (if_neg hd).trans
        ((if_neg (by simp [hesc])).trans (keep_eq_some.mpr ⟨_, ih, rfl⟩))
  | double hne hb hd hq _ ih =>
      rw [List.cons_append, Shell.readWord.eq_def]
      dsimp only
      rw [if_neg hne, if_neg hb, if_neg (by simp [hd, hq])]
      exact keep_eq_some.mpr ⟨_, ih, rfl⟩

theorem readWord_iff {q : Quote} {s v rest : List UInt8} :
    readWord q s = some (v, rest) ↔ ∃ w, s = w ++ rest ∧ Reads q w v ∧ StopsAt rest := by
  constructor
  · exact Reads.of_readWord
  · rintro ⟨w, rfl, hw, hrest⟩
    exact hw.readWord hrest

/-! ### Lengths -/

/-- A word is no longer than its text. -/
theorem Reads.length {q : Quote} {w v : List UInt8} (h : Reads q w v) :
    v.length ≤ w.length ∧ (q ≠ .none → v.length < w.length) := by
  induction h with
  | done => exact ⟨Nat.le_refl _, fun h => absurd rfl h⟩
  | openDouble _ ih | openSingle _ ih =>
      have := ih.2 (by decide)
      simp only [List.length_cons]
      exact ⟨by omega, fun h => absurd rfl h⟩
  | escape _ _ ih | «continue» _ ih | plain _ _ _ _ _ _ ih =>
      simp only [List.length_cons]
      exact ⟨by omega, fun h => absurd rfl h⟩
  | closeSingle _ ih | closeDouble _ ih =>
      simp only [List.length_cons]
      exact ⟨by omega, fun _ => by omega⟩
  | single _ _ ih | escapeDouble _ _ ih | continueDouble _ ih | keepBackslash _ _ _ ih
  | double _ _ _ _ _ ih =>
      have := ih.2 (by decide)
      simp only [List.length_cons] at *
      exact ⟨by omega, fun _ => by omega⟩

/-- A text as long as its word has nothing quoted in it. -/
theorem Reads.eq_of_length {q : Quote} {w v : List UInt8} (h : Reads q w v)
    (hlen : w.length ≤ v.length) : v = w ∧ doubleQuote ∉ w := by
  have hlong := h.length.2
  induction h with
  | done => exact ⟨rfl, List.not_mem_nil⟩
  | openDouble hw _ | openSingle hw _ =>
      have := hw.length.2 (by decide)
      simp only [List.length_cons] at hlen
      omega
  | escape _ hw _ | «continue» hw _ =>
      have := hw.length.1
      simp only [List.length_cons] at hlen
      omega
  | @plain c w v hends hne _ _ _ hw ih =>
      simp only [List.length_cons] at hlen
      obtain ⟨rfl, hmem⟩ := ih (by omega) hw.length.2
      refine ⟨rfl, fun h => ?_⟩
      rcases List.mem_cons.mp h with h | h
      · exact hne h.symm
      · exact hmem h
  | closeSingle | single | closeDouble | escapeDouble | continueDouble | keepBackslash | double =>
      have := hlong (by decide)
      omega

/-- A text that is one byte longer than its word and ends in a double quote has the backslash that
escapes this quote, and nothing else that is quoted. -/
theorem Reads.escaped_last {w v x : List UInt8} (h : Reads .none w v)
    (hlen : w.length ≤ v.length + 1) (hlast : w = x ++ [doubleQuote]) :
    ∃ b, x = b ++ [backslash] ∧ v = b ++ [doubleQuote] := by
  generalize hq : Quote.none = q at h
  induction h generalizing x with
  | done => simp at hlast
  | openDouble hw _ | openSingle hw _ =>
      have := hw.length.2 (by decide)
      simp only [List.length_cons] at hlen
      omega
  | @escape d w v hd hw ih =>
      simp only [List.length_cons] at hlen
      obtain ⟨rfl, hmem⟩ := hw.eq_of_length (by omega)
      cases x with
      | nil => simp at hlast
      | cons b x =>
          obtain ⟨rfl, hlast'⟩ := List.cons.inj hlast
          cases x with
          | nil =>
              obtain ⟨rfl, rfl⟩ := List.cons.inj hlast'
              exact ⟨[], rfl, rfl⟩
          | cons y x => exact absurd (by rw [(List.cons.inj hlast').2]; simp) hmem
  | «continue» hw _ =>
      have := hw.length.1
      simp only [List.length_cons] at hlen
      omega
  | @plain c w v _ hne _ _ _ hw ih =>
      simp only [List.length_cons] at hlen
      cases x with
      | nil => exact absurd (List.cons.inj hlast).1 hne
      | cons y x =>
          obtain ⟨rfl, hlast'⟩ := List.cons.inj hlast
          obtain ⟨b, rfl, rfl⟩ := ih (by omega) hlast' rfl
          exact ⟨c :: b, rfl, rfl⟩
  | closeSingle | single | closeDouble | escapeDouble | continueDouble | keepBackslash | double =>
      cases hq

/-- A word ends in a space only if the space is escaped. -/
theorem Reads.space_last {q : Quote} {w v x : List UInt8} (h : Reads q w v)
    (hlast : w = x ++ [space]) : ∃ b, x = b ++ [backslash] := by
  -- A byte that is not the space puts itself in front of the rest.
  have hcons : ∀ {c : UInt8} {w x : List UInt8}, c :: w = x ++ [space] → c ≠ space ∨ w ≠ [] →
      (∀ {x}, w = x ++ [space] → ∃ b, x = b ++ [backslash]) → ∃ b, x = b ++ [backslash] := by
    intro c w x hlast hor ih
    rcases List.cons_eq_append_iff.mp hlast with ⟨-, hsp⟩ | ⟨x, rfl, hw⟩
    · obtain ⟨rfl, rfl⟩ := List.cons.inj hsp
      exact absurd hor (by simp)
    · obtain ⟨b, rfl⟩ := ih hw
      exact ⟨c :: b, rfl⟩
  have hne : ∀ {q : Quote} {w v : List UInt8}, Reads q w v → q ≠ .none → w ≠ [] := by
    intro q w v h hq hw
    have := h.length.2 hq
    rw [hw] at this
    exact absurd this (Nat.not_lt_zero _)
  induction h generalizing x with
  | done => simp at hlast
  | openDouble _ ih | openSingle _ ih | closeSingle _ ih | closeDouble _ ih =>
      exact hcons hlast (.inl (by decide)) ih
  | single _ hw ih | keepBackslash _ _ hw ih | double _ _ _ _ hw ih =>
      exact hcons hlast (.inr (hne hw (by decide))) ih
  | plain hends _ _ _ _ _ ih =>
      refine hcons hlast (.inl fun h => ?_) ih
      rw [h] at hends
      cases hends
  | @escape d w v hd hw ih =>
      rcases List.cons_eq_append_iff.mp hlast with ⟨-, hsp⟩ | ⟨x, rfl, hrest⟩
      · cases (List.cons.inj hsp).2
      · rcases List.cons_eq_append_iff.mp hrest with ⟨rfl, -⟩ | ⟨x, rfl, hrest'⟩
        · exact ⟨[], rfl⟩
        · obtain ⟨b, rfl⟩ := ih hrest'
          exact ⟨backslash :: d :: b, rfl⟩
  | «continue» _ ih | continueDouble _ ih =>
      refine hcons hlast (.inl (by decide)) fun hlast => ?_
      exact hcons hlast (.inl (by decide)) ih
  | escapeDouble _ hw ih =>
      refine hcons hlast (.inl (by decide)) fun hlast => ?_
      exact hcons hlast (.inr (hne hw (by decide))) ih

/-! ### Between double quotes -/

/-- These bytes stand for themselves between double quotes. -/
def verbatim : List UInt8 → Bool
  | [] => true
  | c :: s =>
    c ≠ doubleQuote && c ≠ dollar && c ≠ backquote &&
      (c ≠ backslash || s.head?.any fun d => d ≠ backslash && d ≠ newline) && verbatim s

theorem verbatim_cons {c : UInt8} {s : List UInt8} :
    verbatim (c :: s) = true ↔ c ≠ doubleQuote ∧ c ≠ dollar ∧ c ≠ backquote ∧
      (c = backslash → ∃ d t, s = d :: t ∧ d ≠ backslash ∧ d ≠ newline) ∧ verbatim s = true := by
  rw [verbatim]
  cases s with
  | nil => simp [and_assoc]
  | cons d t => simp [and_assoc, imp_iff_not_or]

/-- Bytes that stand for themselves, between double quotes. -/
theorem Reads.of_verbatim {s : List UInt8} (h : verbatim s = true) :
    Reads .double (s ++ [doubleQuote]) s := by
  induction s with
  | nil => exact .closeDouble .done
  | cons c s ih =>
      obtain ⟨hq, hd, hb, hback, hs⟩ := verbatim_cons.mp h
      by_cases hc : c = backslash
      · obtain ⟨d, t, rfl, hd', hn⟩ := hback hc
        obtain ⟨hq', hd'', hb', -, -⟩ := verbatim_cons.mp hs
        subst hc
        refine .keepBackslash hn ?_ (ih hs)
        simp [isEscaped, hq', hd'', hb', hd']
      · exact .double hq hc hd hb (ih hs)

/-- **Where a text between double quotes is only one byte longer than the word**, this byte is the
closing quote, and what is in front of it stands for itself. -/
theorem Reads.verbatim_of_length {w v : List UInt8} (h : Reads .double w v)
    (hlen : w.length ≤ v.length + 1) :
    ∃ u x, w = u ++ doubleQuote :: x ∧ v = u ++ x ∧ verbatim u = true ∧ doubleQuote ∉ x := by
  generalize hq : Quote.double = q at h
  induction h with
  | done | openDouble | openSingle | escape | «continue» | plain | closeSingle | single => cases hq
  | closeDouble hw _ =>
      simp only [List.length_cons] at hlen
      obtain ⟨rfl, hmem⟩ := hw.eq_of_length (by omega)
      exact ⟨[], _, rfl, rfl, rfl, hmem⟩
  | escapeDouble _ hw _ | continueDouble hw _ =>
      have := hw.length.2 (by decide)
      simp only [List.length_cons] at hlen
      omega
  | @keepBackslash d w v hd hesc hw ih =>
      simp only [List.length_cons] at hlen
      obtain ⟨u, x, hsplit, rfl, hu, hx⟩ := ih (by simp only [List.length_cons]; omega) rfl
      cases u with
      | nil =>
          -- The closing quote would have been escaped.
          rw [(List.cons.inj hsplit).1] at hesc
          cases hesc
      | cons c u =>
          obtain ⟨rfl, -⟩ := List.cons.inj hsplit
          refine ⟨backslash :: d :: u, x, congrArg _ hsplit, rfl, ?_, hx⟩
          refine verbatim_cons.mpr ⟨by decide, by decide, by decide, fun _ => ?_, hu⟩
          refine ⟨d, u, rfl, fun hb => ?_, hd⟩
          rw [hb] at hesc
          cases hesc
  | @double c w v hne hb hd hq' hw ih =>
      simp only [List.length_cons] at hlen
      obtain ⟨u, x, rfl, rfl, hu, hx⟩ := ih (by omega) rfl
      exact ⟨c :: u, x, rfl, rfl,
        verbatim_cons.mpr ⟨hne, hd, hq', fun h => absurd h hb, hu⟩, hx⟩

/-! ## Reading tokens -/

/-- A word begins with a character at which it does not end, so its text is not empty. -/
theorem readWord_cons {c : UInt8} {s v rest : List UInt8} (hc : endsWord c = false)
    (h : readWord .none (c :: s) = some (v, rest)) :
    ∃ w, c :: s = w ++ rest ∧ Reads .none w v ∧ w ≠ [] ∧ StopsAt rest := by
  obtain ⟨w, hs, hw, hstop⟩ := Reads.of_readWord h
  refine ⟨w, hs, hw, fun hempty => ?_, hstop⟩
  rw [hempty, List.nil_append] at hs
  rw [hstop c s hs.symm] at hc
  cases hc

theorem endsWord_eq_false {c : UInt8} (hblank : ¬ isBlank c = true) (hnl : ¬ c = newline)
    (hamp : ¬ c = ampersand) (hbar : ¬ c = bar) (hop : ¬ (isOtherOperator c = true ∨ c = tilde)) :
    endsWord c = false := by
  have hop' : ¬ isOtherOperator c = true := fun h => hop (.inl h)
  simp [endsWord, hblank, hnl, hamp, hbar, hop']

theorem continued_length (s : List UInt8) : (continued s).length ≤ s.length := by
  fun_induction continued s with
  | case1 s ih =>
      simp only [List.length_cons]
      omega
  | case2 s => exact Nat.le_refl _

theorem second_length {c : UInt8} {s t : List UInt8} (h : second c s = some t) :
    t.length < s.length := by
  have hle := continued_length s
  rw [second] at h
  split at h
  · next d u hs =>
      split at h
      · rw [hs, List.length_cons, Option.some.inj h] at hle
        omega
      · cases h
  · cases h

/-- If the first token is a word, some text of that word stands in front of what follows it. -/
theorem tokens_word {n : Nat} {s v raw : List UInt8} {ts : List Token}
    (h : tokens n s = some (.word v raw :: ts)) :
    ∃ pre w rest m, s = pre ++ (w ++ rest) ∧ Reads .none w v ∧ w ≠ [] ∧ StopsAt rest ∧
      tokens m rest = some ts := by
  fun_induction tokens n s with
  | case1 => cases h
  | case2 => cases h
  | case3 n c s hblank ih =>
      obtain ⟨pre, w, rest, m, rfl, hw⟩ := ih h
      exact ⟨c :: pre, w, rest, m, rfl, hw⟩
  | case4 n s hblank ih =>
      obtain ⟨us, -, hus⟩ := Option.map_eq_some_iff.mp h
      cases hus
  | case5 n s hblank hnl ih =>
      -- A comment: what stands in front of the next newline is skipped.
      obtain ⟨pre, w, rest, m, hs, hw⟩ := ih h
      refine ⟨hash :: (s.takeWhile (· ≠ newline) ++ pre), w, rest, m, ?_, hw⟩
      rw [List.cons_append, List.append_assoc, ← hs, List.takeWhile_append_dropWhile]
  | case6 n s hblank hnl hhash ih | case7 n s hblank hnl hhash hamp ih =>
      obtain ⟨t, -, ht⟩ := Option.bind_eq_some_iff.mp h
      obtain ⟨us, -, hus⟩ := Option.map_eq_some_iff.mp ht
      cases hus
  | case8 => cases h
  | case9 n c s hblank hnl hhash hamp hbar hop hback ih =>
      obtain ⟨pre, w, rest, m, hs, hw⟩ := ih h
      cases s with
      | nil => cases hback.2
      | cons d s => exact ⟨c :: d :: pre, w, rest, m, congrArg (c :: d :: ·) hs, hw⟩
  | case10 n c s hblank hnl hhash hamp hbar hop hback ih =>
      obtain ⟨⟨u, rest⟩, hread, ht⟩ := Option.bind_eq_some_iff.mp h
      obtain ⟨us, hus, hcons⟩ := Option.map_eq_some_iff.mp ht
      obtain ⟨hword, rfl⟩ := List.cons.inj hcons
      obtain ⟨rfl, -⟩ := Token.word.inj hword
      obtain ⟨w, hs, hw, hne, hstop⟩ :=
        readWord_cons (endsWord_eq_false hblank hnl hamp hbar hop) hread
      exact ⟨[], w, rest, n, hs, hw, hne, hstop, hus⟩

/-- As much fuel as there are bytes is enough. -/
theorem tokens_enough {n m : Nat} {s : List UInt8} {ts : List Token} (h : tokens n s = some ts)
    (hm : s.length < m) : tokens m s = some ts := by
  fun_induction tokens n s generalizing m ts with
  | case1 => cases h
  | case2 n =>
      obtain ⟨m, rfl⟩ := Nat.exists_eq_succ_of_ne_zero (Nat.ne_zero_of_lt hm)
      exact h
  | case3 n c s hblank ih =>
      obtain ⟨m, rfl⟩ := Nat.exists_eq_succ_of_ne_zero (Nat.ne_zero_of_lt hm)
      rw [List.length_cons] at hm
      rw [tokens, if_pos hblank]
      exact ih h (by omega)
  | case4 n s hblank ih =>
      obtain ⟨m, rfl⟩ := Nat.exists_eq_succ_of_ne_zero (Nat.ne_zero_of_lt hm)
      rw [List.length_cons] at hm
      obtain ⟨us, hus, rfl⟩ := Option.map_eq_some_iff.mp h
      rw [tokens, if_neg hblank, if_pos rfl, ih hus (by omega)]
      rfl
  | case5 n s hblank hnl ih =>
      obtain ⟨m, rfl⟩ := Nat.exists_eq_succ_of_ne_zero (Nat.ne_zero_of_lt hm)
      rw [List.length_cons] at hm
      have hle : (s.dropWhile (· ≠ newline)).length ≤ s.length :=
        (List.dropWhile_suffix _).length_le
      rw [tokens, if_neg hblank, if_neg hnl, if_pos rfl]
      exact ih h (by omega)
  | case6 n s hblank hnl hhash ih =>
      obtain ⟨m, rfl⟩ := Nat.exists_eq_succ_of_ne_zero (Nat.ne_zero_of_lt hm)
      rw [List.length_cons] at hm
      obtain ⟨t, hsecond, ht⟩ := Option.bind_eq_some_iff.mp h
      obtain ⟨us, hus, rfl⟩ := Option.map_eq_some_iff.mp ht
      have hlt := second_length hsecond
      rw [tokens, if_neg hblank, if_neg hnl, if_neg hhash, if_pos rfl, hsecond, Option.bind_some,
        ih t hus (by omega)]
      rfl
  | case7 n s hblank hnl hhash hamp ih =>
      obtain ⟨m, rfl⟩ := Nat.exists_eq_succ_of_ne_zero (Nat.ne_zero_of_lt hm)
      rw [List.length_cons] at hm
      obtain ⟨t, hsecond, ht⟩ := Option.bind_eq_some_iff.mp h
      obtain ⟨us, hus, rfl⟩ := Option.map_eq_some_iff.mp ht
      have hlt := second_length hsecond
      rw [tokens, if_neg hblank, if_neg hnl, if_neg hhash, if_neg hamp, if_pos rfl, hsecond,
        Option.bind_some, ih t hus (by omega)]
      rfl
  | case8 => cases h
  | case9 n c s hblank hnl hhash hamp hbar hop hback ih =>
      obtain ⟨m, rfl⟩ := Nat.exists_eq_succ_of_ne_zero (Nat.ne_zero_of_lt hm)
      rw [List.length_cons] at hm
      rw [tokens, if_neg hblank, if_neg hnl, if_neg hhash, if_neg hamp, if_neg hbar, if_neg hop,
        if_pos hback]
      apply ih h
      rw [List.length_tail]
      omega
  | case10 n c s hblank hnl hhash hamp hbar hop hback ih =>
      obtain ⟨m, rfl⟩ := Nat.exists_eq_succ_of_ne_zero (Nat.ne_zero_of_lt hm)
      obtain ⟨⟨u, rest⟩, hread, ht⟩ := Option.bind_eq_some_iff.mp h
      obtain ⟨us, hus, rfl⟩ := Option.map_eq_some_iff.mp ht
      obtain ⟨w, hs, -, hne, -⟩ :=
        readWord_cons (endsWord_eq_false hblank hnl hamp hbar hop) hread
      have hlt : rest.length < m := by
        have hpos := List.length_pos_iff.mpr hne
        rw [hs, List.length_append] at hm
        omega
      rw [tokens, if_neg hblank, if_neg hnl, if_neg hhash, if_neg hamp, if_neg hbar, if_neg hop,
        if_neg hback, hread, Option.bind_some, ih (u, rest) hus hlt]
      rfl

/-- A quote opens a word. -/
theorem tokens_doubleQuote (n : Nat) (s : List UInt8) :
    tokens (n + 1) (doubleQuote :: s) = (readWord .double s).bind fun r =>
      (tokens n r.2).map
        (Token.word r.1 (doubleQuote :: s.take (s.length - r.2.length)) :: ·) := by
  have hread : readWord .none (doubleQuote :: s) = readWord .double s := by
    rw [readWord.eq_def]
    rfl
  have htokens : tokens (n + 1) (doubleQuote :: s) =
      (readWord .none (doubleQuote :: s)).bind fun r => (tokens n r.2).map
        (Token.word r.1 ((doubleQuote :: s).take (s.length + 1 - r.2.length)) :: ·) := rfl
  rw [htokens, hread]
  cases h : readWord .double s with
  | none => rfl
  | some r =>
      obtain ⟨w, hs, -, -⟩ := Reads.of_readWord h
      have hlen : s.length + 1 - r.2.length = (s.length - r.2.length) + 1 := by
        rw [hs, List.length_append]
        omega
      rw [Option.bind_some, Option.bind_some, hlen, List.take_succ_cons]

/-- A text that begins with a quote begins with a word. -/
theorem tokens_quoted {n : Nat} {s : List UInt8} {ts : List Token}
    (h : tokens (n + 1) (doubleQuote :: s) = some ts) :
    ∃ w v rest raw us, s = w ++ rest ∧ Reads .double w v ∧
      ts = .word v (doubleQuote :: raw) :: us ∧ tokens n rest = some us := by
  rw [tokens_doubleQuote] at h
  obtain ⟨⟨v, rest⟩, hread, hmap⟩ := Option.bind_eq_some_iff.mp h
  obtain ⟨us, hus, rfl⟩ := Option.map_eq_some_iff.mp hmap
  obtain ⟨w, hs, hw, -⟩ := Reads.of_readWord hread
  exact ⟨w, v, rest, _, us, hs, hw, rfl, hus⟩

/-- A first word that is quoted is neither reserved nor an assignment. -/
theorem commands_quoted (w raw : List UInt8) (ts : List Token) :
    commands true (.word w (doubleQuote :: raw) :: ts) =
      commands false (.word w (doubleQuote :: raw) :: ts) := by
  have hreserved : doubleQuote :: raw ∉ reserved := by
    have hhead : ∀ r ∈ reserved, r.head? ≠ some doubleQuote := by decide +kernel
    exact fun hmem => hhead _ hmem rfl
  have hassign : isAssignment (doubleQuote :: raw) = false := rfl
  rw [commands, commands, if_neg (by simp [hreserved, hassign])]

/-- Where words follow in a command, the next token is the first of them. -/
theorem commands_word {ts : List Token} {v : List UInt8} {vs : List (List UInt8)}
    {rest : List (Op × List (List UInt8))} (h : commands false ts = some (v :: vs, rest)) :
    ∃ raw us, ts = .word v raw :: us ∧ commands false us = some (vs, rest) := by
  cases ts with
  | nil => cases h
  | cons t us =>
      cases t with
      | word w raw =>
          rw [commands] at h
          obtain ⟨⟨ws, r⟩, hr, hcons⟩ := Option.map_eq_some_iff.mp h
          obtain ⟨hws, rfl⟩ := Prod.mk.inj hcons
          obtain ⟨rfl, rfl⟩ := List.cons.inj hws
          exact ⟨raw, us, rfl, hr⟩
      | andIf | orIf =>
          rw [commands] at h
          obtain ⟨r, -, hcons⟩ := Option.map_eq_some_iff.mp h
          cases (Prod.mk.inj hcons).1
      | newline =>
          rw [commands] at h
          split at h
          · cases (Prod.mk.inj (Option.some.inj h)).1
          · cases h

end Shell
