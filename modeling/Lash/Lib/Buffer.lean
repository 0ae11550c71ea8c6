import Mathlib.Data.List.Basic
import Mathlib.Data.List.TakeWhile

/-!
# Arrays that are written in place

An array is the list of its cells, and a pointer into it is an offset. Each operation gives `none`
where it would touch a cell outside of the array. `nul` is the value that ends a string.

The lemmas are about an array that is written as what lies in front of the cells concerned, those
cells, and what lies behind them.
-/

namespace Buffer

variable {α : Type*}

/-- Write some values from an offset on. -/
def poke (b : List α) (i : Nat) (s : List α) : Option (List α) :=
  if i + s.length ≤ b.length then some (b.take i ++ (s ++ b.drop (i + s.length))) else none

/-- The `n` values from an offset on. -/
def peek (b : List α) (i n : Nat) : Option (List α) :=
  if i + n ≤ b.length then some ((b.drop i).take n) else none

variable [DecidableEq α]

/-- The string at an offset: the values in front of the next `nul`. -/
def string (nul : α) (b : List α) (i : Nat) : Option (List α) :=
  if nul ∈ b.drop i then some ((b.drop i).takeWhile (· ≠ nul)) else none

/-- Where a value is first found in the string at an offset. -/
def strchr (nul : α) (b : List α) (i : Nat) (c : α) : Option (Option Nat) :=
  (string nul b i).map fun s => if c ∈ s then some (i + s.idxOf c) else none

omit [DecidableEq α] in
theorem poke_length {b b' : List α} {i : Nat} {s : List α} (h : poke b i s = some b') :
    b'.length = b.length := by
  rw [poke] at h
  split at h
  · next hle =>
      rw [← Option.some.inj h]
      simp only [List.length_append, List.length_take, List.length_drop]
      omega
  · cases h

omit [DecidableEq α] in
/-- Writing replaces as many cells as there are values. -/
theorem poke_append (pre old s post : List α) {i : Nat} (hi : pre.length = i)
    (hlen : old.length = s.length) :
    poke (pre ++ (old ++ post)) i s = some (pre ++ (s ++ post)) := by
  have hle : i + s.length ≤ (pre ++ (old ++ post)).length := by
    simp only [List.length_append]
    omega
  rw [poke, if_pos hle, List.take_left' hi, ← List.drop_drop, List.drop_left' hi,
    List.drop_left' hlen]

omit [DecidableEq α] in
/-- The cell behind the ones in front. -/
theorem getElem?_append_cons (pre : List α) (x : α) (post : List α) {i : Nat}
    (hi : pre.length = i) : (pre ++ x :: post)[i]? = some x := by
  subst hi
  rw [List.getElem?_append_right (le_refl _), Nat.sub_self, List.getElem?_cons_zero]

omit [DecidableEq α] in
/-- Writing to one cell. -/
theorem poke_cell (pre : List α) (x y : α) (post : List α) {i : Nat} (hi : pre.length = i) :
    poke (pre ++ x :: post) i [y] = some (pre ++ y :: post) :=
  poke_append pre [x] [y] post hi rfl

omit [DecidableEq α] in
theorem peek_append (pre s post : List α) {i : Nat} (hi : pre.length = i) :
    peek (pre ++ (s ++ post)) i s.length = some s := by
  have hle : i + s.length ≤ (pre ++ (s ++ post)).length := by
    simp only [List.length_append]
    omega
  rw [peek, if_pos hle, List.drop_left' hi, List.take_left]

/-- A `nul` ends the string at an offset, if no other does so before. -/
theorem string_append_takeWhile {nul : α} (pre s post : List α) {i : Nat} (hi : pre.length = i) :
    string nul (pre ++ (s ++ nul :: post)) i = some (s.takeWhile (· ≠ nul)) := by
  rw [string, List.drop_left' hi, if_pos (by simp)]
  congr 1
  induction s with
  | nil => exact List.takeWhile_cons_of_neg (by simp)
  | cons c s ih =>
      rw [List.cons_append, List.takeWhile_cons, List.takeWhile_cons]
      split
      · rw [ih]
      · rfl

theorem string_append {nul : α} (pre : List α) {s post : List α} {i : Nat}
    (hi : pre.length = i) (hs : nul ∉ s) : string nul (pre ++ (s ++ nul :: post)) i = some s := by
  have hall : s.takeWhile (· ≠ nul) = s := by
    apply List.takeWhile_eq_self_iff.mpr
    intro x hx
    exact decide_eq_true fun h => hs (h ▸ hx)
  rw [string_append_takeWhile pre s post hi, hall]

/-- A string that is written to the start of an array with its `nul` is the string there. -/
theorem poke_string {nul : α} {b s : List α} (hs : nul ∉ s) (h : (s ++ [nul]).length ≤ b.length) :
    ∃ b', poke b 0 (s ++ [nul]) = some b' ∧ b'.length = b.length ∧
      string nul b' 0 = some s := by
  have hpoke : poke b 0 (s ++ [nul]) = some (s ++ nul :: b.drop (s ++ [nul]).length) := by
    rw [poke, if_pos (by rw [Nat.zero_add]; exact h), Nat.zero_add, List.take_zero,
      List.nil_append, List.append_assoc, List.singleton_append]
  refine ⟨_, hpoke, poke_length hpoke, ?_⟩
  exact string_append [] rfl hs

/-- The value is looked for in the string at the offset. -/
theorem strchr_append {nul : α} (pre : List α) {s post : List α} {i : Nat} {c : α}
    (hi : pre.length = i) (hs : nul ∉ s) :
    strchr nul (pre ++ (s ++ nul :: post)) i c =
      some (if c ∈ s then some (i + s.idxOf c) else none) := by
  rw [strchr, string_append pre hi hs]
  rfl

/-- A string is cut at the first place where a value is found in it. -/
theorem eq_append_of_mem {s : List α} {c : α} (h : c ∈ s) :
    ∃ l t, s = l ++ c :: t ∧ c ∉ l ∧ s.idxOf c = l.length := by
  obtain ⟨l, t, hs, hl⟩ := List.eq_append_cons_of_mem h
  refine ⟨l, t, hs, hl, ?_⟩
  rw [hs, List.idxOf_append_of_notMem hl, List.idxOf_cons_self, Nat.add_zero]

end Buffer
