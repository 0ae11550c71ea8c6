import Mathlib.Data.List.Basic

/-!
# Streams in pieces

A stream is cut into lines, and a line that is too long into pieces of `n` values. `cut sep n p s`
gives the pieces that `s` completes when `p` is what there is of the next piece so far, and what is
left behind them. It does not matter in which portions the stream comes (`cut_append`), and no value
but the separators is lost (`cut_values`).
-/

namespace Lines

variable {α : Type*}

/-- What a stream is cut into. -/
inductive Piece (α : Type*) where
  /-- A line, or the end of one, without its separator. -/
  | line (s : List α)
  /-- As much of a line as a piece can be long. -/
  | truncated (s : List α)
  deriving DecidableEq

def Piece.values : Piece α → List α
  | .line s | .truncated s => s

variable [DecidableEq α]

/-- The pieces that some more values complete, and the values that are left behind them. -/
def cut (sep : α) (n : Nat) (p : List α) : List α → List (Piece α) × List α
  | [] => ([], p)
  | b :: bs =>
    if b = sep then (.line p :: (cut sep n [] bs).1, (cut sep n [] bs).2)
    else if p.length + 1 = n then
      (.truncated (p ++ [b]) :: (cut sep n [] bs).1, (cut sep n [] bs).2)
    else cut sep n (p ++ [b]) bs

variable {sep : α} {n : Nat}

theorem cut_append (p xs ys : List α) :
    cut sep n p (xs ++ ys) =
      ((cut sep n p xs).1 ++ (cut sep n (cut sep n p xs).2 ys).1,
        (cut sep n (cut sep n p xs).2 ys).2) := by
  induction xs generalizing p with
  | nil => rfl
  | cons x xs ih =>
      rw [List.cons_append, cut, cut]
      split
      · rw [ih]
        rfl
      · split
        · rw [ih]
          rfl
        · exact ih _

/-- **Every value but the separators is in one piece or left behind them, in this order.** -/
theorem cut_values (p bs : List α) :
    (cut sep n p bs).1.flatMap Piece.values ++ (cut sep n p bs).2 = p ++ bs.filter (· ≠ sep) := by
  induction bs generalizing p with
  | nil => simp [cut]
  | cons b bs ih =>
      rw [cut]
      split
      · next h => simp [h, Piece.values, ih []]
      · next h =>
          have hb : (b :: bs).filter (· ≠ sep) = b :: bs.filter (· ≠ sep) := by
            simp [h]
          rw [hb]
          split
          · simp [Piece.values, ih []]
          · rw [ih, List.append_assoc]
            rfl

/-- Values without a separator that leave room just wait. -/
theorem cut_short {p s : List α} (hs : sep ∉ s) (hlen : p.length + s.length < n) :
    cut sep n p s = ([], p ++ s) := by
  induction s generalizing p with
  | nil => rw [cut, List.append_nil]
  | cons b s ih =>
      rw [List.length_cons] at hlen
      have hb : b ≠ sep := fun h => hs (h ▸ List.mem_cons_self)
      have hroom : (p ++ [b]).length + s.length < n := by
        rw [List.length_append, List.length_singleton]
        omega
      rw [cut, if_neg hb, if_neg (by omega), ih (fun h => hs (List.mem_cons_of_mem _ h)) hroom,
        List.append_assoc]
      rfl

/-- Values without a separator that leave no room are a piece of a line. -/
theorem cut_full {p s : List α} (hs : sep ∉ s) (hne : s ≠ [])
    (hlen : p.length + s.length = n) : cut sep n p s = ([.truncated (p ++ s)], []) := by
  obtain ⟨t, b, rfl⟩ := (List.eq_nil_or_concat s).resolve_left hne
  rw [List.concat_eq_append] at hs hlen ⊢
  rw [List.length_append, List.length_singleton] at hlen
  have hb : b ≠ sep := fun h => hs (by simp [h])
  have hlast : (p ++ t).length + 1 = n := by
    rw [List.length_append]
    omega
  rw [cut_append, cut_short (fun h => hs (List.mem_append_left _ h)) (by omega), cut, if_neg hb,
    if_pos hlast, List.append_assoc]
  rfl

/-- Up to a separator it is a line. -/
theorem cut_line {l s : List α} (hl : sep ∉ l) (hlen : l.length < n) :
    cut sep n [] (l ++ sep :: s) = (.line l :: (cut sep n [] s).1, (cut sep n [] s).2) := by
  rw [cut_append, cut_short hl (by simpa using hlen), cut, if_pos rfl]
  simp

end Lines
