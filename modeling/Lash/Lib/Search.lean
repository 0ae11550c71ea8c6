import Mathlib.Logic.Relation
import Mathlib.Data.Set.Finite.Basic
import Mathlib.Data.Fintype.Card
import Mathlib.Order.WellFounded

/-!
# Depth-first search for a cycle

`search succ goal n x` looks for `goal` among everything reachable from `x` along `succ`, without
marking what it has visited: on a graph with a cycle it may run for ever, and `none` says that `n`
levels of calls were not enough. `search_false` is what a caller relies on who adds the edge
`goal → x` after a negative answer.

The second part is about cycles in a relation that may relate points to themselves: `Acyclic`
forbids the cycles through at least two points, and `Acyclic.insert` says which edge may be added.
-/

namespace Search

variable {α : Type*}

/-! ## The search -/

/-- The first answer that is not `some false`, if there is one. -/
def firstTrue (f : α → Option Bool) : List α → Option Bool
  | [] => some false
  | x :: xs =>
    match f x with
    | some false => firstTrue f xs
    | r => r

theorem firstTrue_eq_false {f : α → Option Bool} {xs : List α} :
    firstTrue f xs = some false ↔ ∀ x ∈ xs, f x = some false := by
  induction xs with
  | nil => simp [firstTrue]
  | cons x xs ih =>
      rw [firstTrue]
      split
      · next h => simp [ih, h]
      · next r h =>
          constructor
          · intro hr; exact absurd hr h
          · intro hall; exact absurd (hall x (by simp)) h

theorem firstTrue_eq_true {f : α → Option Bool} {xs : List α}
    (h : firstTrue f xs = some true) : ∃ x ∈ xs, f x = some true := by
  induction xs with
  | nil => simp [firstTrue] at h
  | cons x xs ih =>
      rw [firstTrue] at h
      split at h
      · obtain ⟨y, hy, hf⟩ := ih h
        exact ⟨y, List.mem_cons_of_mem _ hy, hf⟩
      · exact ⟨x, by simp, h⟩

theorem firstTrue_ne_none {f : α → Option Bool} {xs : List α} (h : ∀ x ∈ xs, f x ≠ none) :
    firstTrue f xs ≠ none := by
  induction xs with
  | nil => simp [firstTrue]
  | cons x xs ih =>
      rw [firstTrue]
      split
      · exact ih (fun y hy => h y (List.mem_cons_of_mem _ hy))
      · exact h x (by simp)

section

variable [DecidableEq α] (succ : α → List α) (goal : α)

def search : Nat → α → Option Bool
  | 0, _ => none
  | n + 1, x => firstTrue (fun y => if goal = y then some true else search n y) (succ x)

variable {succ goal}

/-- A negative answer: there is no path to the goal. -/
theorem search_false {n : Nat} {x : α} (h : search succ goal n x = some false) :
    ¬ Relation.TransGen (fun a b => b ∈ succ a) x goal := by
  induction n generalizing x with
  | zero => simp [search] at h
  | succ n ih =>
      rw [search, firstTrue_eq_false] at h
      intro hp
      obtain ⟨y, hy, hyp⟩ := Relation.TransGen.head'_iff.mp hp
      have hy' := h y hy
      by_cases hg : goal = y
      · simp [hg] at hy'
      · rw [if_neg hg] at hy'
        rcases Relation.reflTransGen_iff_eq_or_transGen.mp hyp with rfl | hyp
        · exact hg rfl
        · exact ih hy' hyp

/-- A positive answer comes with a path. -/
theorem search_true {n : Nat} {x : α} (h : search succ goal n x = some true) :
    Relation.TransGen (fun a b => b ∈ succ a) x goal := by
  induction n generalizing x with
  | zero => simp [search] at h
  | succ n ih =>
      rw [search] at h
      obtain ⟨y, hy, hf⟩ := firstTrue_eq_true h
      by_cases hg : goal = y
      · subst hg; exact .single hy
      · rw [if_neg hg] at hf
        exact .head hy (ih hf)

/-- Without cycles the search ends: `keys` holds the points it may come to that lead on, and it
comes to none of them twice. -/
theorem search_ne_none (h : ∀ x, ¬ Relation.TransGen (fun a b => b ∈ succ a) x x) {n : Nat} {x : α}
    {keys : Finset α} (hlt : keys.card < n)
    (hkeys : ∀ y, Relation.ReflTransGen (fun a b => b ∈ succ a) x y → succ y ≠ [] → y ∈ keys) :
    search succ goal n x ≠ none := by
  induction n generalizing x keys with
  | zero => omega
  | succ n ih =>
      rw [search]
      apply firstTrue_ne_none
      intro y hy
      split
      · simp
      · have hx : x ∈ keys := hkeys x .refl (List.ne_nil_of_mem hy)
        refine @ih y (keys.erase x) ?_ ?_
        · have hpos := Finset.card_pos.mpr ⟨x, hx⟩
          rw [Finset.card_erase_of_mem hx]
          omega
        · intro z hyz hz
          have hne : z ≠ x := by
            rintro rfl
            exact h z (Relation.TransGen.head' hy hyz)
          exact Finset.mem_erase.mpr ⟨hne, hkeys z (.head hy hyz) hz⟩

end

/-! ## Cycles -/

/-- No cycle goes through two points. A point may be related to itself. -/
def Acyclic (r : α → α → Prop) : Prop :=
  ∀ x y, x ≠ y → Relation.TransGen r x y → ¬ Relation.TransGen r y x

/-- Lead from one point to some more. -/
def Insert (r : α → α → Prop) (goal : α) (new : α → Prop) (x y : α) : Prop :=
  r x y ∨ (x = goal ∧ new y)

section

open Relation

variable {r r' : α → α → Prop} {goal : α} {new : α → Prop} {x y z : α}

theorem Acyclic.mono (h : Acyclic r) (hr : ∀ x y, r' x y → r x y) : Acyclic r' :=
  fun x y hne hxy hyx => h x y hne (TransGen.mono hr _ _ hxy) (TransGen.mono hr _ _ hyx)

theorem Acyclic.irrefl (h : Acyclic r) (hself : ∀ x, ¬ r x x) (x : α) : ¬ TransGen r x x := by
  intro hx
  obtain ⟨y, hxy, hyx⟩ := TransGen.head'_iff.mp hx
  by_cases hne : x = y
  · exact hself x (hne ▸ hxy)
  · rcases reflTransGen_iff_eq_or_transGen.mp hyx with rfl | hyx
    · exact hne rfl
    · exact h x y hne (.single hxy) hyx

/-- Up to its first arrival at the goal a path uses no new edge. -/
theorem transGen_of_insert (h : TransGen (Insert r goal new) x goal) (hx : x ≠ goal) :
    TransGen r x goal := by
  induction h using TransGen.head_induction_on with
  | single he =>
      rcases he with he | ⟨rfl, _⟩
      · exact .single he
      · exact absurd rfl hx
  | @head x y he _ ih =>
      rcases he with he | ⟨rfl, _⟩
      · by_cases hy : y = goal
        · exact .single (hy ▸ he)
        · exact .head he (ih hy)
      · exact absurd rfl hx

/-- After its last departure from the goal a path uses no new edge. -/
theorem of_transGen_insert (h : TransGen (Insert r goal new) goal z) (hz : z ≠ goal) :
    TransGen r goal z ∨ ∃ d, new d ∧ d ≠ goal ∧ ReflTransGen r d z := by
  have hstep : ∀ {z}, Insert r goal new goal z → z ≠ goal →
      TransGen r goal z ∨ ∃ d, new d ∧ d ≠ goal ∧ ReflTransGen r d z := by
    intro z he hz
    rcases he with he | ⟨_, hn⟩
    · exact Or.inl (.single he)
    · exact Or.inr ⟨z, hn, hz, .refl⟩
  induction h with
  | single he => exact hstep he hz
  | @tail w z _ he ih =>
      by_cases hw : w = goal
      · exact hstep (hw ▸ he) hz
      · rcases he with he | ⟨rfl, _⟩
        · rcases ih hw with h | ⟨d, hd, hne, h⟩
          · exact Or.inl (h.tail he)
          · exact Or.inr ⟨d, hd, hne, h.tail he⟩
        · exact absurd rfl hw

/-- A path uses no new edge, or it comes through the goal. -/
theorem transGen_insert_cases (h : TransGen (Insert r goal new) x y) :
    TransGen r x y ∨
      ReflTransGen (Insert r goal new) x goal ∧ TransGen (Insert r goal new) goal y := by
  induction h with
  | single he =>
      rcases he with he | ⟨rfl, hn⟩
      · exact Or.inl (.single he)
      · exact Or.inr ⟨.refl, .single (Or.inr ⟨rfl, hn⟩)⟩
  | tail hxw he ih =>
      rcases ih with h | ⟨h, h'⟩
      · rcases he with he | ⟨rfl, hn⟩
        · exact Or.inl (h.tail he)
        · exact Or.inr ⟨hxw.to_reflTransGen, .single (Or.inr ⟨rfl, hn⟩)⟩
      · exact Or.inr ⟨h, h'.tail he⟩

/-- New edges that lead from a point to where it cannot be reached from close no cycle. -/
theorem Acyclic.insert (h : Acyclic r) (hnew : ∀ d, new d → d ≠ goal → ¬ TransGen r d goal) :
    Acyclic (Insert r goal new) := by
  -- a cycle through the goal
  have hgoal : ∀ {z}, z ≠ goal → TransGen (Insert r goal new) goal z →
      TransGen (Insert r goal new) z goal → False := by
    intro z hz hout hback
    have hback := transGen_of_insert hback hz
    rcases of_transGen_insert hout hz with hout | ⟨d, hd, hne, hdz⟩
    · exact h goal z (Ne.symm hz) hout hback
    · exact hnew d hd hne (TransGen.trans_right hdz hback)
  have hthrough : ∀ {x y}, x ≠ y → ReflTransGen (Insert r goal new) x goal →
      TransGen (Insert r goal new) goal y → TransGen (Insert r goal new) y x → False := by
    intro x y hne hx hy hyx
    by_cases hyg : y = goal
    · subst hyg
      have hxg := (reflTransGen_iff_eq_or_transGen.mp hx).resolve_left (Ne.symm hne)
      exact hgoal hne hyx hxg
    · exact hgoal hyg hy (TransGen.trans_left hyx hx)
  intro x y hne hxy hyx
  rcases transGen_insert_cases hxy with h₁ | ⟨hx, hy⟩
  · rcases transGen_insert_cases hyx with h₂ | ⟨hy, hx⟩
    · exact h x y hne h₁ h₂
    · exact hthrough (Ne.symm hne) hy hx hxy
  · exact hthrough hne hx hy hyx

/-- Without cycles some element of a list is related to none of them. -/
theorem exists_sink (h : ∀ x, ¬ TransGen r x x) {l : List α} (hl : l ≠ []) :
    ∃ x ∈ l, ∀ y ∈ l, ¬ r x y := by
  let after : {x // x ∈ l} → {x // x ∈ l} → Prop := fun y x => TransGen r x.1 y.1
  have : IsTrans _ after := ⟨fun _ _ _ hab hbc => hbc.trans hab⟩
  have : Std.Irrefl after := ⟨fun x hx => h x.1 hx⟩
  have : Finite {x // x ∈ l} := l.finite_toSet.to_subtype
  have hwf : WellFounded after := Finite.wellFounded_of_trans_of_irrefl after
  obtain ⟨x, hx⟩ := List.exists_mem_of_ne_nil l hl
  obtain ⟨m, -, hmin⟩ := hwf.has_min Set.univ ⟨⟨x, hx⟩, trivial⟩
  exact ⟨m.1, m.2, fun y hy hr => hmin ⟨y, hy⟩ trivial (.single hr)⟩

end

end Search
