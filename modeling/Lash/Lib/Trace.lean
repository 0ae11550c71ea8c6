import Mathlib.Data.List.Basic

/-!
# What comes before and after an event

`Before Q l` says that at every event of the trace `l` the events so far satisfy `Q`, `After Q l`
says it of the events that follow. Both are proved along a run by the two append lemmas: the trace
grows at its end, so what came before an event stays, and what follows it only gets longer.
-/

namespace Trace

variable {ε : Type*} {l l' : List ε}

def Before (Q : List ε → ε → Prop) (l : List ε) : Prop :=
  ∀ pre e post, l = pre ++ e :: post → Q pre e

def After (Q : ε → List ε → Prop) (l : List ε) : Prop :=
  ∀ pre e post, l = pre ++ e :: post → Q e post

theorem Before.nil {Q : List ε → ε → Prop} : Before Q [] := by
  intro pre e post h
  exact absurd h.symm (by simp)

theorem After.nil {Q : ε → List ε → Prop} : After Q [] := by
  intro pre e post h
  exact absurd h.symm (by simp)

/-- An event of a trace that was made longer is in the old part or in the new one. -/
theorem split_append {pre post : List ε} {e : ε} (h : l ++ l' = pre ++ e :: post) :
    (∃ mid, l = pre ++ e :: mid ∧ post = mid ++ l') ∨
      (∃ mid, l' = mid ++ e :: post ∧ pre = l ++ mid) := by
  rcases List.append_eq_append_iff.mp h with ⟨mid, hpre, hl'⟩ | ⟨mid, hl, hmid⟩
  · exact Or.inr ⟨mid, hl', hpre⟩
  · cases mid with
    | nil => exact Or.inr ⟨[], by simpa using hmid.symm, by simpa using hl.symm⟩
    | cons f mid =>
        obtain ⟨rfl, rfl⟩ := List.cons_eq_cons.mp hmid
        exact Or.inl ⟨mid, hl, rfl⟩

/-- Another event than the first one comes after it. -/
theorem split_cons {pre post : List ε} {e f : ε} (h : f :: l = pre ++ e :: post) (hne : f ≠ e) :
    ∃ mid, pre = f :: mid ∧ l = mid ++ e :: post := by
  cases pre with
  | nil => exact absurd (List.cons_eq_cons.mp h).1 hne
  | cons g mid =>
      obtain ⟨rfl, hl⟩ := List.cons_eq_cons.mp h
      exact ⟨mid, rfl, hl⟩

theorem Before.append {Q : List ε → ε → Prop} (h : Before Q l)
    (h' : ∀ pre e post, l' = pre ++ e :: post → Q (l ++ pre) e) : Before Q (l ++ l') := by
  intro pre e post heq
  rcases split_append heq with ⟨mid, hl, _⟩ | ⟨mid, hl', rfl⟩
  · exact h pre e mid hl
  · exact h' mid e post hl'

theorem Before.concat {Q : List ε → ε → Prop} {e : ε} (h : Before Q l) (he : Q l e) :
    Before Q (l ++ [e]) := by
  apply h.append
  intro pre f post heq
  cases pre with
  | nil =>
      obtain ⟨rfl, _⟩ := List.cons_eq_cons.mp heq
      rw [List.append_nil]
      exact he
  | cons g pre => exact absurd (List.cons_eq_cons.mp heq).2 (by simp)

/-- New events that `Q` asks nothing of. -/
theorem Before.append_of_forall {Q : List ε → ε → Prop} (h : Before Q l)
    (h' : ∀ e ∈ l', ∀ pre, Q pre e) : Before Q (l ++ l') := by
  apply h.append
  rintro pre e post rfl
  exact h' e (by simp) _

theorem After.append {Q : ε → List ε → Prop} (h : After Q l) (h' : After Q l')
    (hmono : ∀ e post, Q e post → Q e (post ++ l')) : After Q (l ++ l') := by
  intro pre e post heq
  rcases split_append heq with ⟨mid, hl, rfl⟩ | ⟨mid, hl', _⟩
  · exact hmono e mid (h pre e mid hl)
  · exact h' mid e post hl'

theorem After.of_forall {Q : ε → List ε → Prop} (h : ∀ e ∈ l, ∀ post, Q e post) : After Q l := by
  rintro pre e post rfl
  exact h e (by simp) post

theorem After.cons {Q : ε → List ε → Prop} {e : ε} (h : Q e l) (hl : After Q l) :
    After Q (e :: l) := by
  intro pre f post heq
  cases pre with
  | nil =>
      obtain ⟨rfl, rfl⟩ := List.cons_eq_cons.mp heq
      exact h
  | cons g pre =>
      obtain ⟨rfl, rfl⟩ := List.cons_eq_cons.mp heq
      exact hl pre f post rfl

end Trace
