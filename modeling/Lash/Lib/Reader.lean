import Mathlib.Data.List.Basic

/-!
# Reading a queue

A reader takes the messages of a queue one after another; each changes its state and makes it put
something out. What is still to come out of a queue (`Reader.outs`) and the state at its end
(`Reader.final`) are functions of the queue, so an invariant of a system with messages on their way
can speak about them before anybody has read them.

A reader that hears only some of the messages makes the same of a queue if it would pass over all
others (`Reader.Passes`).
-/

namespace Lash

/-- A machine that reads messages. -/
structure Reader (σ α β : Type*) where
  next : σ → α → σ
  out : σ → α → List β

namespace Reader

variable {σ α β : Type*}

/-- The state after a queue was read. -/
def final (r : Reader σ α β) (s : σ) (l : List α) : σ := l.foldl r.next s

/-- All that is put out while a queue is read. -/
def outs (r : Reader σ α β) : σ → List α → List β
  | _, [] => []
  | s, a :: l => r.out s a ++ r.outs (r.next s a) l

section

variable (r : Reader σ α β)

@[simp] theorem final_nil (s : σ) : r.final s [] = s := rfl

@[simp] theorem final_cons (s : σ) (a : α) (l : List α) :
    r.final s (a :: l) = r.final (r.next s a) l := rfl

@[simp] theorem final_append (s : σ) (l l' : List α) :
    r.final s (l ++ l') = r.final (r.final s l) l' := List.foldl_append

@[simp] theorem outs_nil (s : σ) : r.outs s [] = [] := rfl

@[simp] theorem outs_cons (s : σ) (a : α) (l : List α) :
    r.outs s (a :: l) = r.out s a ++ r.outs (r.next s a) l := rfl

@[simp] theorem outs_append (s : σ) (l l' : List α) :
    r.outs s (l ++ l') = r.outs s l ++ r.outs (r.final s l) l' := by
  induction l generalizing s with
  | nil => rfl
  | cons a l ih => rw [List.cons_append, outs_cons, ih, outs_cons, final_cons, List.append_assoc]

/-- Whoever puts something out while a queue is read has read its beginning. -/
theorem exists_of_mem_outs {s : σ} {l : List α} {b : β} (h : b ∈ r.outs s l) :
    ∃ l₁ a l₂, l = l₁ ++ a :: l₂ ∧ b ∈ r.out (r.final s l₁) a := by
  induction l generalizing s with
  | nil => exact absurd h List.not_mem_nil
  | cons a l ih =>
      rw [outs_cons] at h
      rcases List.mem_append.mp h with h | h
      · exact ⟨[], a, l, rfl, h⟩
      · obtain ⟨l₁, a', l₂, rfl, hb⟩ := ih h
        exact ⟨a :: l₁, a', l₂, rfl, hb⟩

end

/-! ## Messages that are passed over -/

/-- A message changes nothing. -/
def Skips (r : Reader σ α β) (s : σ) (a : α) : Prop := r.next s a = s ∧ r.out s a = []

/-- Every message of a kind is passed over where it stands in the queue. -/
def Passes (r : Reader σ α β) (p : α → Prop) : σ → List α → Prop
  | _, [] => True
  | s, a :: l => (p a → r.Skips s a) ∧ r.Passes p (r.next s a) l

variable {r : Reader σ α β} {s : σ} {a : α} {l l' : List α} {p q : α → Prop}

theorem Skips.next (h : r.Skips s a) : r.next s a = s := h.1

/-- A queue without any message that matters. -/
theorem final_of_skips (h : ∀ a ∈ l, r.Skips s a) : r.final s l = s := by
  induction l with
  | nil => rfl
  | cons a l ih =>
      rw [final_cons, (h a List.mem_cons_self).next]
      exact ih (fun b hb => h b (List.mem_cons_of_mem _ hb))

theorem outs_of_skips (h : ∀ a ∈ l, r.Skips s a) : r.outs s l = [] := by
  induction l with
  | nil => rfl
  | cons a l ih =>
      obtain ⟨hnext, hout⟩ := h a List.mem_cons_self
      rw [outs_cons, hnext, hout, ih (fun b hb => h b (List.mem_cons_of_mem _ hb))]
      rfl

theorem passes_append : r.Passes p s (l ++ l') ↔ r.Passes p s l ∧ r.Passes p (r.final s l) l' := by
  induction l generalizing s with
  | nil => exact ⟨fun h => ⟨trivial, h⟩, fun h => h.2⟩
  | cons a l ih =>
      show (_ ∧ r.Passes p (r.next s a) (l ++ l')) ↔ (_ ∧ _) ∧ _
      rw [ih, and_assoc]
      rfl

theorem Passes.of_forall_not (h : ∀ a ∈ l, ¬ p a) : r.Passes p s l := by
  induction l generalizing s with
  | nil => trivial
  | cons a l ih =>
      refine ⟨fun ha => absurd ha (h a List.mem_cons_self), ih ?_⟩
      exact fun b hb => h b (List.mem_cons_of_mem _ hb)

theorem Passes.of_skips (h : ∀ a ∈ l, p a → r.Skips s a) (hq : ∀ a ∈ l, ¬ p a → r.next s a = s) :
    r.Passes p s l := by
  induction l with
  | nil => trivial
  | cons a l ih =>
      have hnext : r.next s a = s := by
        by_cases ha : p a
        · exact (h a List.mem_cons_self ha).next
        · exact hq a List.mem_cons_self ha
      refine ⟨h a List.mem_cons_self, ?_⟩
      rw [hnext]
      exact ih (fun b hb => h b (List.mem_cons_of_mem _ hb))
        (fun b hb => hq b (List.mem_cons_of_mem _ hb))

theorem Passes.mono (h : r.Passes p s l) (hpq : ∀ a, q a → p a) : r.Passes q s l := by
  induction l generalizing s with
  | nil => trivial
  | cons a l ih => exact ⟨fun ha => h.1 (hpq a ha), ih h.2⟩

/-- A message that is passed over may be taken out. -/
theorem Passes.drop (h : r.Passes p s (l ++ a :: l')) (ha : p a) :
    r.outs s (l ++ l') = r.outs s (l ++ a :: l') ∧ r.final s (l ++ l') = r.final s (l ++ a :: l') ∧
      r.Passes p s (l ++ l') := by
  obtain ⟨hfirst, hskip, hrest⟩ := passes_append.mp h
  obtain ⟨hnext, hout⟩ := hskip ha
  rw [hnext] at hrest
  refine ⟨?_, ?_, passes_append.mpr ⟨hfirst, hrest⟩⟩
  · rw [outs_append, outs_append, outs_cons, hnext, hout]
    rfl
  · rw [final_append, final_append, final_cons, hnext]

/-! ## Messages that are read alike -/

/-- A message that leaves every state as it is, and makes the same come out in all of them. -/
def Alike (r : Reader σ α β) (a : α) : Prop := ∀ s t, r.next s a = s ∧ r.out s a = r.out t a

theorem final_of_alike (h : ∀ a ∈ l, r.Alike a) : r.final s l = s := by
  induction l with
  | nil => rfl
  | cons a l ih =>
      rw [final_cons, (h a List.mem_cons_self s s).1]
      exact ih (fun b hb => h b (List.mem_cons_of_mem _ hb))

theorem outs_of_alike {t : σ} (h : ∀ a ∈ l, r.Alike a) : r.outs s l = r.outs t l := by
  induction l with
  | nil => rfl
  | cons a l ih =>
      obtain ⟨hs, hout⟩ := h a List.mem_cons_self s t
      rw [outs_cons, outs_cons, hs, (h a List.mem_cons_self t s).1, hout]
      rw [ih (fun b hb => h b (List.mem_cons_of_mem _ hb))]

end Reader

end Lash
