import Mathlib.Data.List.Basic

/-!
# The first element that fits

`modifyFirst q f` changes the first element of a list that has the property `q`, which is what a
program does that walks a linked list and stops where it finds what it is looking for.
-/

namespace First

variable {α β : Type*} {q : α → Bool} {f : α → α}

/-- Change the first element with a property. -/
def modifyFirst (q : α → Bool) (f : α → α) : List α → List α
  | [] => []
  | x :: xs => if q x then f x :: xs else x :: modifyFirst q f xs

/-- What the change of the first element keeps the list keeps. -/
theorem map_modifyFirst {g : α → β} {l : List α} (h : ∀ x, l.find? q = some x → g (f x) = g x) :
    (modifyFirst q f l).map g = l.map g := by
  induction l with
  | nil => rfl
  | cons x l ih =>
      rw [modifyFirst]
      split
      · next hx =>
          rw [List.map_cons, List.map_cons, h x (by rw [List.find?_cons, hx])]
      · next hx =>
          rw [List.map_cons, List.map_cons, ih]
          intro y hy
          apply h
          rw [List.find?_cons, Bool.eq_false_iff.mpr hx, hy]

/-- What is to see of the list changes in the same place. -/
theorem map_modifyFirst_comm {g : α → β} {q' : β → Bool} {f' : β → β}
    (hq : ∀ x, q x = q' (g x)) (hf : ∀ x, g (f x) = f' (g x)) (l : List α) :
    (modifyFirst q f l).map g = modifyFirst q' f' (l.map g) := by
  induction l with
  | nil => rfl
  | cons x l ih =>
      rw [List.map_cons, modifyFirst, modifyFirst, hq x]
      split
      · rw [List.map_cons, hf]
      · rw [List.map_cons, ih]

/-- An element of the changed list is an old one or a changed one. -/
theorem mem_modifyFirst {y : α} {l : List α} (h : y ∈ modifyFirst q f l) :
    y ∈ l ∨ ∃ x ∈ l, q x = true ∧ y = f x := by
  induction l with
  | nil => exact absurd h (by simp [modifyFirst])
  | cons x l ih =>
      rw [modifyFirst] at h
      split at h
      · next hx =>
          rcases List.mem_cons.mp h with rfl | h
          · exact Or.inr ⟨x, by simp, hx, rfl⟩
          · exact Or.inl (List.mem_cons_of_mem _ h)
      · rcases List.mem_cons.mp h with rfl | h
        · exact Or.inl (by simp)
        · rcases ih h with h | ⟨z, hz, hq, rfl⟩
          · exact Or.inl (List.mem_cons_of_mem _ h)
          · exact Or.inr ⟨z, List.mem_cons_of_mem _ hz, hq, rfl⟩

/-- A search for something else finds what it found before. -/
theorem find?_modifyFirst {r : α → Bool} {l : List α}
    (h : ∀ x, q x = true → r x = false ∧ r (f x) = false) : (modifyFirst q f l).find? r =
    l.find? r := by
  induction l with
  | nil => rfl
  | cons x l ih =>
      rw [modifyFirst]
      split
      · next hx =>
          rw [List.find?_cons_of_neg (by simp [(h x hx).2]),
            List.find?_cons_of_neg (by simp [(h x hx).1])]
      · rw [List.find?_cons, List.find?_cons, ih]

/-- The search finds the changed element, if that still has the property. -/
theorem find?_modifyFirst_self {x : α} {l : List α} (h : l.find? q = some x) (hf : q (f x) = true) :
    (modifyFirst q f l).find? q = some (f x) := by
  induction l with
  | nil => exact absurd h (by simp)
  | cons y l ih =>
      rw [List.find?_cons] at h
      rw [modifyFirst]
      cases hy : q y with
      | true =>
          rw [hy] at h
          rw [← Option.some.inj h] at hf ⊢
          rw [if_pos rfl, List.find?_cons_of_pos hf]
      | false =>
          rw [hy] at h
          rw [if_neg (by simp), List.find?_cons_of_neg (by simp [hy]), ih h]

/-- Nor does it matter to a search for something else that the first element is taken out. -/
theorem find?_eraseP {r : α → Bool} {l : List α} (h : ∀ x ∈ l, q x = true → r x = false) :
    (l.eraseP q).find? r = l.find? r := by
  induction l with
  | nil => rfl
  | cons x l ih =>
      by_cases hx : q x = true
      · rw [List.eraseP_cons_of_pos hx, List.find?_cons_of_neg (by simp [h x (by simp) hx])]
      · rw [List.eraseP_cons_of_neg hx, List.find?_cons, List.find?_cons,
          ih (fun y hy => h y (List.mem_cons_of_mem _ hy))]

/-- What the search finds is what is taken out. -/
theorem perm_eraseP {x : α} {l : List α} (h : l.find? q = some x) : (x :: l.eraseP q).Perm l := by
  induction l with
  | nil => exact absurd h (by simp)
  | cons y l ih =>
      rw [List.find?_cons] at h
      cases hy : q y with
      | true =>
          rw [hy] at h
          rw [List.eraseP_cons_of_pos hy, ← Option.some.inj h]
      | false =>
          rw [hy] at h
          rw [List.eraseP_cons_of_neg (by simp [hy])]
          exact (List.Perm.swap y x _).trans ((ih h).cons y)

/-! ## Views of a list

The elements are what there is to see of the members of another list, and the property picks out
what is to see of one of them. -/

section Views

variable {ι : Type*} [DecidableEq ι] {l : List ι} {g g' : ι → α} {b : ι}

omit [DecidableEq ι] in
/-- One member changes. -/
theorem modifyFirst_map (hn : l.Nodup) (hq : ∀ a ∈ l, q (g a) = true ↔ a = b)
    (hself : b ∈ l → g' b = f (g b)) (hother : ∀ a ∈ l, a ≠ b → g' a = g a) :
    modifyFirst q f (l.map g) = l.map g' := by
  induction l with
  | nil => rfl
  | cons a l ih =>
      obtain ⟨hnot, hn⟩ := List.nodup_cons.mp hn
      rw [List.map_cons, List.map_cons, modifyFirst]
      split
      · next hqa =>
          obtain rfl := (hq a List.mem_cons_self).mp hqa
          rw [hself List.mem_cons_self]
          congr 1
          apply List.map_congr_left
          intro c hc
          exact (hother c (List.mem_cons_of_mem _ hc) (fun he => hnot (he ▸ hc))).symm
      · next hqa =>
          have hne : a ≠ b := fun he => hqa ((hq a List.mem_cons_self).mpr he)
          rw [hother a List.mem_cons_self hne, ih hn (fun c hc => hq c (List.mem_cons_of_mem _ hc))
            (fun hb => hself (List.mem_cons_of_mem _ hb))
            (fun c hc => hother c (List.mem_cons_of_mem _ hc))]

/-- One member goes. -/
theorem eraseP_map (hq : ∀ a ∈ l, q (g a) = true ↔ a = b) :
    (l.map g).eraseP q = (l.erase b).map g := by
  induction l with
  | nil => rfl
  | cons a l ih =>
      rw [List.map_cons]
      by_cases hab : a = b
      · rw [List.eraseP_cons_of_pos ((hq a List.mem_cons_self).mpr hab), hab, List.erase_cons_head]
      · rw [List.eraseP_cons_of_neg (fun h => hab ((hq a List.mem_cons_self).mp h)),
          List.erase_cons_tail (by simpa using hab), List.map_cons,
          ih (fun c hc => hq c (List.mem_cons_of_mem _ hc))]

end Views

/-- An element that still has the property when it is changed may as well be taken out at once. -/
theorem eraseP_modifyFirst (hf : ∀ x, q x = true → q (f x) = true) (l : List α) :
    (modifyFirst q f l).eraseP q = l.eraseP q := by
  induction l with
  | nil => rfl
  | cons x l ih =>
      rw [modifyFirst]
      split
      · next hx => rw [List.eraseP_cons_of_pos (hf x hx), List.eraseP_cons_of_pos hx]
      · next hx => rw [List.eraseP_cons_of_neg hx, List.eraseP_cons_of_neg hx, ih]

/-- Nothing is changed by a change that changes nothing. -/
theorem modifyFirst_self (hf : ∀ x, f x = x) (l : List α) : modifyFirst q f l = l := by
  induction l with
  | nil => rfl
  | cons x l ih =>
      rw [modifyFirst, hf, ih]
      split <;> rfl

/-- What stands behind does not matter if nothing there fits. -/
theorem modifyFirst_append {l' : List α} (h : ∀ x ∈ l', q x = false) (l : List α) :
    modifyFirst q f (l ++ l') = modifyFirst q f l ++ l' := by
  induction l with
  | nil =>
      induction l' with
      | nil => rfl
      | cons x l' ih =>
          have hrest := ih (fun y hy => h y (List.mem_cons_of_mem _ hy))
          rw [List.nil_append, modifyFirst] at hrest ⊢
          rw [modifyFirst, h x List.mem_cons_self, hrest]
          rfl
  | cons x l ih =>
      rw [List.cons_append, modifyFirst, modifyFirst, ih]
      split <;> rfl

/-! ### Two lists -/

section Related

variable {R : α → β → Prop} {q' : β → Bool} {f' : β → β} {l : List α} {l' : List β}

/-- Lists that go together still do when what is found in each is changed. -/
theorem forall₂_modifyFirst (hq : ∀ x y, R x y → q x = q' y)
    (hf : ∀ x y, R x y → R (f x) (f' y)) (h : List.Forall₂ R l l') :
    List.Forall₂ R (modifyFirst q f l) (modifyFirst q' f' l') := by
  induction h with
  | nil => exact .nil
  | @cons x y l l' hxy h ih =>
      rw [modifyFirst, modifyFirst, hq x y hxy]
      split
      · exact .cons (hf x y hxy) h
      · exact .cons hxy ih

/-- And when it is taken out. -/
theorem forall₂_eraseP (hq : ∀ x y, R x y → q x = q' y) (h : List.Forall₂ R l l') :
    List.Forall₂ R (l.eraseP q) (l'.eraseP q') := by
  induction h with
  | nil => exact .nil
  | @cons x y l l' hxy h ih =>
      cases hx : q x with
      | true =>
          have hy : q' y = true := (hq x y hxy).symm.trans hx
          rw [List.eraseP_cons_of_pos hx, List.eraseP_cons_of_pos hy]
          exact h
      | false =>
          have hy : q' y = false := (hq x y hxy).symm.trans hx
          rw [List.eraseP_cons_of_neg (by simp [hx]), List.eraseP_cons_of_neg (by simp [hy])]
          exact .cons hxy ih

end Related

/-! ## First occurrences -/

/-- The first of the elements with the same key, for each key. -/
def firsts {K : Type*} [DecidableEq K] (key : α → K) : List α → List α
  | [] => []
  | x :: l => x :: (firsts key l).filter (fun y => key y ≠ key x)

section Firsts

variable {K : Type*} [DecidableEq K] {key : α → K} {l : List α} {x : α}

theorem firsts_sublist : (firsts key l).Sublist l := by
  induction l with
  | nil => exact List.Sublist.refl _
  | cons x l ih => exact (List.filter_sublist.trans ih).cons_cons x

/-- Every key occurs. -/
theorem mem_map_firsts {k : K} : k ∈ (firsts key l).map key ↔ k ∈ l.map key := by
  induction l with
  | nil => rfl
  | cons x l ih =>
      rw [firsts, List.map_cons, List.map_cons, List.mem_cons, List.mem_cons, ← ih]
      by_cases hk : k = key x
      · simp [hk]
      · simp only [hk, false_or, List.mem_map, List.mem_filter, decide_eq_true_eq]
        constructor
        · rintro ⟨y, ⟨hy, -⟩, rfl⟩
          exact ⟨y, hy, rfl⟩
        · rintro ⟨y, hy, rfl⟩
          exact ⟨y, ⟨hy, hk⟩, rfl⟩

/-- And it occurs once. -/
theorem nodup_map_firsts : ((firsts key l).map key).Nodup := by
  induction l with
  | nil => exact List.nodup_nil
  | cons x l ih =>
      rw [firsts, List.map_cons, List.nodup_cons]
      refine ⟨fun hmem => ?_, ih.sublist (List.filter_sublist.map key)⟩
      obtain ⟨y, hy, hkey⟩ := List.mem_map.mp hmem
      exact of_decide_eq_true (List.mem_filter.mp hy).2 hkey

/-- What is kept is the first of its key. -/
theorem mem_firsts (h : x ∈ firsts key l) :
    ∃ before after, l = before ++ x :: after ∧ key x ∉ before.map key := by
  induction l with
  | nil => exact absurd h List.not_mem_nil
  | cons y l ih =>
      rcases List.mem_cons.mp h with rfl | hrest
      · exact ⟨[], l, rfl, List.not_mem_nil⟩
      · obtain ⟨hx, hne⟩ := List.mem_filter.mp hrest
        obtain ⟨before, after, rfl, hbefore⟩ := ih hx
        refine ⟨y :: before, after, rfl, ?_⟩
        rw [List.map_cons]
        exact List.not_mem_cons_of_ne_of_not_mem (of_decide_eq_true hne) hbefore

/-- What one more element adds. -/
theorem firsts_concat : firsts key (l ++ [x]) =
    if key x ∈ l.map key then firsts key l else firsts key l ++ [x] := by
  induction l with
  | nil => rfl
  | cons y l ih =>
      rw [List.cons_append, firsts, ih, List.map_cons]
      by_cases hy : key x = key y
      · have hmem : key x ∈ key y :: l.map key := by
          rw [hy]
          exact List.mem_cons_self
        rw [if_pos hmem, firsts]
        by_cases hl : key x ∈ l.map key
        · rw [if_pos hl]
        · rw [if_neg hl, List.filter_append]
          simp [hy]
      · by_cases hmem : key x ∈ l.map key
        · rw [if_pos hmem, if_pos (List.mem_cons_of_mem _ hmem), firsts]
        · rw [if_neg hmem, if_neg (List.not_mem_cons_of_ne_of_not_mem hy hmem), firsts,
            List.filter_append]
          simp [hy]

end Firsts

end First
