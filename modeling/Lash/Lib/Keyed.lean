import Mathlib.Algebra.GroupWithZero.Nat
import Mathlib.Data.List.Nodup
import Mathlib.Data.List.Count

/-!
# Lists of records with a key

A list whose elements carry distinct keys is a heap in miniature: `put x` overwrites the element
that has the key of `x`, `del k` takes the element with key `k` out. The lemmas say what this does
to membership, to the keys and to the number of elements with a property.
-/

namespace Keyed

variable {α β K : Type*} [DecidableEq K] (key : α → K)

/-- Overwrite the element that has the key of `x`. -/
def put (x : α) (l : List α) : List α := l.map (fun y => if key y = key x then x else y)

/-- Take out the element with key `k`. -/
def del (k : K) (l : List α) : List α := l.filter (fun y => key y ≠ k)

variable {key}

/-! ## Membership and keys -/

@[simp] theorem map_key_put (x : α) (l : List α) : (put key x l).map key = l.map key := by
  unfold put
  rw [List.map_map]
  apply List.map_congr_left
  intro y _
  by_cases h : key y = key x <;> simp [h]

@[simp] theorem length_put (x : α) (l : List α) : (put key x l).length = l.length :=
  List.length_map _

theorem mem_put {x y : α} {l : List α} :
    y ∈ put key x l ↔ (y = x ∧ ∃ z ∈ l, key z = key x) ∨ (y ∈ l ∧ key y ≠ key x) := by
  unfold put
  rw [List.mem_map]
  constructor
  · rintro ⟨z, hz, hy⟩
    by_cases h : key z = key x
    · rw [if_pos h] at hy
      exact Or.inl ⟨hy.symm, z, hz, h⟩
    · rw [if_neg h] at hy
      subst hy
      exact Or.inr ⟨hz, h⟩
  · rintro (⟨rfl, z, hz, h⟩ | ⟨hy, h⟩)
    · exact ⟨z, hz, if_pos h⟩
    · exact ⟨y, hy, if_neg h⟩

theorem mem_put_self {x z : α} {l : List α} (hz : z ∈ l) (h : key z = key x) : x ∈ put key x l :=
  mem_put.mpr (Or.inl ⟨rfl, z, hz, h⟩)

/-- The element in front is written back. -/
theorem put_cons_subset {x z : α} {l : List α} (h : key z = key x) :
    put key x (z :: l) ⊆ x :: l := by
  intro y hy
  rcases mem_put.mp hy with ⟨rfl, -⟩ | ⟨hy, hne⟩
  · exact List.mem_cons_self
  · rcases List.mem_cons.mp hy with rfl | hy
    · exact absurd h hne
    · exact List.mem_cons_of_mem _ hy

theorem mem_del {k : K} {y : α} {l : List α} : y ∈ del key k l ↔ y ∈ l ∧ key y ≠ k := by
  simp [del]

theorem mem_of_mem_del {k : K} {y : α} {l : List α} (h : y ∈ del key k l) : y ∈ l :=
  (mem_del.mp h).1

theorem nodup_del {k : K} {l : List α} (h : (l.map key).Nodup) : ((del key k l).map key).Nodup :=
  h.sublist ((List.filter_sublist).map key)

theorem put_put {x y : α} {l : List α} (h : key x = key y) :
    put key x (put key y l) = put key x l := by
  unfold put
  rw [List.map_map]
  apply List.map_congr_left
  intro z _
  by_cases hz : key z = key y <;> simp [hz, h]

/-- An element that is nowhere in the list is not put anywhere. -/
theorem put_of_not_mem {x : α} {l : List α} (h : key x ∉ l.map key) : put key x l = l := by
  unfold put
  conv_rhs => rw [← List.map_id l]
  apply List.map_congr_left
  intro y hy
  rw [if_neg (fun e => h (List.mem_map.mpr ⟨y, hy, e⟩))]
  rfl

omit [DecidableEq K] in
/-- Keys are distinct, so the element with a key is the only one. -/
theorem eq_of_key_eq {l : List α} (hn : (l.map key).Nodup) {x y : α} (hx : x ∈ l) (hy : y ∈ l)
    (h : key x = key y) : x = y :=
  List.inj_on_of_nodup_map hn hx hy h

/-- An element is the one that is found under its key. -/
theorem find_key {l : List α} (hn : (l.map key).Nodup) {x : α} (hx : x ∈ l) :
    l.find? (fun y => key y = key x) = some x := by
  induction l with
  | nil => simp at hx
  | cons y l ih =>
      rw [List.map_cons, List.nodup_cons] at hn
      rcases List.mem_cons.mp hx with rfl | hx
      · simp
      · have hne : key y ≠ key x := fun he => hn.1 (he ▸ List.mem_map_of_mem hx)
        rw [List.find?_cons_of_neg (by simpa using hne), ih hn.2 hx]

theorem put_eq_self {x : α} {l : List α} (hn : (l.map key).Nodup) (hx : x ∈ l) :
    put key x l = l := by
  unfold put
  conv_rhs => rw [← List.map_id l]
  apply List.map_congr_left
  intro y hy
  by_cases h : key y = key x
  · rw [if_pos h]; exact eq_of_key_eq hn hx hy h.symm
  · rw [if_neg h]; rfl

/-- Every element of an updated list is the new one or an old one. -/
theorem eq_or_mem_of_mem_put {x y : α} {l : List α} (h : y ∈ put key x l) : y = x ∨ y ∈ l := by
  rcases mem_put.mp h with ⟨rfl, _⟩ | ⟨hy, _⟩
  · exact Or.inl rfl
  · exact Or.inr hy

/-! ## Views

A function that keeps the keys commutes with the two operations. -/

theorem map_put {key' : β → K} {f : α → β} (hf : ∀ y, key' (f y) = key y) (x : α) (l : List α) :
    (put key x l).map f = put key' (f x) (l.map f) := by
  unfold put
  rw [List.map_map, List.map_map]
  apply List.map_congr_left
  intro y _
  by_cases h : key y = key x <;> simp [hf, h]

theorem map_del {key' : β → K} {f : α → β} (hf : ∀ y, key' (f y) = key y) (k : K) (l : List α) :
    (del key k l).map f = del key' k (l.map f) := by
  unfold del
  rw [List.filter_map]
  congr 1
  apply List.filter_congr
  intro y _
  simp [hf]

/-! ## Counting -/

omit [DecidableEq K] in
/-- A list with distinct keys, split at one of its elements. -/
theorem exists_split {x : α} {l : List α} (hn : (l.map key).Nodup) (hx : x ∈ l) :
    ∃ l₁ l₂, l = l₁ ++ x :: l₂ ∧ (∀ y ∈ l₁ ++ l₂, key y ≠ key x) := by
  obtain ⟨l₁, l₂, rfl⟩ := List.append_of_mem hx
  refine ⟨l₁, l₂, rfl, ?_⟩
  intro y hy he
  rw [List.map_append, List.map_cons, List.nodup_middle, List.nodup_cons] at hn
  apply hn.1
  rw [← he, ← List.map_append]
  exact List.mem_map_of_mem hy

theorem put_split {x z : α} {l₁ l₂ : List α} (h : ∀ y ∈ l₁ ++ l₂, key y ≠ key x)
    (hz : key z = key x) : put key z (l₁ ++ x :: l₂) = l₁ ++ z :: l₂ := by
  have aux : ∀ l : List α, (∀ y ∈ l, key y ≠ key x) → put key z l = l := by
    intro l hl
    apply put_of_not_mem
    intro hm
    obtain ⟨y, hy, he⟩ := List.mem_map.mp hm
    exact hl y hy (he.trans hz)
  have h1 := aux l₁ (fun y hy => h y (List.mem_append_left _ hy))
  have h2 := aux l₂ (fun y hy => h y (List.mem_append_right _ hy))
  unfold put at h1 h2 ⊢
  rw [List.map_append, List.map_cons, h1, h2, if_pos hz.symm]

theorem del_split {x : α} {l₁ l₂ : List α} (h : ∀ y ∈ l₁ ++ l₂, key y ≠ key x) :
    del key (key x) (l₁ ++ x :: l₂) = l₁ ++ l₂ := by
  unfold del
  rw [List.filter_append, List.filter_cons_of_neg (by simp), ← List.filter_append]
  apply List.filter_eq_self.mpr
  intro y hy
  simpa using h y hy

/-- A list, with one of its elements taken to the front. -/
theorem cons_del_perm {x : α} {l : List α} (hn : (l.map key).Nodup) (hx : x ∈ l) :
    (x :: del key (key x) l).Perm l := by
  obtain ⟨l₁, l₂, rfl, h⟩ := exists_split hn hx
  rw [del_split h]
  exact List.perm_middle.symm

/-- Overwriting an element leaves the others. -/
theorem put_perm {x z : α} {l : List α} (hn : (l.map key).Nodup) (hx : x ∈ l) (hz : key z = key x) :
    (put key z l).Perm (z :: del key (key x) l) := by
  obtain ⟨l₁, l₂, rfl, h⟩ := exists_split hn hx
  rw [put_split h hz, del_split h]
  exact List.perm_middle

/-- The keys of a list, with one of them taken to the front. -/
theorem map_cons_del_perm {x : α} {l : List α} (hn : (l.map key).Nodup) (hx : x ∈ l) :
    (key x :: (del key (key x) l).map key).Perm (l.map key) := by
  obtain ⟨l₁, l₂, rfl, h⟩ := exists_split hn hx
  rw [del_split h, List.map_append, List.map_append, List.map_cons]
  exact List.perm_middle.symm

/-- Overwriting `x` with `z` moves a count by what the two contribute. -/
theorem countP_put {q : α → Bool} {x z : α} {l : List α} (hn : (l.map key).Nodup) (hx : x ∈ l)
    (hz : key z = key x) :
    (put key z l).countP q + (if q x then 1 else 0) = l.countP q + (if q z then 1 else 0) := by
  obtain ⟨l₁, l₂, rfl, h⟩ := exists_split hn hx
  rw [put_split h hz]
  simp only [List.countP_append, List.countP_cons]
  omega

/-- Taking `x` out lowers a count by what `x` contributes. -/
theorem countP_del {q : α → Bool} {x : α} {l : List α} (hn : (l.map key).Nodup) (hx : x ∈ l) :
    (del key (key x) l).countP q + (if q x then 1 else 0) = l.countP q := by
  obtain ⟨l₁, l₂, rfl, h⟩ := exists_split hn hx
  rw [del_split h]
  simp only [List.countP_append, List.countP_cons]
  omega

/-- Overwriting `x` with `z` moves a sum by what the two contribute. -/
theorem sum_map_put {f : α → Nat} {x z : α} {l : List α} (hn : (l.map key).Nodup) (hx : x ∈ l)
    (hz : key z = key x) : ((put key z l).map f).sum + f x = (l.map f).sum + f z := by
  obtain ⟨l₁, l₂, rfl, h⟩ := exists_split hn hx
  rw [put_split h hz]
  simp only [List.map_append, List.map_cons, List.sum_append, List.sum_cons]
  omega

omit [DecidableEq K] in
/-- If at most one element has a property, then no two do. -/
theorem eq_of_countP_le_one {q : α → Bool} {l : List α} (hn : (l.map key).Nodup)
    (h : l.countP q ≤ 1) {x y : α} (hx : x ∈ l) (hy : y ∈ l) (hqx : q x = true) (hqy : q y = true) :
    x = y := by
  obtain ⟨l₁, l₂, rfl, _⟩ := exists_split hn hx
  have hcount : (l₁ ++ x :: l₂).countP q = (l₁ ++ l₂).countP q + 1 := by
    rw [List.countP_append, List.countP_cons_of_pos hqx, List.countP_append, Nat.add_assoc]
  by_contra hne
  have hy' : y ∈ l₁ ++ l₂ := by
    rcases List.mem_append.mp hy with hy | hy
    · exact List.mem_append_left _ hy
    · rcases List.mem_cons.mp hy with rfl | hy
      · exact absurd rfl hne
      · exact List.mem_append_right _ hy
  have hpos : 0 < (l₁ ++ l₂).countP q := List.countP_pos_iff.mpr ⟨y, hy', hqy⟩
  omega

/-! ## Lists that come from lists -/

/-- Every element of `l'` comes from an element of `l`. -/
def From (R : α → α → Prop) (l l' : List α) : Prop := ∀ y ∈ l', ∃ x ∈ l, R x y

namespace From

variable {R S : α → α → Prop} {l l' l'' : List α} {x y : α}

theorem nil (R : α → α → Prop) (l : List α) : From R l [] := fun _ hy => absurd hy List.not_mem_nil

theorem of_subset (hR : ∀ x, R x x) (h : ∀ y ∈ l', y ∈ l) : From R l l' :=
  fun y hy => ⟨y, h y hy, hR y⟩

theorem refl (hR : ∀ x, R x x) (l : List α) : From R l l := of_subset hR (fun _ hy => hy)

theorem trans (hR : ∀ {x y z}, R x y → R y z → R x z) (h : From R l l') (h' : From R l' l'') :
    From R l l'' := by
  intro z hz
  obtain ⟨y, hy, hyz⟩ := h' z hz
  obtain ⟨x, hx, hxy⟩ := h y hy
  exact ⟨x, hx, hR hxy hyz⟩

theorem mono (hR : ∀ {x y}, R x y → S x y) (h : From R l l') : From S l l' := by
  intro y hy
  obtain ⟨x, hx, hxy⟩ := h y hy
  exact ⟨x, hx, hR hxy⟩

theorem append {m m' : List α} (h : From R l l') (h' : From R m m') :
    From R (l ++ m) (l' ++ m') := by
  intro y hy
  rcases List.mem_append.mp hy with hy | hy
  · obtain ⟨x, hx, hxy⟩ := h y hy
    exact ⟨x, List.mem_append_left _ hx, hxy⟩
  · obtain ⟨x, hx, hxy⟩ := h' y hy
    exact ⟨x, List.mem_append_right _ hx, hxy⟩

theorem cons (hy : ∃ x ∈ l, R x y) (h : From R l l') : From R l (y :: l') := by
  intro z hz
  rcases List.mem_cons.mp hz with rfl | hz
  · exact hy
  · exact h z hz

theorem map {f : α → α} (hf : ∀ x, R x (f x)) (l : List α) : From R l (l.map f) := by
  intro y hy
  obtain ⟨x, hx, rfl⟩ := List.mem_map.mp hy
  exact ⟨x, hx, hf x⟩

omit [DecidableEq K] in
/-- If the keys are the same, so is everything else that the relation keeps. -/
theorem map_eq {f : α → β} (h : From R l l') (hkey : l'.map key = l.map key)
    (hn : (l.map key).Nodup) (hR : ∀ {x y}, R x y → key y = key x ∧ f y = f x) :
    l'.map f = l.map f := by
  have hlen : l'.length = l.length := by simpa using congrArg List.length hkey
  apply List.ext_getElem (by simpa using hlen)
  intro i hi hi'
  rw [List.length_map] at hi hi'
  rw [List.getElem_map, List.getElem_map]
  obtain ⟨x, hx, hxy⟩ := h l'[i] (List.getElem_mem hi)
  have hsame : key l'[i] = key l[i] := by
    have hget := List.getElem_of_eq hkey (by simpa using hi)
    rwa [List.getElem_map, List.getElem_map] at hget
  rw [(hR hxy).2, eq_of_key_eq hn hx (List.getElem_mem hi') ((hR hxy).1.symm.trans hsame)]

/-- An element is overwritten. -/
theorem put (h : From R l l') (hy : ∃ x ∈ l, R x y) : From R l (put key y l') := by
  intro z hz
  rcases mem_put.mp hz with ⟨rfl, -⟩ | ⟨hz, -⟩
  · exact hy
  · exact h z hz

end From

end Keyed
