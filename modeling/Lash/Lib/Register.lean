import Mathlib.Data.List.Nodup
import Mathlib.Data.List.Perm.Basic

/-!
# A register of badges

People come and go, and some of them have a badge; the register lists who has which. `Matches`
says that the two agree. The lemmas say what keeps them in agreement: somebody comes without a
badge, gets one and is entered, or goes and is struck out.
-/

namespace Register

variable {α β K : Type*} {id : α → K} {badge : α → Option β}

/-- Everybody who has a badge is in the register with it, and there is nothing else in the
register. -/
structure Matches (id : α → K) (badge : α → Option β) (l : List α)
    (keys : List (K × β)) : Prop where
  ids : (l.map id).Nodup
  nodup : (keys.map Prod.fst).Nodup
  listed : ∀ a ∈ l, ∀ b, badge a = some b → (id a, b) ∈ keys
  owned : ∀ k ∈ keys, ∃ a ∈ l, id a = k.1 ∧ badge a = some k.2

variable {l l' : List α} {keys : List (K × β)} {a a' : α} {b : β}

theorem Matches.nil : Matches id badge [] ([] : List (K × β)) where
  ids := List.nodup_nil
  nodup := List.nodup_nil
  listed a ha := absurd ha (by simp)
  owned k hk := absurd hk (by simp)

/-- The order in which the people stand does not matter. -/
theorem Matches.perm (h : Matches id badge l keys)
    (hperm : l'.Perm l) : Matches id badge l' keys where
  ids := (hperm.map id).nodup_iff.mpr h.ids
  nodup := h.nodup
  listed a ha := h.listed a (hperm.subset ha)
  owned k hk := by
    obtain ⟨a, ha, hk⟩ := h.owned k hk
    exact ⟨a, hperm.symm.subset ha, hk⟩

/-- Somebody without a badge is not in the register. -/
theorem Matches.not_listed (h : Matches id badge l keys) (ha : a ∈ l) (hnone : badge a = none) :
    ∀ k ∈ keys, k.1 ≠ id a := by
  intro k hk he
  obtain ⟨c, hc, hid, hbadge⟩ := h.owned k hk
  have hca : c = a := List.inj_on_of_nodup_map h.ids hc ha (hid.trans he)
  rw [hca, hnone] at hbadge
  exact absurd hbadge (by simp)

/-- Nor is somebody who is not there. -/
theorem Matches.not_there (h : Matches id badge l keys) {i : K} (hi : i ∉ l.map id) :
    ∀ k ∈ keys, k.1 ≠ i := by
  rintro k hk rfl
  obtain ⟨c, hc, hid, -⟩ := h.owned k hk
  exact hi (List.mem_map.mpr ⟨c, hc, hid⟩)

/-- Somebody comes, without a badge. -/
theorem Matches.come (h : Matches id badge l keys) (hnew : id a ∉ l.map id)
    (hnone : badge a = none) :
    Matches id badge (a :: l) keys where
  ids := List.nodup_cons.mpr ⟨hnew, h.ids⟩
  nodup := h.nodup
  listed c hc b hb := by
    rcases List.mem_cons.mp hc with rfl | hc
    · rw [hnone] at hb
      exact absurd hb (by simp)
    · exact h.listed c hc b hb
  owned k hk := by
    obtain ⟨c, hc, hk⟩ := h.owned k hk
    exact ⟨c, List.mem_cons_of_mem _ hc, hk⟩

/-- Somebody changes, and keeps the id and the badge. -/
theorem Matches.change (h : Matches id badge (a :: l) keys) (hid : id a' = id a)
    (hbadge : badge a' = badge a) : Matches id badge (a' :: l) keys where
  ids := by
    rw [List.map_cons, hid]
    exact h.ids
  nodup := h.nodup
  listed c hc b hb := by
    rcases List.mem_cons.mp hc with rfl | hc
    · rw [hid]
      exact h.listed a List.mem_cons_self b (hbadge ▸ hb)
    · exact h.listed c (List.mem_cons_of_mem _ hc) b hb
  owned k hk := by
    obtain ⟨c, hc, hck, hcb⟩ := h.owned k hk
    rcases List.mem_cons.mp hc with rfl | hc
    · exact ⟨a', List.mem_cons_self, hid.trans hck, hbadge.trans hcb⟩
    · exact ⟨c, List.mem_cons_of_mem _ hc, hck, hcb⟩

/-- Somebody without a badge gets one, and is entered. -/
theorem Matches.enter (h : Matches id badge (a :: l) keys) (hnone : badge a = none)
    (hid : id a' = id a) (hbadge : badge a' = some b) :
    Matches id badge (a' :: l) (keys ++ [(id a, b)]) where
  ids := by
    rw [List.map_cons, hid]
    exact h.ids
  nodup := by
    rw [List.map_append, List.nodup_append]
    refine ⟨h.nodup, List.nodup_singleton _, ?_⟩
    rintro i hi _ hj rfl
    obtain ⟨k, hk, rfl⟩ := List.mem_map.mp hi
    exact h.not_listed List.mem_cons_self hnone k hk (List.mem_singleton.mp hj)
  listed c hc b' hb := by
    rcases List.mem_cons.mp hc with rfl | hc
    · rw [hid]
      rw [hbadge] at hb
      rw [← Option.some.inj hb]
      exact List.mem_append_right _ List.mem_cons_self
    · exact List.mem_append_left _ (h.listed c (List.mem_cons_of_mem _ hc) b' hb)
  owned k hk := by
    rcases List.mem_append.mp hk with hk | hk
    · obtain ⟨c, hc, hck, hcb⟩ := h.owned k hk
      rcases List.mem_cons.mp hc with rfl | hc
      · rw [hnone] at hcb
        exact absurd hcb (by simp)
      · exact ⟨c, List.mem_cons_of_mem _ hc, hck, hcb⟩
    · rw [List.mem_singleton.mp hk]
      exact ⟨a', List.mem_cons_self, hid, hbadge⟩

/-- Somebody goes, and is struck out if there was a badge. -/
theorem Matches.leave [DecidableEq K] (h : Matches id badge (a :: l) keys) :
    Matches id badge l (if badge a = none then keys else keys.eraseP (fun k => k.1 = id a)) := by
  have hids := List.nodup_cons.mp h.ids
  have hothers : ∀ c ∈ l, id c ≠ id a := by
    intro c hc he
    exact hids.1 (he ▸ List.mem_map_of_mem hc)
  split
  · next hnone =>
      refine ⟨hids.2, h.nodup, fun c hc => h.listed c (List.mem_cons_of_mem _ hc), fun k hk => ?_⟩
      obtain ⟨c, hc, hck, hcb⟩ := h.owned k hk
      rcases List.mem_cons.mp hc with rfl | hc
      · rw [hnone] at hcb
        exact absurd hcb (by simp)
      · exact ⟨c, hc, hck, hcb⟩
  · next hsome =>
      obtain ⟨b, hb⟩ := Option.ne_none_iff_exists'.mp hsome
      have hmem := h.listed a List.mem_cons_self b hb
      -- the first entry that is struck out is the only one
      have hgone : ∀ k ∈ keys.eraseP (fun k => k.1 = id a), k.1 ≠ id a := by
        intro k hk he
        obtain ⟨k', l₁, l₂, hnot, hk', heq, herase⟩ :=
          @List.exists_of_eraseP _ (fun k => decide (k.1 = id a)) _ _ hmem (by simp)
        have hnodup := h.nodup
        rw [heq, List.map_append, List.map_cons, List.nodup_middle, List.nodup_cons,
          List.mem_append, not_or] at hnodup
        have hk'id : k'.1 = id a := by simpa using hk'
        rw [herase] at hk
        rcases List.mem_append.mp hk with hk | hk
        · exact hnot k hk (by simpa using he)
        · exact hnodup.1.2 (List.mem_map.mpr ⟨k, hk, he.trans hk'id.symm⟩)
      refine ⟨hids.2, h.nodup.sublist (List.eraseP_sublist.map _), fun c hc b' hb' => ?_,
        fun k hk => ?_⟩
      · refine (List.mem_eraseP_of_neg ?_).mpr (h.listed c (List.mem_cons_of_mem _ hc) b' hb')
        simpa using hothers c hc
      · obtain ⟨c, hc, hck, hcb⟩ := h.owned k (List.eraseP_sublist.subset hk)
        rcases List.mem_cons.mp hc with rfl | hc
        · exact absurd hck.symm (hgone k hk)
        · exact ⟨c, hc, hck, hcb⟩

end Register
