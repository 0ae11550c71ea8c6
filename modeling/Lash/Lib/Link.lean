import Mathlib.Data.Bool.Basic

/-!
# A link with two ends

Two parties each hold a copy of a link that is to be made between a point of the one and a point
of the other. A party comes when it likes, its point comes up when it likes, and it is told about
the point some time later. Being told, or coming when it has been told already, makes it try its
copy.

What may go wrong is that a party throws its copy away because the other one has not come. That is
harmless when its own point is up by then: the other party has a copy, and will try it later than
the point came up (`Inv.ready`).
-/

/-- Where a link with the ends `false` and `true` is. -/
structure Link where
  /-- The party has come. -/
  registered : Bool → Prop
  /-- The party has a copy of the link. -/
  copy : Bool → Prop
  /-- The point of the link at this end is up. -/
  there : Bool → Prop
  /-- The party's point has been reported. -/
  heard : Bool → Prop
  /-- The link has been made. -/
  made : Prop

namespace Link

variable {v w : Link}

/-- Parties, points, reports and the link stay, and at most one party comes. A party keeps its copy
unless the link is made, or the other party has not come and its own point is up; and when both have
come, the one that hears of its point, or has heard of it and comes now, makes the link if it has a
copy and the other point is up. -/
structure Step (v w : Link) : Prop where
  registered : ∀ x, v.registered x → w.registered x
  heard : ∀ x, w.heard x → w.there x
  made : v.made → w.made
  there : ∀ x, v.there x → w.there x
  one : ∀ x, w.registered x → w.registered (!x) → v.registered x ∨ v.registered (!x)
  keeps : ∀ x, w.registered x → (v.registered x → v.copy x) →
    w.copy x ∨ w.made ∨ (¬ v.registered (!x) ∧ w.there x)
  tries : ∀ x, w.registered x → w.registered (!x) → w.heard x → ¬ (v.registered x ∧ v.heard x) →
    (v.registered x → v.copy x) → w.there (!x) → w.made

/-- What holds at all times: a party that is alone has its copy or its point, and of two parties
that have come one still has an attempt before it, unless the link is made. -/
structure Inv (v : Link) : Prop where
  alone : ∀ x, v.registered x → ¬ v.registered (!x) → v.made ∨ v.copy x ∨ v.there x
  both : v.registered false → v.registered true → v.made ∨
    (v.copy false ∧ v.copy true ∧ ¬ (v.heard false ∧ v.heard true)) ∨
    ∃ x, v.copy x ∧ v.there (!x) ∧ ¬ v.heard x

/-- What holds at one end and at the other holds at both. -/
theorem forall_of_ends {P : Bool → Prop} (x : Bool) (hx : P x) (hy : P (!x)) : ∀ z, P z := by
  intro z
  by_cases hz : z = x
  · rwa [hz]
  · rwa [Bool.eq_not_of_ne hz]

/-- When nobody has come there is nothing to do. -/
theorem Inv.of_nobody (h : ∀ x, ¬ v.registered x) : v.Inv where
  alone x hx := absurd hx (h x)
  both hx := absurd hx (h false)

/-- When both parties have come and heard of their points, the link has been made. -/
theorem Inv.ready (h : v.Inv) (hregistered : ∀ x, v.registered x) (hheard : ∀ x, v.heard x) :
    v.made := by
  rcases h.both (hregistered false) (hregistered true) with hmade | ⟨-, -, hnot⟩ | ⟨x, -, -, hnot⟩
  · exact hmade
  · exact absurd ⟨hheard false, hheard true⟩ hnot
  · exact absurd (hheard x) hnot

/-- One party has come before, and the other one comes or came before too. -/
theorem Step.both (hstep : v.Step w) (h : v.Inv) (x : Bool) (hv : v.registered x)
    (hx : w.registered x) (hy : w.registered (!x)) :
    w.made ∨ (w.copy x ∧ w.copy (!x) ∧ ¬ (w.heard x ∧ w.heard (!x))) ∨
      ∃ z, w.copy z ∧ w.there (!z) ∧ ¬ w.heard z := by
  by_cases hmade : w.made
  · exact Or.inl hmade
  · right
    have hkeeps : ∀ z, w.registered z → (v.registered z → v.copy z) → v.registered (!z) →
        w.copy z := by
      intro z hz hcopy hother
      rcases hstep.keeps z hz hcopy with hw | hw | ⟨hnot, -⟩
      · exact hw
      · exact absurd hw hmade
      · exact absurd hother hnot
    have htries : ∀ z, w.registered z → w.registered (!z) → (v.registered z → v.copy z) →
        w.there (!z) → w.heard z → v.registered z ∧ v.heard z := by
      intro z hz hother hcopy hthere hheard
      apply Classical.byContradiction
      intro hnew
      exact hmade (hstep.tries z hz hother hheard hnew hcopy hthere)
    by_cases hvy : v.registered (!x)
    · -- both were there before
      have hinv : (v.copy x ∧ v.copy (!x) ∧ ¬ (v.heard x ∧ v.heard (!x))) ∨
          ∃ z, v.copy z ∧ v.there (!z) ∧ ¬ v.heard z := by
        have hvmade : ¬ v.made := fun hm => hmade (hstep.made hm)
        cases x with
        | false => exact (h.both hv hvy).resolve_left hvmade
        | true =>
            rcases (h.both hvy hv).resolve_left hvmade with ⟨hc, hc', hnot⟩ | hz
            · exact Or.inl ⟨hc', hc, fun hh => hnot ⟨hh.2, hh.1⟩⟩
            · exact Or.inr hz
      rcases hinv with ⟨hcx, hcy, hnot⟩ | ⟨z, hcz, hthere, hnot⟩
      · refine Or.inl ⟨hkeeps x hx (fun _ => hcx) hvy, hkeeps (!x) hy (fun _ => hcy) ?_, ?_⟩
        · rwa [Bool.not_not]
        · rintro ⟨hhx, hhy⟩
          apply hnot
          constructor
          · exact (htries x hx hy (fun _ => hcx) (hstep.heard _ hhy) hhx).2
          · refine (htries (!x) hy ?_ (fun _ => hcy) ?_ hhy).2
            · rwa [Bool.not_not]
            · rw [Bool.not_not]
              exact hstep.heard _ hhx
      · have hregistered : ∀ z, v.registered z := forall_of_ends x hv hvy
        refine Or.inr
          ⟨z, hkeeps z (hstep.registered _ (hregistered z)) (fun _ => hcz) (hregistered _),
          hstep.there _ hthere, ?_⟩
        intro hheard
        exact hnot
          (htries z (hstep.registered _ (hregistered z)) (hstep.registered _ (hregistered _))
          (fun _ => hcz) (hstep.there _ hthere) hheard).2
    · -- the other one comes now, with its copy
      have hcy : w.copy (!x) := by
        refine hkeeps (!x) hy (fun hvy' => absurd hvy' hvy) ?_
        rwa [Bool.not_not]
      have hty : w.there x → ¬ w.heard (!x) := by
        intro hthere hheard
        refine hvy (htries (!x) hy ?_ (fun hvy' => absurd hvy' hvy) ?_ hheard).1
        · rwa [Bool.not_not]
        · rwa [Bool.not_not]
      have hthere : ¬ v.copy x → w.there x := by
        intro hcx
        rcases h.alone x hv hvy with hm | hc | ht
        · exact absurd (hstep.made hm) hmade
        · exact absurd hc hcx
        · exact hstep.there x ht
      by_cases hwt : w.there x
      · refine Or.inr ⟨!x, hcy, ?_, hty hwt⟩
        rwa [Bool.not_not]
      · have hcx : v.copy x := by
          apply Classical.byContradiction
          intro hcx
          exact hwt (hthere hcx)
        refine Or.inl ⟨?_, hcy, ?_⟩
        · rcases hstep.keeps x hx (fun _ => hcx) with hw | hw | ⟨-, ht⟩
          · exact hw
          · exact absurd hw hmade
          · exact absurd ht hwt
        · rintro ⟨hhx, -⟩
          exact hwt (hstep.heard x hhx)

/-- **A step keeps the invariant.** -/
theorem Step.inv (hstep : v.Step w) (h : v.Inv) : w.Inv where
  alone x hx hy := by
    by_cases hv : v.registered x
    · have hvy : ¬ v.registered (!x) := fun hvy => hy (hstep.registered _ hvy)
      rcases h.alone x hv hvy with hm | hc | ht
      · exact Or.inl (hstep.made hm)
      · rcases hstep.keeps x hx (fun _ => hc) with hw | hw | ⟨-, ht⟩
        · exact Or.inr (Or.inl hw)
        · exact Or.inl hw
        · exact Or.inr (Or.inr ht)
      · exact Or.inr (Or.inr (hstep.there x ht))
    · rcases hstep.keeps x hx (fun hv' => absurd hv' hv) with hw | hw | ⟨-, ht⟩
      · exact Or.inr (Or.inl hw)
      · exact Or.inl hw
      · exact Or.inr (Or.inr ht)
  both hx hy := by
    rcases hstep.one false hx hy with hv | hv
    · exact hstep.both h false hv hx hy
    · rcases hstep.both h true hv hy hx with hm | ⟨hc, hc', hnot⟩ | hz
      · exact Or.inl hm
      · exact Or.inr (Or.inl ⟨hc', hc, fun hh => hnot ⟨hh.2, hh.1⟩⟩)
      · exact Or.inr (Or.inr hz)

/-- Nobody comes, no copy is lost, and nobody that has come hears of a point. -/
theorem Step.quiet (hregistered : ∀ x, w.registered x ↔ v.registered x)
    (hcopy : ∀ x, v.copy x → w.copy x) (hheard : ∀ x, w.registered x → w.heard x → v.heard x)
    (hpoints : ∀ x, w.heard x → w.there x) (hmade : v.made → w.made)
    (hthere : ∀ x, v.there x → w.there x) : v.Step w where
  registered x hx := (hregistered x).mpr hx
  heard := hpoints
  made := hmade
  there := hthere
  one x hx _ := Or.inl ((hregistered x).mp hx)
  keeps x hx hc := Or.inl (hcopy x (hc ((hregistered x).mp hx)))
  tries x hx _ hh hnew := absurd ⟨(hregistered x).mp hx, hheard x hx hh⟩ hnew

end Link
