import Mathlib.Logic.Relation

/-!
# Runs of a step function

A system is a function `step : σ → ι → Option σ`: its state and an input give the next state, or
`none` when the system dies of the input. `Reach step ok s` are the states it gets to from `s` on
inputs that `ok` admits where they arrive; `Reach.invariant` is the induction over a run, and
`exec` runs a concrete list of inputs, as long as they are admitted.

`Since` is for what has to happen once a condition holds: it takes a run apart at the moment the
condition became true for the last time. `Throughout` says something of every step of one run.
-/

namespace Runs

variable {σ ι : Type*} (step : σ → ι → Option σ) (ok : σ → ι → Prop)

/-- The states reached from `s` on admitted inputs. -/
inductive Reach (s : σ) : σ → Prop
  | refl : Reach s s
  | tail {t i u} : Reach s t → ok t i → step t i = some u → Reach s u

/-- The runs from `s` to a state in which a condition holds, cut at the moment it became true for
the last time: the first state named is the one before that moment. -/
inductive Since (s : σ) (P : σ → Prop) : σ → σ → Prop
  | turn {t i u} : Reach step ok s t → ¬ P t → ok t i → step t i = some u → P u → Since s P t u
  | stay {t u i v} : Since s P t u → ok u i → step u i = some v → P v → Since s P t v

/-- Every step of the run on a list of inputs has a property. -/
def Throughout (P : σ → ι → σ → Prop) (s : σ) : List ι → Prop
  | [] => True
  | i :: is => ∀ t, step s i = some t → P s i t ∧ Throughout P t is

/-- The state after a list of inputs, if the system survives them and each is admitted. -/
def exec [∀ s i, Decidable (ok s i)] (s : σ) : List ι → Option σ
  | [] => some s
  | i :: is => if ok s i then (step s i).bind (fun t => exec t is) else none

variable {step ok} {s t u : σ}

/-- What holds at the start and is kept by every admitted step holds in every state reached. -/
theorem Reach.invariant {I : σ → Prop} (h₀ : I s)
    (hstep : ∀ t i u, Reach step ok s t → I t → ok t i → step t i = some u → I u)
    (h : Reach step ok s t) : I t := by
  induction h with
  | refl => exact h₀
  | tail hr ho hs ih => exact hstep _ _ _ hr ih ho hs

theorem Reach.trans (h : Reach step ok s t) (h' : Reach step ok t u) : Reach step ok s u := by
  induction h' with
  | refl => exact h
  | tail _ ho hs ih => exact .tail ih ho hs

/-- A run whose steps satisfy a condition is a run for every weaker one. -/
theorem Reach.mono {ok' : σ → ι → Prop} (hok : ∀ t i, ok t i → ok' t i)
    (h : Reach step ok s t) : Reach step ok' s t := by
  induction h with
  | refl => exact .refl
  | tail _ ho hs ih => exact .tail ih (hok _ _ ho) hs

/-- A part of a system that rests or takes a step of its own is in a state of its own runs. -/
theorem Reach.map {τ κ : Type*} {step' : τ → κ → Option τ} {ok' : τ → κ → Prop} (f : σ → τ)
    (hstep : ∀ t i u, ok t i → step t i = some u →
      f u = f t ∨ ∃ k, ok' (f t) k ∧ step' (f t) k = some (f u))
    (h : Reach step ok s t) : Reach step' ok' (f s) (f t) := by
  induction h with
  | refl => exact .refl
  | tail _ hok hs ih =>
      rcases hstep _ _ _ hok hs with he | ⟨k, hk, hk'⟩
      · rw [he]
        exact ih
      · exact ih.tail hk hk'

/-- Running a list of inputs reaches a state. -/
theorem Reach.of_exec [∀ s i, Decidable (ok s i)] {is : List ι} (h : exec step ok s is = some t) :
    Reach step ok s t := by
  induction is generalizing s with
  | nil =>
      rw [exec, Option.some.injEq] at h
      subst h
      exact .refl
  | cons i is ih =>
      rw [exec] at h
      split at h
      · next hok =>
          obtain ⟨u, hu, hrest⟩ := Option.bind_eq_some_iff.mp h
          exact (Reach.tail .refl hok hu).trans (ih hrest)
      · exact absurd h (by simp)

/-- What a concrete run shows holds in a state that is reached. -/
theorem Reach.exists_of_exec [∀ s i, Decidable (ok s i)] {is : List ι} {q : σ → Bool}
    (h : (exec step ok s is).any q = true) : ∃ t, Reach step ok s t ∧ q t = true := by
  obtain ⟨t, ht, hq⟩ := (Option.any_eq_true _ _).mp h
  exact ⟨t, .of_exec ht, hq⟩

/-- A condition that does not hold at the start became true at some moment. -/
theorem Reach.since {P : σ → Prop} (h : Reach step ok s t) (h₀ : ¬ P s) (ht : P t) :
    ∃ u, Since step ok s P u t := by
  induction h with
  | refl => exact absurd ht h₀
  | @tail u i v hr ho hs ih =>
      by_cases hu : P u
      · obtain ⟨w, hw⟩ := ih hu
        exact ⟨w, hw.stay ho hs ht⟩
      · exact ⟨u, .turn hr hu ho hs ht⟩

theorem Since.reach {P : σ → Prop} (h : Since step ok s P t u) : Reach step ok s u := by
  induction h with
  | turn hr _ ho hs _ => exact hr.tail ho hs
  | stay _ ho hs _ ih => exact ih.tail ho hs

theorem Since.holds {P : σ → Prop} (h : Since step ok s P t u) : P u := by
  cases h with
  | turn _ _ _ _ hp => exact hp
  | stay _ _ _ hp => exact hp

/-- What every step that makes the condition true brings about, and every step after it keeps, has
come about. -/
theorem Since.invariant {P : σ → Prop} {Q : σ → σ → Prop}
    (hturn : ∀ t i u, Reach step ok s t → ¬ P t → ok t i → step t i = some u → P u → Q t u)
    (hstay : ∀ t u i v, Reach step ok s u → P u → Q t u → ok u i → step u i = some v → P v → Q t v)
    (h : Since step ok s P t u) : Q t u := by
  induction h with
  | turn hr hnot ho hs hp => exact hturn _ _ _ hr hnot ho hs hp
  | stay hsince ho hs hp ih => exact hstay _ _ _ _ hsince.reach hsince.holds ih ho hs hp

/-- Two properties that the steps of a system have together hold throughout the same runs. What they
have them together under may rest on the steps before. -/
theorem throughout_congr {P Q : σ → ι → σ → Prop} {I : σ → Prop}
    (hstep : ∀ t i u, I t → step t i = some u → P t i u → I u)
    (hiff : ∀ t i u, I t → step t i = some u → (P t i u ↔ Q t i u)) (h₀ : I s) (is : List ι) :
    Throughout step P s is ↔ Throughout step Q s is := by
  induction is generalizing s with
  | nil => exact Iff.rfl
  | cons i is ih =>
      unfold Throughout
      refine forall_congr' fun t => forall_congr' fun ht => ?_
      have hpq := hiff s i t h₀ ht
      constructor
      · rintro ⟨hp, hrest⟩
        exact ⟨hpq.mp hp, (ih (hstep s i t h₀ ht hp)).mp hrest⟩
      · rintro ⟨hq, hrest⟩
        exact ⟨hpq.mpr hq, (ih (hstep s i t h₀ ht (hpq.mpr hq))).mpr hrest⟩

/-- What holds throughout a run holds of its last step. -/
theorem Throughout.last {P : σ → ι → σ → Prop} {is : List ι} {i : ι}
    (h : Throughout step P s (is ++ [i])) (ht : is.foldlM step s = some t)
    (hu : step t i = some u) :
    P t i u := by
  induction is generalizing s with
  | nil =>
      rw [List.foldlM_nil] at ht
      cases Option.some.inj ht
      exact (h u hu).1
  | cons j is ih =>
      rw [List.foldlM_cons] at ht
      obtain ⟨v, hv, hrest⟩ := Option.bind_eq_some_iff.mp ht
      exact ih (h v hv).2 hrest

/-- A fold that may fail is a run: what holds at the start and is kept by every element holds at the
end. -/
theorem foldlM_invariant {I : σ → Prop} {is : List ι} (h₀ : I s)
    (hstep : ∀ t i u, i ∈ is → I t → step t i = some u → I u) (h : is.foldlM step s = some t) :
    I t := by
  induction is generalizing s with
  | nil =>
      rw [List.foldlM_nil] at h
      rw [← Option.some.inj h]
      exact h₀
  | cons i is ih =>
      rw [List.foldlM_cons] at h
      obtain ⟨u, hu, hrest⟩ := Option.bind_eq_some_iff.mp h
      exact ih (hstep s i u (by simp) h₀ hu)
        (fun t j v hj => hstep t j v (List.mem_cons_of_mem _ hj))
        hrest

end Runs
