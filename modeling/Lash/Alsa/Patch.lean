import Lash.Alsa.Manager

/-!
# ALSA patches with their subscriptions

`lashd/alsa_patch.c`, for what it does with a whole subscription. `snd_seq_port_subscribe_t` is
opaque, so a subscription is a value of an unknown type with the accessors that ALSA has for it
(`SubscribeApi`); what their documentation promises is `SubscribeApi.Lawful`. The manager's model
goes by the two addresses only (`SubPatch.addrs`).
-/

namespace Lash

/-! ## Subscriptions -/

/-- What the accessors say about a subscription; the numbers are C integers. -/
structure AlsaSubscription where
  sender : AlsaAddr
  dest : AlsaAddr
  queue : BitVec 32
  exclusive : BitVec 32
  timeUpdate : BitVec 32
  timeReal : BitVec 32
  deriving DecidableEq

/-- `snd_seq_port_subscribe_malloc`, and `snd_seq_port_subscribe_get_sender` and so on. -/
structure SubscribeApi (σ : Type) where
  malloc : σ
  get : σ → AlsaSubscription
  setSender : σ → AlsaAddr → σ
  setDest : σ → AlsaAddr → σ
  setQueue : σ → BitVec 32 → σ
  setExclusive : σ → BitVec 32 → σ
  setTimeUpdate : σ → BitVec 32 → σ
  setTimeReal : σ → BitVec 32 → σ

/-- Setting one thing changes nothing else. The addresses can be anything, and each number can be
what it is in some subscription. -/
structure SubscribeApi.Lawful {σ : Type} (api : SubscribeApi σ) : Prop where
  sender : ∀ s a, api.get (api.setSender s a) = { api.get s with sender := a }
  dest : ∀ s a, api.get (api.setDest s a) = { api.get s with dest := a }
  queue : ∀ s t, api.get (api.setQueue s (api.get t).queue)
    = { api.get s with queue := (api.get t).queue }
  exclusive : ∀ s t, api.get (api.setExclusive s (api.get t).exclusive)
    = { api.get s with exclusive := (api.get t).exclusive }
  timeUpdate : ∀ s t, api.get (api.setTimeUpdate s (api.get t).timeUpdate)
    = { api.get s with timeUpdate := (api.get t).timeUpdate }
  timeReal : ∀ s t, api.get (api.setTimeReal s (api.get t).timeReal)
    = { api.get s with timeReal := (api.get t).timeReal }

/-- A subscription as ALSA has it: the queue is an unsigned char, and the rest are flags. -/
structure PortSubscribe where
  sender : AlsaAddr
  dest : AlsaAddr
  queue : BitVec 8
  exclusive : Bool
  timeUpdate : Bool
  timeReal : Bool

/-- A flag as a C integer. -/
def flagInt (b : Bool) : BitVec 32 := if b then 1 else 0

/-- Its accessors. -/
def portSubscribeApi : SubscribeApi PortSubscribe where
  malloc := ⟨⟨0, 0⟩, ⟨0, 0⟩, 0, false, false, false⟩
  get s := ⟨s.sender, s.dest, s.queue.setWidth 32, flagInt s.exclusive, flagInt s.timeUpdate,
    flagInt s.timeReal⟩
  setSender s a := { s with sender := a }
  setDest s a := { s with dest := a }
  setQueue s q := { s with queue := q.setWidth 8 }
  setExclusive s n := { s with exclusive := n ≠ 0 }
  setTimeUpdate s n := { s with timeUpdate := n ≠ 0 }
  setTimeReal s n := { s with timeReal := n ≠ 0 }

theorem flagInt_ne_zero (b : Bool) : decide (flagInt b ≠ 0) = b := by
  cases b <;> decide

theorem portSubscribeApi_lawful : portSubscribeApi.Lawful where
  sender _ _ := rfl
  dest _ _ := rfl
  queue s t := by simp [portSubscribeApi]
  exclusive s t := congrArg (fun b => AlsaSubscription.mk _ _ _ (flagInt b) _ _) (flagInt_ne_zero _)
  timeUpdate s t := congrArg (fun b => AlsaSubscription.mk _ _ _ _ (flagInt b) _)
    (flagInt_ne_zero _)
  timeReal s t := congrArg (fun b => AlsaSubscription.mk _ _ _ _ _ (flagInt b)) (flagInt_ne_zero _)

/-! ## Patches -/

/-- `alsa_patch_t` -/
structure SubPatch (σ : Type) where
  sub : σ
  srcId : Uuid
  destId : Uuid

namespace SubPatch

variable {σ : Type} (api : SubscribeApi σ)

/-- `alsa_patch_new` -/
def new : SubPatch σ := { sub := api.malloc, srcId := 0, destId := 0 }

/-- `alsa_patch_compare`, whether it returns 0. -/
def compare (a b : SubPatch σ) : Bool :=
  if (api.get a.sub).sender ≠ (api.get b.sub).sender then false
  else if (api.get a.sub).dest ≠ (api.get b.sub).dest then false
  else if (api.get a.sub).queue ≠ (api.get b.sub).queue ∨
      (api.get a.sub).exclusive ≠ (api.get b.sub).exclusive ∨
      (api.get a.sub).timeUpdate ≠ (api.get b.sub).timeUpdate ∨
      (api.get a.sub).timeReal ≠ (api.get b.sub).timeReal then false
  else true

/-- The patch as the manager's model has it. -/
def addrs (patch : SubPatch σ) : AlsaPatch where
  sender := (api.get patch.sub).sender
  dest := (api.get patch.sub).dest
  srcId := patch.srcId
  destId := patch.destId

/-- Two patches compare equal if their ends and their attributes are the same. -/
theorem compare_eq (a b : SubPatch σ) :
    compare api a b = decide (api.get a.sub = api.get b.sub) := by
  unfold compare
  by_cases h : api.get a.sub = api.get b.sub
  · simp [h]
  · rw [decide_eq_false h]
    split_ifs with hsender hdest hrest
    · rfl
    · rfl
    · rfl
    · rw [not_not] at hsender hdest
      obtain ⟨hqueue, hexclusive, hupdate, hreal⟩ : _ ∧ _ ∧ _ ∧ _ := by
        simpa only [not_or, not_not] using hrest
      refine absurd ?_ h
      cases ha : api.get a.sub
      cases hb : api.get b.sub
      rw [ha, hb] at hsender hdest hqueue hexclusive hupdate hreal
      simp only [AlsaSubscription.mk.injEq]
      exact ⟨hsender, hdest, hqueue, hexclusive, hupdate, hreal⟩

end SubPatch

end Lash
