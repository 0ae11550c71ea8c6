import Lash.Jack.Manager

/-!
# Looking up an old patch

`jack_patch_find_by_description` compares a patch with a connection end by end: by id where the
JACK client of the connection is bound, by name where it is not. A patch has one of the two at
each end, and where the connection wants the other one the ids are told apart but the names are
not: the name that is not there is compared all the same. `delOldPatch_exact_iff` says when that
happens.
-/

namespace Lash

/-- A patch as `jack_patch_new_with_all` makes it: at each end an id or a name, and not both. -/
structure JackPatch.WellFormed (patch : JackPatch) : Prop where
  src : patch.srcClient = none ↔ patch.srcClientId ≠ 0
  dest : patch.destClient = none ↔ patch.destClientId ≠ 0

/-- An end of a patch is the end of a connection whose client is bound under an id, or else has a
name. -/
def sameEnd (client : Option CStr) (id : Uuid) (uuid : Option Uuid) (name : CStr) : Bool :=
  match uuid with
  | some u => client = none && id = u
  | none => client = some name

namespace JackPatch

variable {patch : JackPatch} {srcUuid destUuid : Option Uuid} {g : GraphPatch}

/-- The ports of a patch are those of a connection. -/
def samePorts (patch : JackPatch) (g : GraphPatch) : Bool :=
  patch.srcPort = g.srcPort && patch.destPort = g.destPort

/-- A patch is a connection between clients that are bound under these ids, if any. -/
def same (srcUuid destUuid : Option Uuid) (g : GraphPatch) (patch : JackPatch) : Bool :=
  patch.samePorts g && sameEnd patch.srcClient patch.srcClientId srcUuid g.srcName
    && sameEnd patch.destClient patch.destClientId destUuid g.destName

/-- No missing name is compared: where the client of the connection is not bound the patch has a
name, unless the comparison ends before that. -/
def Comparable (srcUuid destUuid : Option Uuid) (g : GraphPatch) (patch : JackPatch) : Prop :=
  patch.samePorts g = true →
    (srcUuid = none → patch.srcClient ≠ none) ∧
    (sameEnd patch.srcClient patch.srcClientId srcUuid g.srcName = true →
      destUuid = none → patch.destClient ≠ none)

/-- One end is compared. -/
theorem endMatches_eq {client : Option CStr} {id : Uuid} {uuid : Option Uuid} {name : CStr}
    (hwf : client = none ↔ id ≠ 0) :
    endMatches client id uuid name =
      if uuid = none ∧ client = none then none else some (sameEnd client id uuid name) := by
  unfold endMatches sameEnd
  cases uuid with
  | some u =>
      have hu : decide (u = id) = decide (id = u) := decide_eq_decide.mpr eq_comm
      by_cases hid : id = 0
      · have hname : client ≠ none := fun hc => (hwf.mp hc) hid
        simp [hid, hname]
      · have hname : client = none := hwf.mpr hid
        rw [if_neg (fun h => absurd h.1 (by simp)), hname]
        show some (decide (id ≠ 0) && decide (u = id)) = some (true && decide (id = u))
        rw [decide_eq_true hid, hu]
  | none =>
      cases client with
      | none => simp
      | some n => simp

/-- One patch is compared. -/
theorem fits_eq_some_iff (hwf : patch.WellFormed) {b : Bool} :
    patch.fits srcUuid destUuid g = some b ↔
      patch.Comparable srcUuid destUuid g ∧ b = patch.same srcUuid destUuid g := by
  unfold fits Comparable same
  have hports : (patch.srcPort ≠ g.srcPort ∨ patch.destPort ≠ g.destPort) ↔
      ¬ patch.samePorts g = true := by
    unfold samePorts
    rw [Bool.and_eq_true, decide_eq_true_iff, decide_eq_true_iff, not_and_or]
  by_cases hp : patch.samePorts g = true
  · rw [if_neg (fun h => hports.mp h hp), hp, endMatches_eq hwf.src, endMatches_eq hwf.dest]
    by_cases hsrc : srcUuid = none ∧ patch.srcClient = none
    · rw [if_pos hsrc]
      constructor
      · exact fun h => absurd h (by simp)
      · exact fun h => absurd hsrc.2 ((h.1 rfl).1 hsrc.1)
    · rw [if_neg hsrc]
      have hsrc' : srcUuid = none → patch.srcClient ≠ none := fun h h' => hsrc ⟨h, h'⟩
      cases sameEnd patch.srcClient patch.srcClientId srcUuid g.srcName with
      | false =>
          constructor
          · exact fun h =>
              ⟨fun _ => ⟨hsrc', fun hf => absurd hf (by simp)⟩, (Option.some.inj h).symm⟩
          · exact fun h => congrArg some h.2.symm
      | true =>
          by_cases hdest : destUuid = none ∧ patch.destClient = none
          · rw [if_pos hdest]
            constructor
            · exact fun h => absurd h (by simp)
            · exact fun h => absurd hdest.2 ((h.1 rfl).2 rfl hdest.1)
          · rw [if_neg hdest]
            have hdest' : destUuid = none → patch.destClient ≠ none := fun h h' => hdest ⟨h, h'⟩
            constructor
            · exact fun h => ⟨fun _ => ⟨hsrc', fun _ => hdest'⟩, (Option.some.inj h).symm⟩
            · exact fun h => congrArg some h.2.symm
  · rw [if_pos (hports.mpr hp)]
    constructor
    · exact fun h => ⟨fun hf => absurd hf hp, by simpa [hp] using (Option.some.inj h).symm⟩
    · exact fun h => by simp [h.2, hp]

/-- A patch that is the connection can be compared. -/
theorem comparable_of_same (h : patch.same srcUuid destUuid g = true) :
    patch.Comparable srcUuid destUuid g := by
  unfold same at h
  rw [Bool.and_eq_true, Bool.and_eq_true] at h
  obtain ⟨⟨-, hsrc⟩, hdest⟩ := h
  intro _
  constructor
  · rintro rfl hnone
    simp [sameEnd, hnone] at hsrc
  · rintro - rfl hnone
    simp [sameEnd, hnone] at hdest

end JackPatch

variable {srcUuid destUuid : Option Uuid} {g : GraphPatch} {l : List JackPatch}

/-- The first patch that is the connection is taken out, if every patch ahead of it can be
compared. -/
theorem delFitting_eq_iff (hwf : ∀ patch ∈ l, patch.WellFormed) :
    delFitting srcUuid destUuid g l = some (l.eraseP (JackPatch.same srcUuid destUuid g)) ↔
      ∀ patch ∈ l.takeWhile (fun patch => !patch.same srcUuid destUuid g),
        patch.Comparable srcUuid destUuid g := by
  induction l with
  | nil => simp [delFitting]
  | cons patch l ih =>
      have hpatch : patch.WellFormed := hwf patch (by simp)
      have ih := ih (fun q hq => hwf q (List.mem_cons_of_mem _ hq))
      rw [delFitting]
      by_cases hsame : patch.same srcUuid destUuid g = true
      · have hfits : patch.fits srcUuid destUuid g = some true :=
          (JackPatch.fits_eq_some_iff hpatch).mpr ⟨JackPatch.comparable_of_same hsame, hsame.symm⟩
        rw [hfits, List.eraseP_cons_of_pos hsame, List.takeWhile_cons_of_neg (by simp [hsame])]
        simp
      · have hfalse : patch.same srcUuid destUuid g = false := Bool.eq_false_iff.mpr hsame
        rw [List.eraseP_cons_of_neg hsame, List.takeWhile_cons_of_pos (by simp [hfalse]),
          List.forall_mem_cons]
        by_cases hcomp : patch.Comparable srcUuid destUuid g
        · have hfits : patch.fits srcUuid destUuid g = some false :=
            (JackPatch.fits_eq_some_iff hpatch).mpr ⟨hcomp, hfalse.symm⟩
          rw [hfits, ← ih]
          dsimp only
          cases delFitting srcUuid destUuid g l with
          | none => simp
          | some l' => simp [hcomp]
        · have hfits : patch.fits srcUuid destUuid g = none := by
            cases hf : patch.fits srcUuid destUuid g with
            | none => rfl
            | some b => exact absurd ((JackPatch.fits_eq_some_iff hpatch).mp hf).1 hcomp
          rw [hfits]
          simp [hcomp]

/-- What `lashd_jackdbus_mgr_del_old_patch` should do to a client: no missing name is compared, and
the first old patch that is the connection is removed, if there is one, and nothing else. -/
def DelExact (clients : List JackMgrClient) (c : JackMgrClient) (g : GraphPatch) : Prop :=
  delOldPatch clients c g = some { c with
    oldPatches := c.oldPatches.eraseP
      (JackPatch.same (patchUuid clients c g.srcId) (patchUuid clients c g.destId) g) }

/-- **The old patch of a connection is found and removed** exactly if every patch ahead of it can be
compared. -/
theorem delOldPatch_exact_iff (clients : List JackMgrClient) {c : JackMgrClient} {g : GraphPatch}
    (hwf : ∀ patch ∈ c.oldPatches, patch.WellFormed) (htouches : g.touches c = true) :
    DelExact clients c g ↔
      ∀ patch ∈ c.oldPatches.takeWhile (fun patch =>
          !patch.same (patchUuid clients c g.srcId) (patchUuid clients c g.destId) g),
        patch.Comparable (patchUuid clients c g.srcId) (patchUuid clients c g.destId) g := by
  rw [← delFitting_eq_iff hwf]
  unfold DelExact delOldPatch
  rw [if_pos htouches]
  cases delFitting (patchUuid clients c g.srcId) (patchUuid clients c g.destId) g c.oldPatches with
  | none => simp
  | some l =>
      rw [Option.map_some, Option.some.injEq, Option.some.injEq]
      exact ⟨congrArg JackMgrClient.oldPatches, fun h => by rw [h]⟩

/-- A client with the id 1 and the JACK id 10. -/
def boundClient (oldPatches : List JackPatch) : JackMgrClient where
  name := cstr "synth"
  id := 1
  oldPatches := oldPatches
  backupPatches := []
  jackdbusId := 10
  pid := 5
  freed := false

/-- A connection of this client to a port of a client that is not bound. -/
def toSystem : GraphPatch where
  srcId := 10
  srcName := cstr "synth"
  srcPort := cstr "out"
  destId := 11
  destName := cstr "system"
  destPort := cstr "in"

/-- The client has a patch to a LASH client, and its port is connected to a port of the same name of
another client. -/
theorem delOldPatch_not_exact :
    (∀ patch ∈ [jackPatchNewWithAll (some 1) (some 2) [] [] (cstr "out") (cstr "in")],
      patch.WellFormed) ∧
    ¬ DelExact [boundClient []]
      (boundClient [jackPatchNewWithAll (some 1) (some 2) [] [] (cstr "out") (cstr "in")])
      toSystem := by
  constructor
  · intro patch hp
    rw [List.mem_singleton.mp hp]
    exact ⟨by decide, by decide⟩
  · intro hexact
    have hnone : delOldPatch [boundClient []] (boundClient
        [jackPatchNewWithAll (some 1) (some 2) [] [] (cstr "out") (cstr "in")]) toSystem =
        none := by
      decide +kernel
    rw [DelExact, hnone] at hexact
    exact absurd hexact (by simp)

/-- The patch of the connection stands behind one with other ports. -/
theorem delOldPatch_exact_second :
    DelExact [boundClient []]
        (boundClient [jackPatchNewWithAll (some 1) (some 2) [] [] (cstr "out") (cstr "in 2"),
          jackPatchNewWithAll (some 1) none [] (cstr "system") (cstr "out") (cstr "in")]) toSystem ↔
      ∀ patch ∈ [jackPatchNewWithAll (some 1) (some 2) [] [] (cstr "out") (cstr "in 2"),
          jackPatchNewWithAll (some 1) none [] (cstr "system") (cstr "out") (cstr "in")].takeWhile
            (fun patch => !patch.same (some 1) none toSystem),
        patch.Comparable (some 1) none toSystem := by
  refine delOldPatch_exact_iff [boundClient []] ?_ (by decide)
  intro patch hp
  rcases List.mem_cons.mp hp with rfl | hp
  · exact ⟨by decide, by decide⟩
  · rw [List.mem_singleton.mp hp]
    exact ⟨by decide, by decide⟩

end Lash
