import Lash.Frames

/-!
# A move that fails

`project_move` looks at the target with `opendir`, writes and closes the stores of all clients,
and then calls `rename`. Here the outcomes of these calls are given beforehand, so that every
combination of them can be told apart; `projectMoveOn_disk` says that the move of the daemon is
the one with the outcomes that its disk gives.
-/

namespace Lash

/-- What the system calls of one move do. -/
structure MoveCalls where
  opendir : Opendir
  /-- `closedir(NULL)` returns. -/
  closedirNull : Bool
  /-- `rename` succeeds. -/
  renamed : Bool
  /-- The disk after `rename`. -/
  disk : Fs → Fs

/-- `project_move` from the closing of the stores on. -/
def MoveCalls.move (calls : MoveCalls) (s : Session) (newDir : CStr) : Session :=
  let (clients, fs) := closeStores s.g.fs s.p.clients
  let fs := calls.disk fs
  if ¬ calls.renamed then { s with p := { s.p with clients := clients } }.setFs fs
  else
    let p := { s.p with directory := newDir }
    let (clients, fs) := openStores p fs clients
    ({ s with p := { p with clients := clients } }.setFs fs).emit
      (.projectPathChanged s.p.addr s.p.name newDir)

/-- `project_move` where the system calls do this; `none` is a crash. -/
def projectMoveOn (calls : MoveCalls) (s : Session) (newDir : CStr) : Option Session :=
  if newDir = [] ∨ newDir = s.p.directory then some s
  else
    match calls.opendir with
    | .opened => some s
    -- `dir` is NULL here, and is closed all the same.
    | .notDir => if calls.closedirNull then some s else none
    | .missing | .failed => some (calls.move s newDir)

/-! ## The calls of the daemon -/

/-- The system calls of a move, on the disk of the session. -/
def Session.moveCalls (s : Session) (newDir : CStr) : MoveCalls where
  opendir := (s.g.fs.opendir newDir).1
  closedirNull := true
  renamed := ((closeStores s.g.fs.next s.p.clients).2.rename s.p.directory newDir).1
  disk fs := (fs.rename s.p.directory newDir).2

/-- On the disk of the daemon the move is the one of the model, where `closedir` takes NULL. -/
theorem projectMoveOn_disk (s : Session) {newDir : CStr}
    (h : ¬ (newDir = [] ∨ newDir = s.p.directory)) :
    projectMoveOn (s.moveCalls newDir) (s.setFs s.g.fs.next) newDir
      = some (projectMove s newDir) := by
  have hsame : ¬ (newDir = [] ∨ newDir = (s.setFs s.g.fs.next).p.directory) := h
  unfold projectMoveOn projectMove
  rw [if_neg hsame, if_neg h]
  have hopen : (s.moveCalls newDir).opendir = (s.g.fs.opendir newDir).1 := rfl
  have hnull : (s.moveCalls newDir).closedirNull = true := rfl
  have hnext : (s.g.fs.opendir newDir).2 = s.g.fs.next := rfl
  rw [hopen, hnull, if_pos rfl]
  rcases hfound : s.g.fs.opendir newDir with ⟨found, fs⟩
  rw [hfound] at hnext
  cases hnext
  cases found <;> rfl

/-! ## What a move leaves -/

/-- A client that had a store has one with the same directory, the same keys and the same values. -/
def Client.KeepsStore (fs fs' : Fs) (c c' : Client) : Prop :=
  ∀ st, c.store = some st → ∃ st', c'.store = some st' ∧ st'.dir = st.dir ∧ st'.keys = st.keys ∧
    ∀ key, storeGetConfig st' fs' key = storeGetConfig st fs key

/-- The project is where it was. Then the stores are as they were, and nothing was sent. -/
def Session.Unmoved (s s' : Session) : Prop :=
  s'.p.directory = s.p.directory →
    s'.g.log = s.g.log ∧ List.Forall₂ (Client.KeepsStore s.g.fs s'.g.fs) s.p.clients s'.p.clients

/-- A move goes well: the daemon does not crash, and a project that is not moved stays as it was. -/
def MovesOrStays (calls : MoveCalls) (s : Session) (newDir : CStr) : Prop :=
  ∃ s', projectMoveOn calls s newDir = some s' ∧ s.Unmoved s'

theorem Session.Unmoved.refl (s : Session) : s.Unmoved s := by
  intro _
  refine ⟨rfl, List.forall₂_same.mpr ?_⟩
  intro c _ st hst
  exact ⟨st, hst, rfl, rfl, fun _ => rfl⟩

theorem clientStoreClose_none (fs : Fs)
    (c : Client) : (clientStoreClose fs c).2.1.store = none := by
  unfold clientStoreClose
  cases hst : c.store with
  | none => exact hst
  | some st => rfl

/-- Without stores there is nothing to keep. -/
theorem closeStores_keeps_iff (fs fs₁ fs₂ : Fs) (l : List Client) :
    List.Forall₂ (Client.KeepsStore fs₁ fs₂) l (closeStores fs l).1 ↔ ∀ c ∈ l, c.store = none := by
  induction l generalizing fs with
  | nil => simp [closeStores]
  | cons c l ih =>
      rw [closeStores]
      dsimp only
      rw [List.forall₂_cons, ih, List.forall_mem_cons]
      refine and_congr_left' ?_
      constructor
      · intro hkeeps
        cases hst : c.store with
        | none => rfl
        | some st =>
            obtain ⟨st', hst', -⟩ := hkeeps st hst
            rw [clientStoreClose_none] at hst'
            exact absurd hst' (by simp)
      · intro hnone st hst
        rw [hnone] at hst
        exact absurd hst (by simp)

/-- A move can do harm in two ways: `closedir` does not take NULL and the target is no directory, or
`rename` fails after the stores are closed. -/
def MoveCalls.Harmless (calls : MoveCalls) (s : Session) (newDir : CStr) : Prop :=
  newDir = [] ∨ newDir = s.p.directory ∨
    match calls.opendir with
    | .opened => True
    | .notDir => calls.closedirNull = true
    | .missing | .failed => calls.renamed = true ∨ ∀ c ∈ s.p.clients, c.store = none

/-- A project whose target was accepted stays as it was if `rename` works, as then it is moved, or
if there was no store to close. -/
theorem MoveCalls.move_unmoved_iff (calls : MoveCalls) (s : Session) {newDir : CStr}
    (hne : newDir ≠ s.p.directory) :
    s.Unmoved (calls.move s newDir) ↔ calls.renamed = true ∨ ∀ c ∈ s.p.clients, c.store = none := by
  unfold MoveCalls.move
  dsimp only
  by_cases hok : calls.renamed = true
  · rw [if_neg (fun h => h hok)]
    exact iff_of_true (fun hdir => absurd hdir hne) (.inl hok)
  · rw [if_pos hok, or_iff_right hok, ← closeStores_keeps_iff s.g.fs s.g.fs
      (calls.disk (closeStores s.g.fs s.p.clients).2)]
    constructor
    · exact fun hstays => (hstays rfl).2
    · exact fun hkeeps _ => ⟨rfl, hkeeps⟩

/-- **A project that is not moved stays as it was** exactly if `closedir` takes NULL where it is
given it, and no `rename` fails while a client has a store. -/
theorem projectMoveOn_stays_iff (calls : MoveCalls) (s : Session) (newDir : CStr) :
    MovesOrStays calls s newDir ↔ calls.Harmless s newDir := by
  unfold MovesOrStays MoveCalls.Harmless projectMoveOn
  by_cases hsame : newDir = [] ∨ newDir = s.p.directory
  · rw [if_pos hsame, ← or_assoc]
    exact iff_of_true ⟨s, rfl, .refl s⟩ (.inl hsame)
  · rw [if_neg hsame, ← or_assoc, or_iff_right hsame]
    have hmoves := calls.move_unmoved_iff s (fun h => hsame (.inr h))
    cases calls.opendir with
    | opened => exact iff_of_true ⟨s, rfl, .refl s⟩ trivial
    | notDir =>
        dsimp only
        by_cases hnull : calls.closedirNull = true
        · rw [if_pos hnull]
          exact iff_of_true ⟨s, rfl, .refl s⟩ hnull
        · rw [if_neg hnull]
          exact iff_of_false (fun ⟨_, h, _⟩ => absurd h (by simp)) hnull
    | missing =>
        dsimp only
        rw [← hmoves]
        simp
    | failed =>
        dsimp only
        rw [← hmoves]
        simp

/-- A project in `/a` with a client that has a store with one key. -/
def storingSession : Session where
  g := { taskIter := 1, projectsDir := [], fs := { entries := [([cstr "a"], .dir)], faults := [] }
         forks := [], childs := [], nextAddr := 2, log := [] }
  p := { projectNew 0 with
    directory := cstr "/a"
    clients := [{ clientNew 1 with
      store := some { storeNew (cstr "/a/.id/1") with numKeys := 1, keys := [cstr "k"] } }] }

/-- There is no `/b` to move the project into: `rename` fails, and the client has no store any
more. -/
theorem projectMoveOn_loses_store :
    ¬ MovesOrStays (storingSession.moveCalls (cstr "/b/c")) storingSession (cstr "/b/c") := by
  rintro ⟨s', hs', hstays⟩
  have hdisk := @projectMoveOn_disk storingSession (cstr "/b/c") (by decide)
  rw [show storingSession.setFs storingSession.g.fs.next = storingSession from rfl] at hdisk
  rw [hdisk] at hs'
  cases Option.some.inj hs'
  have hdir : (projectMove storingSession (cstr "/b/c")).p.directory =
      storingSession.p.directory := by
    decide +kernel
  have hnone : (projectMove storingSession (cstr "/b/c")).p.clients.map Client.store = [none] := by
    decide +kernel
  obtain ⟨-, hkeeps⟩ := hstays hdir
  obtain ⟨c', l, hc', -, hl⟩ := List.forall₂_cons_left_iff.mp hkeeps
  obtain ⟨st', hst', -⟩ := hc' _ rfl
  rw [hl, List.map_cons, hst'] at hnone
  exact absurd hnone (by simp)

end Lash
