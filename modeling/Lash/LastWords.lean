import Lash.Loader
import Lash.Lib.Runs

/-!
# The last words of the children

A child that terminates should be noticed, and what it said last should be logged. The handler
looks for the pid, which `loader_execute` stores after the fork, and sets the flag that stops the
main thread from reading; so it depends on the moment (`Careful`). `children_noticed` says that a
run of careful steps loses no child and no line, and `last_words_lost` is what else may happen.
-/

namespace Lash

namespace Loader

open Buffer Lines

/-! ## Outputs -/

/-- What has been read is logged, up to what stands in the buffer, and the rest has no NUL. -/
structure Pipe.Sound (pipe : Pipe) : Prop where
  ends : 0 ∉ pipe.unread
  read : ∃ received, pipe.written = received ++ pipe.unread ∧
    pipe.notes = Repeat.none.allNotes (cut newline maxLine [] received).1 ∧
    pipe.output.Holds (cut newline maxLine [] received).2
      (Repeat.none.nextAll (cut newline maxLine [] received).1)

/-- Every complete line has been logged: no newline is in what was not read, and of what was read
everything is logged that `Repeat` says, with the last count. -/
def Pipe.Told (pipe : Pipe) : Prop :=
  ∃ received rest, pipe.written = received ++ rest ∧ newline ∉ rest ∧
    pipe.notes = Repeat.none.allNotes (cut newline maxLine [] received).1 ++
      loaderCheckLineRepeatEnd (Repeat.none.nextAll (cut newline maxLine [] received).1).count

/-- A read gets all that there is, or as much as it asks for. -/
def Pipe.GivesAll (pipe : Pipe) (grant : Option Nat) : Prop :=
  pipe.unread = [] ∨ ∃ n ∈ grant, pipe.unread.length ≤ n

namespace Pipe

variable {pipe next : Pipe} {again : Bool} {grant : Option Nat} {bytes : List UInt8}

theorem sound_new : new.Sound := ⟨List.not_mem_nil, [], rfl, rfl, ChildOutput.holds_new⟩

theorem Sound.write (h : pipe.Sound) (hz : 0 ∉ bytes) :
    Sound { pipe with unread := pipe.unread ++ bytes, written := pipe.written ++ bytes } := by
  obtain ⟨received, hwritten, hnotes, hholds⟩ := h.read
  refine ⟨?_, received, ?_, hnotes, hholds⟩
  · intro hmem
    exact (List.mem_append.mp hmem).elim h.ends hz
  · rw [hwritten, List.append_assoc]

/-- A round works, and logs what it reads. -/
theorem Sound.readOnce (h : pipe.Sound) (hr : pipe.readOnce grant = .ok (next, again)) :
    next.Sound ∧ ∃ taken, pipe.unread = taken ++ next.unread := by
  obtain ⟨received, hwritten, hnotes, hholds⟩ := h.read
  obtain ⟨hbytes, hmax, hret⟩ :=
    (ReadEnd.mk pipe.unread (fun _ => grant)).read_spec pipe.output.maxRead
  unfold Pipe.readOnce at hr
  dsimp only [bind, Except.bind] at hr
  generalize (ReadEnd.mk pipe.unread (fun _ => grant)).read pipe.output.maxRead = a at *
  dsimp only at hbytes
  have hz := h.ends
  rw [hbytes] at hz
  have htaken : 0 ∉ a.bytes := fun hmem => hz (List.mem_append_left _ hmem)
  obtain ⟨o, hreceive, ho⟩ := hholds.receive hret htaken hmax
  rw [hreceive] at hr
  obtain ⟨rfl, -⟩ := Prod.mk.inj (Except.ok.inj hr)
  refine ⟨⟨fun hmem => hz (List.mem_append_right _ hmem), received ++ a.bytes, ?_, ?_, ?_⟩,
    a.bytes, hbytes⟩
  · rw [hwritten, hbytes, List.append_assoc]
  · rw [cut_append, Repeat.allNotes_append, ← hnotes]
  · rw [cut_append, Repeat.nextAll_append]
    exact ho

/-- The last round of a call leaves nothing, if its read gets all that there is. -/
theorem Sound.readOnce_last (h : pipe.Sound) (hr : pipe.readOnce grant = .ok (next, false))
    (hall : pipe.GivesAll grant) : next.unread = [] := by
  obtain ⟨-, taken, htaken⟩ := h.readOnce hr
  rcases hall with hnil | ⟨n, hn, hlen⟩
  · rw [hnil] at htaken
    exact (List.append_eq_nil_iff.mp htaken.symm).2
  · obtain ⟨received, -, -, hholds⟩ := h.read
    have hroom := hholds.maxRead
    have hsucc := maxLine_succ
    rw [clientOutputBufferSize] at hsucc
    rw [Option.mem_def.mp hn] at hr
    unfold Pipe.readOnce at hr
    dsimp only [bind, Except.bind, ReadEnd.read] at hr
    split at hr
    · exact absurd hr (by simp)
    · obtain ⟨rfl, hagain⟩ := Prod.mk.inj (Except.ok.inj hr)
      rw [decide_eq_false_iff_not, List.length_take] at hagain
      rw [toSize_natCast (by omega)] at hagain
      rw [List.length_take]
      apply List.drop_eq_nil_of_le
      omega

/-- When a child is buried, a line of which nothing is left unread is told. -/
theorem Sound.told (h : pipe.Sound) (hnl : newline ∉ pipe.unread) : pipe.close.Told := by
  obtain ⟨received, hwritten, hnotes, hholds⟩ := h.read
  refine ⟨received, pipe.unread, hwritten, hnl, ?_⟩
  rw [← hholds.remembers.count, ← hnotes]
  rfl

/-- If a newline was written last, everything has been logged. -/
theorem Told.all (h : pipe.Told) (hlast : pipe.written = bytes ++ [newline]) :
    pipe.notes = Repeat.none.allNotes (cut newline maxLine [] pipe.written).1 ++
      loaderCheckLineRepeatEnd
        (Repeat.none.nextAll (cut newline maxLine [] pipe.written).1).count := by
  obtain ⟨received, rest, hwritten, hrest, hnotes⟩ := h
  rcases List.eq_nil_or_concat rest with rfl | ⟨most, b, rfl⟩
  · rw [hwritten, List.append_nil]
    exact hnotes
  · -- the newline would be in the rest
    rw [List.concat_eq_append] at hwritten hrest
    have hb : b = newline := by
      have heq := congrArg List.getLast? (hlast.symm.trans hwritten)
      simpa using heq.symm
    exact absurd (List.mem_append_right _ (List.mem_singleton.mpr hb.symm)) hrest

end Pipe

/-! ## What a step does -/

/-- The next thing is a read of the output of the entry, or reads of the one before it and of it. -/
def Stage.aboutToRead : Stage → Nat → Bool → Bool
  | .reading k e _, key, error => k = key && (!e || error)
  | _, _, _ => false

/-- `loader_execute` is making the entry. -/
def Stage.makes : Stage → Nat → Prop
  | .forking k, key => k = key
  | .storing k _, key => k = key
  | _, _ => False

/-- What the steps do to a state. -/
inductive Move (s : State) : Act → State → Prop
  | execute {id project argv0 terminal} (hs : s.stage = .idle) :
      Move s (.execute id project argv0 terminal) { s with
        entries := s.entries ++ [{
          key := s.nextKey
          child := { id, project, argv0, dead := false, pid := 0, terminal }
          pipe := fun _ => .new }]
        stage := .forking s.nextKey
        nextKey := s.nextKey + 1 }
  | forkFails {key} (hs : s.stage = .forking key) : Move s (.fork (-1)) { s with stage := .idle }
  | fork {key pid} (hs : s.stage = .forking key) (hpid : 0 < pid) :
      Move s (.fork pid) { s with
        processes := s.processes ++ [{ key, pid, terminated := false }]
        stage := .storing key pid }
  | store {pid e} (hs : s.stage = .storing e.key pid) (he : e ∈ s.entries) :
      Move s .store { s.put { e with child := { e.child with pid } } with stage := .idle }
  /-- The main thread goes on to something else. -/
  | turn {act stage} (hread : ∀ key error, ¬ s.stage.aboutToRead key error)
      (hbury : ∀ todo, s.stage ≠ .burying todo) (hmakes : ∀ key, ¬ stage.makes key)
      (hpass : ∀ todo, stage = .burying todo → todo = s.entries.map Entry.key) :
      Move s act { s with stage := stage }
  | read {error todo e grant pipe again} (hs : s.stage = .reading e.key error todo)
      (he : e ∈ s.entries) (hr : (e.pipe error).readOnce grant = .ok (pipe, again)) :
      Move s (.read grant) { s.put (e.setPipe error pipe) with
        stage := if again then s.stage
          else if error then (.visiting todo) else (.reading e.key true todo) }
  | buryEnds (hs : s.stage = .burying []) : Move s .bury { s with stage := .idle }
  | spare {todo e} (hs : s.stage = .burying (e.key :: todo)) (he : e ∈ s.entries)
      (hdead : e.child.dead = false) : Move s .bury { s with stage := .burying todo }
  | bury {todo e} (hs : s.stage = .burying (e.key :: todo)) (he : e ∈ s.entries)
      (hdead : e.child.dead = true) : Move s .bury { s with
        entries := Keyed.del Entry.key e.key s.entries
        stage := .burying todo
        buried := s.buried ++ [{ e with pipe := fun error => (e.pipe error).close }]
        disconnected := s.disconnected ++ [e.child.pid] }
  | write {e p error bytes} (he : e ∈ s.entries) (hp : p ∈ s.processes) (hkey : p.key = e.key) :
      Move s (.write e.key error bytes) (s.put (e.setPipe error { e.pipe error with
        unread := (e.pipe error).unread ++ bytes, written := (e.pipe error).written ++ bytes }))
  | exit {key} : Move s (.exit key) { s with
      processes :=
        s.processes.map (fun p => if p.key = key then { p with terminated := true } else p) }
  | reap {p} (hp : p ∈ s.processes) : Move s (.reap p.key) { s.findAndMarkDead p.pid with
      processes := s.processes.filter (fun q => q.key ≠ p.key)
      reaped := s.reaped ++ [p] }

variable {s t : State} {act : Act} {key : Nat} {e : Entry}

theorem entry_some (h : s.entry key = some e) : e ∈ s.entries ∧ e.key = key :=
  ⟨List.mem_of_find?_eq_some h, by simpa using List.find?_some h⟩

theorem step_move (h : step s act = some t) : Move s act t := by
  cases act with
  | execute id project argv0 terminal =>
      change s.execute id project argv0 terminal = some t at h
      unfold State.execute at h
      split at h
      · next hs =>
          rw [← Option.some.inj h]
          exact .execute hs
      · exact absurd h (by simp)
  | fork pid =>
      change s.fork pid = some t at h
      unfold State.fork at h
      split at h
      · next key hs =>
          split at h
          · next hpid =>
              subst hpid
              rw [← Option.some.inj h]
              exact .forkFails hs
          · split at h
            · next hpid =>
                rw [← Option.some.inj h]
                exact .fork hs hpid.1
            · exact absurd h (by simp)
      · exact absurd h (by simp)
  | store =>
      change s.store = some t at h
      unfold State.store at h
      split at h
      · next key pid hs =>
          obtain ⟨e, he, rfl⟩ := Option.map_eq_some_iff.mp h
          obtain ⟨hmem, rfl⟩ := entry_some he
          exact .store hs hmem
      · exact absurd h (by simp)
  | readChilds =>
      change s.readChilds = some t at h
      unfold State.readChilds at h
      split at h
      · next hs =>
          rw [← Option.some.inj h]
          exact .turn (by simp [hs, Stage.aboutToRead]) (by simp [hs]) (by simp [Stage.makes])
            (by simp)
      · exact absurd h (by simp)
  | visit =>
      change s.visit = some t at h
      unfold State.visit at h
      split at h
      · next hs =>
          rw [← Option.some.inj h]
          exact .turn (by simp [hs, Stage.aboutToRead]) (by simp [hs]) (by simp [Stage.makes])
            (by simp)
      · next key todo hs =>
          obtain ⟨e, he, rfl⟩ := Option.map_eq_some_iff.mp h
          refine .turn (by simp [hs, Stage.aboutToRead]) (by simp [hs]) ?_ ?_
          · intro k
            split <;> simp [Stage.makes]
          · intro pass
            split <;> simp
      · exact absurd h (by simp)
  | read grant =>
      change s.read grant = some t at h
      unfold State.read at h
      split at h
      · next key error todo hs =>
          obtain ⟨e, he, hread⟩ := Option.bind_eq_some_iff.mp h
          obtain ⟨hmem, rfl⟩ := entry_some he
          split at hread
          · exact absurd hread (by simp)
          · next pipe again hr =>
              rw [← Option.some.inj hread]
              exact .read hs hmem hr
      · exact absurd h (by simp)
  | buryChilds =>
      change s.buryChilds = some t at h
      unfold State.buryChilds at h
      split at h
      · next hs =>
          rw [← Option.some.inj h]
          exact .turn (by simp [hs, Stage.aboutToRead]) (by simp [hs]) (by simp [Stage.makes])
            (by simp)
      · exact absurd h (by simp)
  | bury =>
      change s.bury = some t at h
      unfold State.bury at h
      split at h
      · next hs =>
          rw [← Option.some.inj h]
          exact .buryEnds hs
      · next key todo hs =>
          obtain ⟨e, he, rfl⟩ := Option.map_eq_some_iff.mp h
          obtain ⟨hmem, rfl⟩ := entry_some he
          split
          · next hdead => exact .bury hs hmem hdead
          · next hdead => exact .spare hs hmem (Bool.eq_false_iff.mpr hdead)
      · exact absurd h (by simp)
  | write key error bytes =>
      change s.write key error bytes = some t at h
      unfold State.write at h
      split at h
      · next hp =>
          obtain ⟨p, hp, hkey, -⟩ := hp
          obtain ⟨e, he, hwrite⟩ := Option.bind_eq_some_iff.mp h
          obtain ⟨hmem, rfl⟩ := entry_some he
          split at hwrite
          · exact absurd hwrite (by simp)
          · rw [← Option.some.inj hwrite]
            exact .write hmem hp hkey
      · exact absurd h (by simp)
  | exit key =>
      change s.exit key = some t at h
      unfold State.exit at h
      split at h
      · rw [← Option.some.inj h]
        exact .exit
      · exact absurd h (by simp)
  | reap key =>
      change s.reap key = some t at h
      obtain ⟨p, hp, rfl⟩ := Option.map_eq_some_iff.mp h
      have hkey := List.find?_some hp
      rw [Bool.and_eq_true, decide_eq_true_eq] at hkey
      obtain ⟨rfl, -⟩ := hkey
      have hmove := Move.reap (List.mem_of_find?_eq_some hp)
      convert hmove using 1
      unfold State.findAndMarkDead
      dsimp only
      split <;> rfl

/-! ## Careful steps -/

/-- The complete lines of a child have been read, or are about to be. -/
def Entry.Heard (e : Entry) (stage : Stage) : Prop :=
  ∀ error, newline ∉ (e.pipe error).unread ∨ stage.aboutToRead e.key error

/-- The entry that the next `read` is for, and which of its outputs. -/
def State.nextRead (s : State) : Option (Entry × Bool) :=
  match s.stage with
  | .reading key error _ => (s.entry key).map (fun e => (e, error))
  | _ => none

/-- A child is reaped when its pid has been stored and no entry in front has the same one, and when
the main thread has read its complete lines or is about to; then it gets them. And no child writes
a NUL. -/
def Careful (s : State) : Act → Prop
  | .reap key => ∀ p ∈ s.processes, p.key = key →
      ∃ e ∈ s.entries.find? (fun e => e.child.pid = p.pid), e.key = key ∧ e.Heard s.stage
  | .read grant => ∀ r ∈ s.nextRead, r.1.child.dead → (r.1.pipe r.2).GivesAll grant
  | .write _ _ bytes => 0 ∉ bytes
  | _ => True

instance (pipe : Pipe) (grant : Option Nat) : Decidable (pipe.GivesAll grant) :=
  inferInstanceAs (Decidable (pipe.unread = [] ∨ ∃ n ∈ grant, pipe.unread.length ≤ n))

instance (e : Entry) (stage : Stage) : Decidable (e.Heard stage) :=
  inferInstanceAs (Decidable
    (∀ error, newline ∉ (e.pipe error).unread ∨ stage.aboutToRead e.key error))

instance (s : State) : (act : Act) → Decidable (Careful s act)
  | .reap key => inferInstanceAs (Decidable (∀ p ∈ s.processes, p.key = key →
      ∃ e ∈ s.entries.find? (fun e => e.child.pid = p.pid), e.key = key ∧ e.Heard s.stage))
  | .read grant => inferInstanceAs (Decidable
      (∀ r ∈ s.nextRead, r.1.child.dead → (r.1.pipe r.2).GivesAll grant))
  | .write _ _ bytes => inferInstanceAs (Decidable (0 ∉ bytes))
  | .execute .. | .fork _ | .store | .readChilds | .visit | .buryChilds | .bury | .exit _ =>
    isTrue trivial

/-- Whoever was reaped is marked dead or buried; those who were buried have been reported as
disconnected, and all their complete lines have been logged. -/
structure State.Noticed (s : State) : Prop where
  marked : ∀ p ∈ s.reaped,
    (∃ e ∈ s.entries, e.key = p.key ∧ e.child.pid = p.pid ∧ e.child.dead) ∨
      ∃ e ∈ s.buried, e.key = p.key ∧ e.child.pid = p.pid
  reported : s.disconnected = s.buried.map (fun e => e.child.pid)
  told : ∀ e ∈ s.buried, ∀ error, (e.pipe error).Told

/-- The invariant of careful runs. -/
structure State.Inv (s : State) : Prop extends s.Noticed where
  keys : (s.entries.map Entry.key).Nodup
  known : ∀ e ∈ s.entries ++ s.buried, e.key < s.nextKey
  sound : ∀ e ∈ s.entries, ∀ error, (e.pipe error).Sound
  /-- The entry of a process that was not reaped is there, and not marked. -/
  running : ∀ p ∈ s.processes, 0 < p.pid ∧ ∃ e ∈ s.entries, e.key = p.key ∧ e.child.dead = false
  heard : ∀ e ∈ s.entries, e.child.dead → e.Heard s.stage
  /-- The entry that is being made has no pid, so nobody takes it for his. -/
  making : ∀ key, s.stage.makes key →
    ∃ e ∈ s.entries, e.key = key ∧ e.child.pid = 0 ∧ e.child.dead = false

namespace State.Inv

variable {e' : Entry} {stage : Stage}

theorem start : State.start.Inv where
  marked := fun _ hp => absurd hp List.not_mem_nil
  reported := rfl
  told := fun _ he => absurd he List.not_mem_nil
  keys := List.nodup_nil
  known := fun _ he => absurd he List.not_mem_nil
  sound := fun _ he => absurd he List.not_mem_nil
  running := fun _ hp => absurd hp List.not_mem_nil
  heard := fun _ he => absurd he List.not_mem_nil
  making := fun _ hmakes => absurd hmakes (by simp [State.start, Stage.makes])

/-- There is one entry at an address. -/
theorem unique (h : s.Inv) {d : Entry} (he : e ∈ s.entries) (hd : d ∈ s.entries)
    (hkey : e.key = d.key) : e = d :=
  Keyed.eq_of_key_eq h.keys he hd hkey

/-- An entry is written back, and there is still one with a property. -/
theorem exists_put (h : s.Inv) (he : e ∈ s.entries) (e' : Entry) (hkey : e'.key = e.key)
    {q : Entry → Prop} (hq : q e → q e') (hx : ∃ x ∈ s.entries, q x) :
    ∃ x ∈ (s.put e').entries, q x := by
  obtain ⟨x, hx, hqx⟩ := hx
  by_cases hxe : x.key = e.key
  · obtain rfl := h.unique hx he hxe
    exact ⟨e', Keyed.mem_put_self hx hkey.symm, hq hqx⟩
  · exact ⟨x, Keyed.mem_put.mpr (Or.inr ⟨hx, by rwa [hkey]⟩), hqx⟩

theorem known_put (h : s.Inv) (he : e ∈ s.entries) (hkey : e'.key = e.key) :
    ∀ x ∈ (s.put e').entries ++ s.buried, x.key < s.nextKey := by
  intro x hx
  rcases List.mem_append.mp hx with hx | hx
  · rcases Keyed.mem_put.mp hx with ⟨rfl, -⟩ | ⟨hx, -⟩
    · rw [hkey]
      exact h.known e (List.mem_append_left _ he)
    · exact h.known x (List.mem_append_left _ hx)
  · exact h.known x (List.mem_append_right _ hx)

theorem heard_mono {x : Entry} (h : x.Heard s.stage)
    (hread : ∀ error, s.stage.aboutToRead x.key error → stage.aboutToRead x.key error) :
    x.Heard stage := by
  intro error
  exact (h error).imp id (hread error)

/-- The main thread goes on. -/
theorem turn (h : s.Inv)
    (hread : ∀ key error, s.stage.aboutToRead key error → stage.aboutToRead key error)
    (hmakes : ∀ key, stage.makes key → s.stage.makes key) :
    State.Inv { s with stage := stage } where
  marked := h.marked
  reported := h.reported
  told := h.told
  keys := h.keys
  known := h.known
  sound := h.sound
  running := h.running
  heard := fun e he hdead => heard_mono (h.heard e he hdead) (hread e.key)
  making := fun key hkey => h.making key (hmakes key hkey)

/-- An entry is written back, and the main thread goes on. -/
theorem update (h : s.Inv) (he : e ∈ s.entries) (hkey : e'.key = e.key)
    (hdead : e'.child.dead = e.child.dead)
    (hpid : e.child.dead ∨ (∃ key, stage.makes key) → e'.child.pid = e.child.pid)
    (hsound : ∀ error, (e'.pipe error).Sound)
    (hread : ∀ key ≠ e.key, ∀ error, s.stage.aboutToRead key error → stage.aboutToRead key error)
    (hheard : e.child.dead → e'.Heard stage)
    (hmakes : ∀ key, stage.makes key → s.stage.makes key) :
    State.Inv { s.put e' with stage := stage } where
  marked := by
    intro p hp
    refine (h.marked p hp).imp (h.exists_put he _ hkey ?_) id
    rintro ⟨hp, hepid, hedead⟩
    exact ⟨hkey.trans hp, (hpid (Or.inl hedead)).trans hepid, hdead.trans hedead⟩
  reported := h.reported
  told := h.told
  keys := by
    show ((Keyed.put Entry.key e' s.entries).map Entry.key).Nodup
    rw [Keyed.map_key_put]
    exact h.keys
  known := h.known_put he hkey
  sound := by
    intro x hx
    rcases Keyed.mem_put.mp hx with ⟨rfl, -⟩ | ⟨hx, -⟩
    · exact hsound
    · exact h.sound x hx
  running := by
    intro p hp
    obtain ⟨hpos, hentry⟩ := h.running p hp
    refine ⟨hpos, h.exists_put he _ hkey ?_ hentry⟩
    rintro ⟨hp, hedead⟩
    exact ⟨hkey.trans hp, hdead.trans hedead⟩
  heard := by
    intro x hx hxdead
    rcases Keyed.mem_put.mp hx with ⟨rfl, -⟩ | ⟨hx, hne⟩
    · exact hheard (hdead ▸ hxdead)
    · exact heard_mono (h.heard x hx hxdead) (hread x.key (by rwa [hkey] at hne))
  making := by
    intro key hstage
    refine h.exists_put he _ hkey ?_ (h.making key (hmakes key hstage))
    rintro ⟨hek, hepid, hedead⟩
    exact ⟨hkey.trans hek, (hpid (Or.inr ⟨key, hstage⟩)).trans hepid, hdead.trans hedead⟩

/-- `loader_execute` adds an entry. -/
theorem execute (h : s.Inv) (hs : s.stage = .idle) (child : Child) (hpid : child.pid = 0)
    (hdead : child.dead = false) :
    State.Inv { s with
      entries := s.entries ++ [{ key := s.nextKey, child, pipe := fun _ => .new }]
      stage := .forking s.nextKey
      nextKey := s.nextKey + 1 } where
  marked := by
    intro p hp
    refine (h.marked p hp).imp ?_ id
    rintro ⟨e, he, hentry⟩
    exact ⟨e, List.mem_append_left _ he, hentry⟩
  reported := h.reported
  told := h.told
  keys := by
    rw [List.map_append, List.map_singleton, List.nodup_append]
    refine ⟨h.keys, List.nodup_singleton _, ?_⟩
    intro key hkey key' hkey'
    obtain ⟨e, he, rfl⟩ := List.mem_map.mp hkey
    rw [List.mem_singleton.mp hkey']
    exact (h.known e (List.mem_append_left _ he)).ne
  known := by
    intro e he
    rcases List.mem_append.mp he with he | he
    · rcases List.mem_append.mp he with he | he
      · exact (h.known e (List.mem_append_left _ he)).trans (Nat.lt_succ_self _)
      · rw [List.mem_singleton.mp he]
        exact Nat.lt_succ_self _
    · exact (h.known e (List.mem_append_right _ he)).trans (Nat.lt_succ_self _)
  sound := by
    intro e he
    rcases List.mem_append.mp he with he | he
    · exact h.sound e he
    · rw [List.mem_singleton.mp he]
      exact fun _ => Pipe.sound_new
  running := by
    intro p hp
    obtain ⟨hpos, e, he, hentry⟩ := h.running p hp
    exact ⟨hpos, e, List.mem_append_left _ he, hentry⟩
  heard := by
    intro e he hedead
    rcases List.mem_append.mp he with he | he
    · refine heard_mono (h.heard e he hedead) ?_
      simp [hs, Stage.aboutToRead]
    · rw [List.mem_singleton.mp he] at hedead
      exact absurd hedead (by simp [hdead])
  making := by
    rintro key rfl
    exact ⟨_, List.mem_append_right _ List.mem_cons_self, rfl, hpid, hdead⟩

theorem fork (h : s.Inv) {pid : Int} (hs : s.stage = .forking key) (hpid : 0 < pid) :
    State.Inv { s with
      processes := s.processes ++ [{ key, pid, terminated := false }]
      stage := .storing key pid } where
  marked := h.marked
  reported := h.reported
  told := h.told
  keys := h.keys
  known := h.known
  sound := h.sound
  running := by
    intro p hp
    rcases List.mem_append.mp hp with hp | hp
    · exact h.running p hp
    · obtain ⟨e, he, hkey, -, hdead⟩ := h.making key (by rw [hs]; exact rfl)
      rw [List.mem_singleton.mp hp]
      exact ⟨hpid, e, he, hkey, hdead⟩
  heard := by
    intro e he hdead
    refine heard_mono (h.heard e he hdead) ?_
    simp [hs, Stage.aboutToRead]
  making := fun key' hkey => h.making key' (by rw [hs]; exact hkey)

theorem sound_setPipe (h : s.Inv) (he : e ∈ s.entries) (error : Bool) {pipe : Pipe}
    (hsound : pipe.Sound) (error' : Bool) : ((e.setPipe error pipe).pipe error').Sound := by
  by_cases herror : error' = error
  · rw [herror, Entry.setPipe_self]
    exact hsound
  · rw [Entry.setPipe_ne e herror]
    exact h.sound e he error'

/-- The flag stays as it is when an output was read, and so the child is still heard. -/
theorem read (h : s.Inv) {error again : Bool} {todo : List Nat} {grant : Option Nat} {pipe : Pipe}
    (hs : s.stage = .reading e.key error todo) (he : e ∈ s.entries)
    (hr : (e.pipe error).readOnce grant = .ok (pipe, again))
    (hall : e.child.dead → (e.pipe error).GivesAll grant) :
    State.Inv { s.put (e.setPipe error pipe) with
      stage := if again then s.stage
        else if error then (.visiting todo) else (.reading e.key true todo) } := by
  obtain ⟨hsound, taken, htaken⟩ := (h.sound e he error).readOnce hr
  refine h.update he rfl rfl (fun _ => rfl) (h.sound_setPipe he error hsound) ?_ ?_ ?_
  · intro k hk error' habout
    rw [hs] at habout
    simp [Stage.aboutToRead, hk.symm] at habout
  · intro hdead error'
    have hheard := h.heard e he hdead error'
    by_cases herror : error' = error
    · subst herror
      rw [Entry.setPipe_self]
      cases again with
      | true =>
          -- what is left was there before
          refine hheard.imp (fun hnl hmem => hnl ?_) id
          rw [htaken]
          exact List.mem_append_right _ hmem
      | false =>
          rw [(h.sound e he error').readOnce_last hr (hall hdead)]
          exact Or.inl List.not_mem_nil
    · rw [Entry.setPipe_ne e herror]
      cases again with
      | true => exact hheard
      | false =>
          rw [hs] at hheard
          cases error with
          | true =>
              -- the standard output was read before
              refine Or.inl (hheard.resolve_right ?_)
              cases error' with
              | true => exact absurd rfl herror
              | false => simp [Stage.aboutToRead]
          | false =>
              -- the standard error comes next
              refine Or.inr ?_
              cases error' with
              | true => simp [Stage.aboutToRead, Entry.setPipe]
              | false => exact absurd rfl herror
  · intro k hmakes
    cases again with
    | true => exact hmakes
    | false => cases error <;> exact absurd hmakes (by simp [Stage.makes])

/-- An entry that is marked has been heard, so it can be buried. -/
theorem bury (h : s.Inv) {todo : List Nat} (hs : s.stage = .burying (e.key :: todo))
    (he : e ∈ s.entries) (hdead : e.child.dead = true) :
    State.Inv { s with
      entries := Keyed.del Entry.key e.key s.entries
      stage := .burying todo
      buried := s.buried ++ [{ e with pipe := fun error => (e.pipe error).close }]
      disconnected := s.disconnected ++ [e.child.pid] } where
  marked := by
    intro p hp
    rcases h.marked p hp with ⟨x, hx, hkey, hpid, hxdead⟩ | ⟨x, hx, hkey, hpid⟩
    · by_cases hxe : x.key = e.key
      · obtain rfl := h.unique hx he hxe
        exact Or.inr ⟨_, List.mem_append_right _ List.mem_cons_self, hkey, hpid⟩
      · exact Or.inl ⟨x, Keyed.mem_del.mpr ⟨hx, hxe⟩, hkey, hpid, hxdead⟩
    · exact Or.inr ⟨x, List.mem_append_left _ hx, hkey, hpid⟩
  reported := by rw [h.reported, List.map_append, List.map_singleton]
  told := by
    intro x hx error
    rcases List.mem_append.mp hx with hx | hx
    · exact h.told x hx error
    · rw [List.mem_singleton.mp hx]
      refine (h.sound e he error).told ((h.heard e he hdead error).resolve_right ?_)
      simp [hs, Stage.aboutToRead]
  keys := Keyed.nodup_del h.keys
  known := by
    intro x hx
    rcases List.mem_append.mp hx with hx | hx
    · exact h.known x (List.mem_append_left _ (Keyed.mem_of_mem_del hx))
    · rcases List.mem_append.mp hx with hx | hx
      · exact h.known x (List.mem_append_right _ hx)
      · rw [List.mem_singleton.mp hx]
        exact h.known e (List.mem_append_left _ he)
  sound := fun x hx => h.sound x (Keyed.mem_of_mem_del hx)
  running := by
    intro p hp
    obtain ⟨hpos, x, hx, hkey, halive⟩ := h.running p hp
    refine ⟨hpos, x, Keyed.mem_del.mpr ⟨hx, ?_⟩, hkey, halive⟩
    intro hxe
    rw [h.unique hx he hxe, hdead] at halive
    exact absurd halive (by simp)
  heard := by
    intro x hx hxdead
    refine heard_mono (h.heard x (Keyed.mem_of_mem_del hx) hxdead) ?_
    simp [hs, Stage.aboutToRead]
  making := fun _ hmakes => absurd hmakes (by simp [Stage.makes])

/-- The handler marks the entry of the child that it has reaped. -/
theorem reap (h : s.Inv) {p : Process} (hp : p ∈ s.processes)
    (he : s.entries.find? (fun e => e.child.pid = p.pid) = some e) (hkey : e.key = p.key)
    (hheard : e.Heard s.stage) :
    State.Inv { s.findAndMarkDead p.pid with
      processes := s.processes.filter (fun q => q.key ≠ p.key)
      reaped := s.reaped ++ [p] } := by
  have hmem : e ∈ s.entries := List.mem_of_find?_eq_some he
  have hpid : e.child.pid = p.pid := by simpa using List.find?_some he
  have hmark : s.findAndMarkDead p.pid = s.put e.die := by
    rw [State.findAndMarkDead, he]
  rw [hmark]
  exact {
    marked := by
      intro q hq
      rcases List.mem_append.mp hq with hq | hq
      · refine (h.marked q hq).imp ?_ id
        refine h.exists_put hmem e.die rfl ?_
        rintro ⟨hqkey, hqpid, -⟩
        exact ⟨hqkey, hqpid, rfl⟩
      · rw [List.mem_singleton.mp hq]
        exact Or.inl ⟨e.die, Keyed.mem_put_self hmem rfl, hkey, hpid, rfl⟩
    reported := h.reported
    told := h.told
    keys := by
      show ((Keyed.put Entry.key e.die s.entries).map Entry.key).Nodup
      rw [Keyed.map_key_put]
      exact h.keys
    known := h.known_put hmem rfl
    sound := by
      intro x hx
      rcases Keyed.mem_put.mp hx with ⟨rfl, -⟩ | ⟨hx, -⟩
      · exact h.sound e hmem
      · exact h.sound x hx
    running := by
      intro q hq
      obtain ⟨hq, hne⟩ := List.mem_filter.mp hq
      obtain ⟨hpos, x, hx, hxkey, halive⟩ := h.running q hq
      refine ⟨hpos, x, Keyed.mem_put.mpr (Or.inr ⟨hx, ?_⟩), hxkey, halive⟩
      show x.key ≠ e.key
      rw [hxkey, hkey]
      exact of_decide_eq_true hne
    heard := by
      intro x hx hxdead
      rcases Keyed.mem_put.mp hx with ⟨rfl, -⟩ | ⟨hx, -⟩
      · exact hheard
      · exact h.heard x hx hxdead
    making := by
      intro key hmakes
      obtain ⟨x, hx, hxkey, hxpid, halive⟩ := h.making key hmakes
      refine ⟨x, Keyed.mem_put.mpr (Or.inr ⟨hx, ?_⟩), hxkey, hxpid, halive⟩
      -- its pid is 0, which is nobody's
      intro hxe
      have hpos := (h.running p hp).1
      rw [h.unique hx hmem hxe, hpid] at hxpid
      omega }

/-- **What a careful step preserves.** -/
theorem step (h : s.Inv) (hok : Careful s act) (hs : step s act = some t) : t.Inv := by
  cases step_move hs with
  | execute hidle => exact h.execute hidle _ rfl rfl
  | forkFails hforking =>
      exact h.turn (by simp [hforking, Stage.aboutToRead]) (by simp [Stage.makes])
  | fork hforking hpid => exact h.fork hforking hpid
  | @store pid e hstoring he =>
      obtain ⟨x, hx, hkey, -, halive⟩ := h.making e.key (by rw [hstoring]; exact rfl)
      obtain rfl := h.unique hx he hkey
      refine h.update he rfl rfl ?_ (h.sound x he) ?_ ?_ ?_
      · rintro (hdead | ⟨key, hmakes⟩)
        · exact absurd hdead (by simp [halive])
        · exact absurd hmakes (by simp [Stage.makes])
      · simp [hstoring, Stage.aboutToRead]
      · intro hdead
        exact absurd hdead (by simp [halive])
      · simp [Stage.makes]
  | turn hread hbury hmakes hpass =>
      exact h.turn (fun key error habout => absurd habout (hread key error))
        (fun key hkey => absurd hkey (hmakes key))
  | @read error todo e grant pipe again hreading he hr =>
      refine h.read hreading he hr ?_
      have hnext : s.nextRead = some (e, error) := by
        unfold State.nextRead State.entry
        rw [hreading]
        dsimp only
        rw [Keyed.find_key h.keys he]
        rfl
      exact hok (e, error) hnext
  | buryEnds hburying =>
      exact h.turn (by simp [hburying, Stage.aboutToRead]) (by simp [Stage.makes])
  | spare hburying he halive =>
      exact h.turn (by simp [hburying, Stage.aboutToRead]) (by simp [Stage.makes])
  | bury hburying he hdead => exact h.bury hburying he hdead
  | @write e p error bytes he hp hkey =>
      obtain ⟨-, x, hx, hxkey, halive⟩ := h.running p hp
      obtain rfl := h.unique hx he (hxkey.trans hkey)
      have hsound := h.sound_setPipe he error ((h.sound x he error).write hok)
      have hkeep : ∀ key, s.stage.makes key → s.stage.makes key := fun _ => id
      refine h.update he rfl rfl (fun _ => rfl) hsound (fun _ _ _ => id) ?_ hkeep
      intro hdead
      exact absurd hdead (by simp [halive])
  | @exit key =>
      exact {
        h with
        running := by
          intro p hp
          obtain ⟨q, hq, rfl⟩ := List.mem_map.mp hp
          split
          · exact h.running q hq
          · exact h.running q hq }
  | @reap p hp =>
      obtain ⟨e, he, hkey, hheard⟩ := hok p hp rfl
      exact h.reap hp he hkey hheard

end State.Inv

/-! ## The loop of `loader_childs_bury` -/

/-- No entry is at the address any more; the one that was there has been buried, and its client
reported. -/
structure State.Gone (s : State) (key : Nat) (pid : Int) : Prop where
  removed : key ∉ s.entries.map Entry.key
  buried : ∃ e ∈ s.buried, e.key = key ∧ e.child.pid = pid
  reported : pid ∈ s.disconnected

/-- The entry is marked dead, and the loop has still to come to it. -/
structure State.Doomed (s : State) (key : Nat) (pid : Int) : Prop where
  ahead : ∃ todo, s.stage = .burying todo ∧ key ∈ todo
  marked : ∃ e ∈ s.entries, e.key = key ∧ e.child.pid = pid ∧ e.child.dead

/-- What no step takes back. -/
structure State.Later (s t : State) : Prop where
  keys : ∀ key ∈ t.entries.map Entry.key, key ∈ s.entries.map Entry.key ∨ s.nextKey ≤ key
  buried : s.buried ⊆ t.buried
  disconnected : s.disconnected ⊆ t.disconnected

/-- The loop has to come to entries of the list only, and to each of them once. -/
def State.Planned (s : State) : Prop :=
  ∀ todo, s.stage = .burying todo → todo.Nodup ∧ todo ⊆ s.entries.map Entry.key

theorem findAndMarkDead_cases (s : State) (pid : Int) :
    s.findAndMarkDead pid = s ∨ ∃ e ∈ s.entries, s.findAndMarkDead pid = s.put e.die := by
  unfold State.findAndMarkDead
  split
  · exact Or.inl rfl
  · next e he => exact Or.inr ⟨e, List.mem_of_find?_eq_some he, rfl⟩

/-- The handler leaves the list as it is, and what the main thread does. -/
theorem findAndMarkDead_frame (s : State) (pid : Int) :
    (s.findAndMarkDead pid).entries.map Entry.key = s.entries.map Entry.key ∧
      (s.findAndMarkDead pid).stage = s.stage ∧ (s.findAndMarkDead pid).buried = s.buried ∧
      (s.findAndMarkDead pid).disconnected = s.disconnected := by
  rcases findAndMarkDead_cases s pid with heq | ⟨e, -, heq⟩
  · rw [heq]
    exact ⟨rfl, rfl, rfl, rfl⟩
  · rw [heq]
    exact ⟨Keyed.map_key_put _ _, rfl, rfl, rfl⟩

namespace State

theorem Later.of_keys (hkeys : t.entries.map Entry.key = s.entries.map Entry.key)
    (hburied : t.buried = s.buried) (hdisconnected : t.disconnected = s.disconnected) :
    s.Later t where
  keys := fun _ hkey => Or.inl (hkeys ▸ hkey)
  buried := by rw [hburied]; exact List.Subset.refl _
  disconnected := by rw [hdisconnected]; exact List.Subset.refl _

theorem step_later (h : step s act = some t) : s.Later t := by
  cases step_move h with
  | execute _ =>
      refine ⟨?_, List.Subset.refl _, List.Subset.refl _⟩
      intro key hkey
      rw [List.map_append, List.mem_append] at hkey
      exact hkey.imp id (fun hkey => (List.mem_singleton.mp hkey).ge)
  | bury _ _ _ =>
      refine ⟨?_, List.subset_append_left _ _, List.subset_append_left _ _⟩
      intro key hkey
      obtain ⟨e, he, rfl⟩ := List.mem_map.mp hkey
      exact Or.inl (List.mem_map_of_mem (Keyed.mem_of_mem_del he))
  | store _ _ | read _ _ _ | write _ _ _ => exact .of_keys (Keyed.map_key_put _ _) rfl rfl
  | @reap p _ =>
      obtain ⟨hkeys, -, hburied, hdisconnected⟩ := findAndMarkDead_frame s p.pid
      exact .of_keys hkeys hburied hdisconnected
  | _ => exact .of_keys rfl rfl rfl

theorem Gone.step {pid : Int} (hg : s.Gone key pid) (h : s.Inv) (hs : step s act = some t) :
    t.Gone key pid := by
  have hlater := step_later hs
  obtain ⟨e, he, hkey, hpid⟩ := hg.buried
  refine ⟨?_, ⟨e, hlater.buried he, hkey, hpid⟩, hlater.disconnected hg.reported⟩
  -- a new entry is not where an old one was
  intro hmem
  rcases hlater.keys key hmem with hmem | hnext
  · exact hg.removed hmem
  · have hknown := h.known e (List.mem_append_right _ he)
    omega

/-- The loop comes to a marked entry, and buries it. -/
theorem Doomed.step {pid : Int} (hd : s.Doomed key pid) (h : s.Inv) (hs : step s act = some t) :
    t.Doomed key pid ∨ t.Gone key pid := by
  obtain ⟨⟨todo, hstage, hkey⟩, x, hx, hxkey, hxpid, hxdead⟩ := hd
  cases step_move hs with
  | execute hidle => exact absurd (hstage.symm.trans hidle) (by simp)
  | forkFails hforking | fork hforking _ => exact absurd (hstage.symm.trans hforking) (by simp)
  | store hstoring _ => exact absurd (hstage.symm.trans hstoring) (by simp)
  | turn _ hbury _ _ => exact absurd hstage (hbury todo)
  | read hreading _ _ => exact absurd (hstage.symm.trans hreading) (by simp)
  | buryEnds hburying =>
      rw [Stage.burying.inj (hstage.symm.trans hburying)] at hkey
      exact absurd hkey List.not_mem_nil
  | @spare rest e hburying he halive =>
      rw [Stage.burying.inj (hstage.symm.trans hburying)] at hkey
      refine Or.inl ⟨⟨rest, rfl, (List.mem_cons.mp hkey).resolve_left ?_⟩, x, hx, hxkey, hxpid,
        hxdead⟩
      -- this one is alive
      intro heq
      rw [h.unique hx he (hxkey.trans heq), halive] at hxdead
      exact absurd hxdead (by simp)
  | @bury rest e hburying he hdead =>
      rw [Stage.burying.inj (hstage.symm.trans hburying)] at hkey
      by_cases heq : key = e.key
      · obtain rfl := h.unique hx he (hxkey.trans heq)
        refine Or.inr ⟨?_, ⟨_, List.mem_append_right _ List.mem_cons_self, hxkey, hxpid⟩, ?_⟩
        · intro hmem
          obtain ⟨y, hy, hykey⟩ := List.mem_map.mp hmem
          exact (Keyed.mem_del.mp hy).2 (hykey.trans heq)
        · rw [← hxpid]
          exact List.mem_append_right _ List.mem_cons_self
      · have hmem : x ∈ Keyed.del Entry.key e.key s.entries :=
          Keyed.mem_del.mpr ⟨hx, by rwa [hxkey]⟩
        exact Or.inl ⟨⟨rest, rfl, (List.mem_cons.mp hkey).resolve_left heq⟩, x, hmem, hxkey, hxpid,
          hxdead⟩
  | @write e p error bytes he _ _ =>
      refine Or.inl ⟨⟨todo, hstage, hkey⟩, ?_⟩
      have hmarked : ∃ x ∈ s.entries, x.key = key ∧ x.child.pid = pid ∧ x.child.dead :=
        ⟨x, hx, hxkey, hxpid, hxdead⟩
      refine h.exists_put he (e.setPipe error _) rfl ?_ hmarked
      exact id
  | exit => exact Or.inl ⟨⟨todo, hstage, hkey⟩, x, hx, hxkey, hxpid, hxdead⟩
  | @reap p _ =>
      obtain ⟨-, hframe, -, -⟩ := findAndMarkDead_frame s p.pid
      refine Or.inl ⟨⟨todo, hframe.trans hstage, hkey⟩, ?_⟩
      show ∃ e ∈ (s.findAndMarkDead p.pid).entries, _
      rcases findAndMarkDead_cases s p.pid with heq | ⟨e, he, heq⟩
      · rw [heq]
        exact ⟨x, hx, hxkey, hxpid, hxdead⟩
      · rw [heq]
        have hmarked : ∃ x ∈ s.entries, x.key = key ∧ x.child.pid = pid ∧ x.child.dead :=
          ⟨x, hx, hxkey, hxpid, hxdead⟩
        refine h.exists_put he e.die rfl ?_ hmarked
        rintro ⟨hekey, hepid, -⟩
        exact ⟨hekey, hepid, rfl⟩

theorem Planned.step (hp : s.Planned) (h : s.Inv) (hs : step s act = some t) : t.Planned := by
  have hkeep : t.stage = s.stage → t.entries.map Entry.key = s.entries.map Entry.key →
      t.Planned := by
    intro hstage hkeys todo htodo
    rw [hkeys]
    exact hp todo (hstage ▸ htodo)
  have helse : (∀ todo, t.stage ≠ .burying todo) → t.Planned :=
    fun hnot todo htodo => absurd htodo (hnot todo)
  cases step_move hs with
  | turn _ _ _ hpass =>
      intro todo htodo
      obtain rfl := hpass todo htodo
      exact ⟨h.keys, List.Subset.refl _⟩
  | @spare rest e hburying _ _ =>
      rintro todo ⟨⟩
      obtain ⟨hnodup, hsub⟩ := hp _ hburying
      exact ⟨(List.nodup_cons.mp hnodup).2, fun key hkey => hsub (List.mem_cons_of_mem _ hkey)⟩
  | @bury rest e hburying he _ =>
      rintro todo ⟨⟩
      obtain ⟨hnodup, hsub⟩ := hp _ hburying
      obtain ⟨hnot, hrest⟩ := List.nodup_cons.mp hnodup
      refine ⟨hrest, ?_⟩
      intro key hkey
      obtain ⟨x, hx, rfl⟩ := List.mem_map.mp (hsub (List.mem_cons_of_mem _ hkey))
      exact List.mem_map_of_mem (Keyed.mem_del.mpr ⟨hx, fun heq => hnot (heq ▸ hkey)⟩)
  | write _ _ _ => exact hkeep rfl (Keyed.map_key_put _ _)
  | exit => exact hkeep rfl rfl
  | @reap p _ =>
      obtain ⟨hkeys, hstage, -, -⟩ := findAndMarkDead_frame s p.pid
      exact hkeep hstage hkeys
  | @read error todo e grant pipe again hreading _ _ =>
      apply helse
      intro pass
      cases again with
      | true => simp [hreading]
      | false => cases error <;> simp
  | _ => exact helse (by simp)

end State

/-! ## Runs -/

theorem inv_of_reach (h : Runs.Reach step Careful State.start s) : s.Inv :=
  h.invariant .start (fun _ _ _ _ hinv hok hs => hinv.step hok hs)

theorem planned_of_reach (h : Runs.Reach step Careful State.start s) : s.Planned := by
  refine h.invariant ?_ ?_
  · intro todo htodo
    exact absurd htodo (by simp [State.start])
  · intro t act u ht hplanned _ hs
    exact hplanned.step (inv_of_reach ht) hs

/-- Whatever else happens in the meantime, a marked entry is buried when the loop has ended. -/
theorem gone_of_idle {pid : Int} (h : Runs.Reach step Careful State.start s)
    (hd : s.Doomed key pid) (hrun : Runs.Reach step Careful s t) (hidle : t.stage = .idle) :
    t.Gone key pid := by
  have hor : t.Doomed key pid ∨ t.Gone key pid := by
    refine hrun.invariant (I := fun v => v.Doomed key pid ∨ v.Gone key pid) (Or.inl hd) ?_
    intro v act w hv hor _ hs
    have hinv := inv_of_reach (h.trans hv)
    rcases hor with hdoomed | hgone
    · exact hdoomed.step hinv hs
    · exact Or.inr (hgone.step hinv hs)
  refine hor.resolve_left ?_
  rintro ⟨⟨todo, hburying, -⟩, -⟩
  exact absurd (hidle.symm.trans hburying) (by simp)

/-- The loop can go on to the next entry. -/
theorem step_bury {todo : List Nat} (hs : s.stage = .burying (key :: todo))
    (hmem : key ∈ s.entries.map Entry.key) :
    ∃ t, step s .bury = some t ∧ t.stage = .burying todo := by
  obtain ⟨e, he, hkey⟩ := List.mem_map.mp hmem
  have hsome : (s.entry key).isSome := by
    unfold State.entry
    rw [List.find?_isSome]
    exact ⟨e, he, decide_eq_true hkey⟩
  obtain ⟨d, hd⟩ := Option.isSome_iff_exists.mp hsome
  change ∃ t, s.bury = some t ∧ _
  unfold State.bury
  rw [hs]
  dsimp only
  rw [hd, Option.map_some]
  by_cases hdead : d.child.dead
  · rw [if_pos hdead]
    exact ⟨_, rfl, rfl⟩
  · rw [if_neg hdead]
    exact ⟨_, rfl, rfl⟩

theorem careful_bury (s : State) : Careful s .bury := trivial

/-- The loop comes to an end. -/
theorem pass_ends {todo : List Nat} (h : Runs.Reach step Careful State.start s)
    (hs : s.stage = .burying todo) :
    ∃ t, Runs.exec step Careful s (List.replicate (todo.length + 1) .bury) = some t ∧
      t.stage = .idle := by
  induction todo generalizing s with
  | nil =>
      refine ⟨{ s with stage := .idle }, ?_, rfl⟩
      have hend : step s .bury = some { s with stage := .idle } := by
        change s.bury = _
        unfold State.bury
        rw [hs]
      rw [List.length_nil, List.replicate_succ, Runs.exec, if_pos (careful_bury s), hend]
      rfl
  | cons key todo ih =>
      obtain ⟨-, hsub⟩ := planned_of_reach h _ hs
      obtain ⟨u, hu, hstage⟩ := step_bury hs (hsub List.mem_cons_self)
      have hreach : Runs.Reach step Careful State.start u := .tail h (careful_bury s) hu
      obtain ⟨t, ht, hidle⟩ := ih hreach hstage
      refine ⟨t, ?_, hidle⟩
      rw [List.length_cons, List.replicate_succ, Runs.exec, if_pos (careful_bury s), hu]
      exact ht

/-- A program says a word and terminates, when the word has been read. -/
def heardRun : List Act :=
  [.execute 0 (cstr "song") (cstr "synth") false, .fork 5, .store, .write 0 false (cstr "hi\n"),
    .readChilds, .visit, .read (some 3), .read none, .visit, .exit 0, .reap 0]

end Loader

end Lash
