import Lash.Isolation
import Lash.LastDataSet
import Lash.Offers
import Lash.Parents

/-!
# The data that info files refer to

An info file lists clients, and for those with `LASH_Saved` there is data in the directory of the
project. `Server.refer` keeps account, next to the daemon, of the data directories that were there
when the last info file of each project was written. The daemon takes such a directory away when a
save begins after its client was lost, long before the info file that says so is written; and when a
client is lost whose data is nothing. Wherever no step does that, what the info files refer to is
there at all times (`listed_data_there`).
-/

namespace Lash

/-! ## References -/

/-- What an info file refers to: where the file lies, and the data directory of a client there or
the store in it. -/
structure DataRef where
  dir : Path
  id : Uuid
  store : Bool
  deriving DecidableEq

/-- Where the data is. -/
def DataRef.path (r : DataRef) : Path :=
  r.dir ++ [projectIdDir, uuidUnparse r.id] ++ if r.store then [projectConfigDir] else []

/-- The clients that a document lists with `LASH_Saved`. -/
def savedClients (doc : XmlDoc) : List Client :=
  match rootNode doc with
  | none => []
  | some root =>
    ((childrenNamed root "client").filterMap (clientParseXml [] (clientNew 0))).filter
      (fun c => isSaved c.flags)

/-- There is a directory, with all that is above it. -/
def Fs.holdsDir (fs : Fs) (p : Path) : Bool := p.inits.all fs.isDir

/-- The data directories a document lists, in the directory of its project, that are there. -/
def Fs.listed (fs : Fs) (dir : CStr) (doc : XmlDoc) : List DataRef :=
  ((savedClients doc).flatMap (fun c =>
    [{ dir := resolve dir, id := c.id, store := false },
      { dir := resolve dir, id := c.id, store := true }])).filter (fun r => fs.holdsDir r.path)

/-- The references of the info files on a disk. -/
def Fs.found (fs : Fs) (projectsDir : CStr) : List DataRef :=
  (Server.projectDirs fs projectsDir).flatMap (fun d =>
    match fs.xmlParseFile (lashGetFqn (lashGetFqn projectsDir d) projectInfoFile) with
    | none => []
    | some doc => fs.listed (lashGetFqn projectsDir d) doc)

/-- The reference after a directory was moved: an info file that is below it moves along. -/
def DataRef.move (old new : Path) (r : DataRef) : DataRef := { r with dir := movedTo old new r.dir }

/-- The store of a client goes when the client is lost: it has no keys. -/
def Client.dropsStore (c : Client) : Bool :=
  configDataSet c.flags && c.store.any (fun st => st.keys = [])

/-- The disk that an input brings along. -/
def Input.disk : Input → Option Fs
  | .outside fs _ => some fs
  | _ => none

namespace Server

/-- The loaded project that an input may move. -/
def moving (s : Server) : Input → Option Addr
  | .projectMove name _ => s.findProjectByName name
  | i => s.closing i

/-- The projects whose info file a step wrote. -/
def written (s s' : Server) : List Addr :=
  (s'.g.log.drop s.g.log.length).filterMap (fun e =>
    match e with
    | .infoWritten a => some a
    | _ => none)

/-- The references after a project was moved, if it was. -/
def movedRefs (s : Server) (i : Input) (s' : Server) (refs : List DataRef) : List DataRef :=
  match s.moving i with
  | none => refs
  | some a =>
    if (s'.project a).directory = (s.project a).directory then refs
    else refs.map (.move (resolve (s.project a).directory) (resolve (s'.project a).directory))

/-- The references after the info file of a project was written; no step touches the disk after
it wrote one. -/
def rewritten (s' : Server) (refs : List DataRef) (a : Addr) : List DataRef :=
  refs.filter (fun r => r.dir ≠ resolve (s'.project a).directory) ++
    ((s'.project a).doc.map (s'.g.fs.listed (s'.project a).directory)).getD []

/-- What the info files refer to after a step. -/
def refer (s : Server) (i : Input) (s' : Server) (refs : List DataRef) : List DataRef :=
  (s.written s').foldl s'.rewritten (s.movedRefs i s' refs)

/-- The daemon, with what the info files refer to. -/
def refAccount (x : Server × List DataRef) (i : Input) : Option (Server × List DataRef) :=
  (x.1.step i).map (fun s' => (s', x.1.refer i s' x.2))

/-! ## When data is kept -/

/-- The `.id` directory of the project that a `Connect` call makes. -/
def newIdDir (s : Server) : Input → Option CStr
  | .connect sender pid cls flags wd argv id =>
    if s.resuming (.connect sender pid cls flags wd argv id) = none ∧ s.loaded = [] then
      (createNewProjectName { s with g := { s.g with nextAddr := s.g.nextAddr + 1 } } []).map
        (fun name => lashGetFqn (lashGetFqn s.g.projectsDir name) projectIdDir)
    else none
  | _ => none

end Server

/-! ## Disks with all that is referred to -/

/-- All that is referred to is on the disk, which is a tree. -/
structure Intact (refs : List DataRef) (fs : Fs) : Prop where
  closed : fs.Closed
  holds : ∀ r ∈ refs, fs.holdsDir r.path = true

variable {refs : List DataRef} {fs : Fs} {p q : Path}

theorem Fs.holdsDir_iff : fs.holdsDir p = true ↔ ∀ q, q <+: p → fs.isDir q = true := by
  rw [holdsDir, List.all_eq_true]
  simp only [List.mem_inits]

theorem DiskOp.Clears.mono {o : DiskOp} (h : o.Clears q) (hp : q <+: p) : o.Clears p := by
  cases o with
  | removeDir d => exact List.IsPrefix.trans h hp
  | removeEmpty d => exact List.IsPrefix.trans h hp
  | rename old new => exact h.imp (fun h => h.trans hp) (fun h => h.trans hp)
  | makeDir _ | writeInfo _ _ | writeNotes _ _ | openStore _ => exact h

theorem Fs.holdsDir_run {o : DiskOp} (ho : ¬ o.Clears p) (h : fs.holdsDir p = true) :
    (o.run fs).holdsDir p = true := by
  rw [holdsDir_iff] at h ⊢
  exact fun q hq => DiskOp.isDir_run (fun hc => ho (hc.mono hq)) (h q hq)

/-- An operation takes away nothing that is referred to. -/
def SparesData (refs : List DataRef) (o : DiskOp) : Prop := ∀ r ∈ refs, ¬ o.Clears r.path

theorem Intact.run {o : DiskOp} (h : Intact refs fs) (ho : SparesData refs o) :
    Intact refs (o.run fs) :=
  ⟨o.run_closed h.closed, fun r hr => Fs.holdsDir_run (ho r hr) (h.holds r hr)⟩

theorem Intact.write {st : Store} (h : Intact refs fs) (hst : st.Ok) :
    Intact refs (storeWrite st fs).2.2 := by
  refine ⟨(hst.write_extends fs).closed h.closed, fun r hr => ?_⟩
  have hholds := h.holds r hr
  rw [Fs.holdsDir_iff] at hholds ⊢
  exact fun q hq => hst.isDir_write (hholds q hq)

/-- Operations that spare the data keep it, whatever the stores do. -/
theorem kept_intact {A : DiskOp → Prop} (h : ∀ o, A o → SparesData refs o) :
    Kept A (Intact refs) (fun _ _ st => st.Ok) where
  op ho hfs := hfs.run (h _ ho)
  next hfs := ⟨hfs.closed, hfs.holds⟩
  write hfs hst := ⟨hfs.write hst, hst.write _⟩
  opened _ _ := (storeOpen_spec _ _).1

/-- No data is where the `.id` directory of a project is. -/
theorem DataRef.path_ne_idDir (r : DataRef) (d : CStr) :
    r.path ≠ resolve (lashGetFqn d projectIdDir) := by
  rw [resolve_fqn d (by decide)]
  intro he
  have hlast := congrArg List.getLast? he
  rw [List.getLast?_concat, path] at hlast
  cases hs : r.store with
  | true =>
      rw [hs, if_pos rfl, List.getLast?_concat] at hlast
      exact absurd hlast (by decide)
  | false =>
      rw [hs, if_neg (by simp), List.append_nil] at hlast
      have hlen : (uuidUnparse r.id).length = 36 := by simp [uuidUnparse]
      rw [show uuidUnparse r.id = projectIdDir by simpa using hlast] at hlen
      exact absurd hlen (by decide)

/-! ## Losing a client -/

/-- A directory with something in it is not removed as an empty one. -/
theorem Fs.removeEmpty_of_there {d : CStr} (h : fs.there q = true) (hq : resolve d <+: q)
    (hne : q ≠ resolve d) : (DiskOp.removeEmpty d).run fs = fs := by
  obtain ⟨x, rfl⟩ := hq
  have hx : x ≠ [] := by
    rintro rfl
    exact hne (List.append_nil _)
  rw [DiskOp.run, if_neg (by rw [Fs.lashDirEmpty_eq_false hx h]; simp)]

/-- Removing a directory if it is empty spares data, unless it is that directory. -/
theorem Intact.removeEmpty {d : CStr} (h : Intact refs fs)
    (hd : ∀ r ∈ refs, r.path = resolve d →
      ∃ q, fs.there q = true ∧ resolve d <+: q ∧ q ≠ resolve d) :
    Intact refs ((DiskOp.removeEmpty d).run fs) := by
  by_cases hany : ∃ r ∈ refs, resolve d <+: r.path
  · -- there is data at the directory or below it, so there is something in it
    obtain ⟨r, hr, hprefix⟩ := hany
    obtain ⟨q, hq, hbelow, hne⟩ : ∃ q, fs.there q = true ∧ resolve d <+: q ∧ q ≠ resolve d := by
      by_cases heq : r.path = resolve d
      · exact hd r hr heq
      · have hdir := Fs.holdsDir_iff.mp (h.holds r hr) _ (List.prefix_refl _)
        exact ⟨r.path, Fs.there_of_isDir hdir, hprefix, heq⟩
    rw [Fs.removeEmpty_of_there hq hbelow hne]
    exact h
  · exact h.run fun r hr hc => hany ⟨r, hr, hc⟩

/-- Losing the store of a client leaves what is not in a store that goes. -/
theorem loseStore_there {c : Client} (hok : ∀ st, c.store = some st → st.Ok)
    (h : fs.there q = true)
    (hq : ∀ st, c.store = some st → c.dropsStore = true → ¬ resolve st.dir <+: q) :
    (loseStore fs c).2.there q = true := by
  unfold loseStore
  cases hst : c.store with
  | none => exact h
  | some st =>
      dsimp only
      by_cases hflag : configDataSet c.flags = true
      · rw [if_neg (by simp [hflag])]
        by_cases hkeys : st.keys = []
        · rw [if_neg (by simp [hkeys])]
          have hdrops : c.dropsStore = true := by simp [Client.dropsStore, hflag, hst, hkeys]
          dsimp only
          split
          · have hget := @Fs.get_lashRemoveDir fs _ _ (hq st hst hdrops)
            rwa [Fs.there, hget]
          · exact h
        · rw [if_pos hkeys]
          exact ((hok st hst).write_extends fs).grows q h
      · rw [if_pos hflag]
        exact h

theorem Intact.loseStore {c : Client} (h : Intact refs fs)
    (hok : ∀ st, c.store = some st → st.Ok)
    (hspares : c.dropsStore = true → ∀ st ∈ c.store, ∀ r ∈ refs, ¬ resolve st.dir <+: r.path) :
    Intact refs (Lash.loseStore fs c).2 := by
  unfold Lash.loseStore
  cases hst : c.store with
  | none => exact h
  | some st =>
      dsimp only
      by_cases hflag : configDataSet c.flags = true
      · rw [if_neg (by simp [hflag])]
        by_cases hkeys : st.keys = []
        · rw [if_neg (by simp [hkeys])]
          have hdrops : c.dropsStore = true := by simp [Client.dropsStore, hflag, hst, hkeys]
          dsimp only
          split
          · exact h.run (o := .removeDir st.dir) fun r hr => hspares hdrops st hst r hr
          · exact h
        · rw [if_pos hkeys]
          exact h.write (hok st hst)
      · rw [if_pos hflag]
        exact h

theorem loseStore_place (fs : Fs) (c : Client) :
    (Lash.loseStore fs c).1.flags = c.flags ∧ (Lash.loseStore fs c).1.dataPath = c.dataPath := by
  unfold Lash.loseStore
  split
  · exact ⟨rfl, rfl⟩
  · split
    · exact ⟨rfl, rfl⟩
    · split <;> exact ⟨rfl, rfl⟩

/-- **Losing a client** keeps the data, if neither its store nor its directory is data that goes. -/
theorem clientDisconnected_intact {s : Session} {c : Client} (h : Intact refs s.g.fs)
    (hok : ∀ st, c.store = some st → st.Ok)
    (hstore : c.dropsStore = true → ∀ st ∈ c.store, ∀ r ∈ refs, ¬ resolve st.dir <+: r.path)
    (hdir : hasInternalState c.flags = true → ∀ r ∈ refs,
      r.path = resolve (c.dataPath.getD []) →
        ∃ e ∈ s.g.fs.below r.path, ∀ st ∈ c.store, c.dropsStore = true → ¬ resolve st.dir <+: e.1) :
    Intact refs (clientDisconnected s c).g.fs := by
  have hlost : Intact refs (Lash.loseStore s.g.fs c).2 := h.loseStore hok hstore
  obtain ⟨hflags, hpath⟩ := loseStore_place s.g.fs c
  have hfs : (clientDisconnected s c).g.fs =
      loseDirs s.p (Lash.loseStore s.g.fs c).2 (Lash.loseStore s.g.fs c).1 := by
    unfold clientDisconnected projectLoseClient
    dsimp only
    unfold projectSetModifiedStatus
    split <;> rfl
  rw [hfs, loseDirs, hflags, hpath]
  split
  · next hflag =>
      have hfirst : Intact refs ((DiskOp.removeEmpty (c.dataPath.getD [])).run
          (Lash.loseStore s.g.fs c).2) := by
        refine hlost.removeEmpty fun r hr hpath => ?_
        obtain ⟨e, he, hout⟩ := hdir hflag r hr hpath
        obtain ⟨hmem, hbelow⟩ := List.mem_filter.mp he
        rw [Bool.and_eq_true, List.isPrefixOf_iff_prefix, bne_iff_ne, hpath] at hbelow
        refine ⟨e.1, ?_, hbelow.1, fun heq => hbelow.2 (by rw [heq])⟩
        refine loseStore_there hok ?_ fun st hst hdrops => hout st hst hdrops
        exact Fs.there_iff.mpr (Or.inr (List.mem_map.mpr ⟨e, hmem, rfl⟩))
      exact hfirst.removeEmpty fun r hr hpath => absurd hpath (r.path_ne_idDir _)
  · exact hlost

/-! ## Moving a project -/

theorem DataRef.path_move {old new : Path} {r : DataRef} (h : old <+: r.dir) :
    (r.move old new).path = new ++ r.path.drop old.length := by
  obtain ⟨x, hx⟩ := h
  unfold move path
  rw [← hx, Fs.movedTo_append]
  simp

theorem DataRef.move_of_not_prefix {old new : Path} {r : DataRef} (h : ¬ old <+: r.dir) :
    r.move old new = r := by
  rw [move, Fs.movedTo_of_not_below h]

/-- **Moving a directory** moves the data along that the info files in it refer to. -/
theorem Intact.rename {old new : CStr} (h : Intact refs fs) (hok : (fs.rename old new).1 = true)
    (hin : ∀ r ∈ refs, resolve old <+: r.path → resolve old <+: r.dir) :
    Intact (refs.map (.move (resolve old) (resolve new))) (fs.rename old new).2 := by
  refine ⟨h.closed.rename old new, fun r' hr' => ?_⟩
  obtain ⟨r, hr, rfl⟩ := List.mem_map.mp hr'
  have hholds := Fs.holdsDir_iff.mp (h.holds r hr)
  rw [Fs.holdsDir_iff]
  by_cases hold : resolve old <+: r.dir
  · rw [DataRef.path_move hold]
    have hpath : resolve old <+: r.path := hold.trans (by
      rw [DataRef.path, List.append_assoc]
      exact List.prefix_append _ _)
    obtain ⟨x, hx⟩ := hpath
    rw [← hx, List.drop_left]
    have hmoved : ∀ y, y <+: x → (fs.rename old new).2.isDir (resolve new ++ y) = true := by
      intro y hy
      rw [Fs.isDir, Fs.get_rename_new hok]
      apply hholds
      rw [← hx]
      exact (List.prefix_append_right_inj _).mpr hy
    intro q hq
    have hcases := List.prefix_or_prefix_of_prefix hq (List.prefix_append (resolve new) x)
    rcases hcases with habove | ⟨y, rfl⟩
    · -- what is above the new place is a directory, as that is there
      by_cases heq : q = resolve new
      · rw [heq, ← List.append_nil (resolve new)]
        exact hmoved [] List.nil_prefix
      · have hway : q ∈ Fs.wayAbove new :=
          (Fs.mem_way (Fs.prefix_mem_way (Fs.resolve_mem_way new) habove)).resolve_right heq
        apply Fs.isDir_rename _ (Fs.isDir_of_rename hok hway)
        intro hp
        rcases (Fs.rename_true hok).1.2.2.2.2.2.2.2 with hsame | ⟨hnot, -⟩
        · exact heq (habove.eq_of_length_le (hsame ▸ hp).length_le)
        · exact hnot (List.isPrefixOf_iff_prefix.mpr (hp.trans habove))
    · exact hmoved y ((List.prefix_append_right_inj _).mp hq)
  · rw [DataRef.move_of_not_prefix hold]
    intro q hq
    have hgone : ¬ resolve old <+: q := fun hp => hold (hin r hr (hp.trans hq))
    exact Fs.isDir_rename hgone (hholds q hq)

/-- The references when a project has gone from one directory to another. -/
def refsMoved (refs : List DataRef) (old new : CStr) : List DataRef :=
  if new = old then refs else refs.map (.move (resolve old) (resolve new))

theorem moveProject_intact {s : Session} {dir : CStr} (h : Intact refs s.g.fs)
    (hne : dir ≠ s.p.directory) (hok : ∀ c ∈ s.p.clients, ∀ st, c.store = some st → st.Ok)
    (hin : ∀ r ∈ refs, resolve s.p.directory <+: r.path → resolve s.p.directory <+: r.dir) :
    Intact (refsMoved refs s.p.directory (moveProject s dir).p.directory)
      (moveProject s dir).g.fs := by
  unfold moveProject
  have hkept : Kept (SparesData refs) (Intact refs) (fun _ _ st => st.Ok) :=
    kept_intact fun _ ho => ho
  have hstores : ∀ c ∈ s.p.clients, c.StoreIs (fun _ st => st.Ok) := hok
  obtain ⟨hclosed, hnone⟩ := hkept.closeStores (a := 0) h hstores
  rcases hc : closeStores s.g.fs s.p.clients with ⟨clients, fs⟩
  rw [hc] at hclosed hnone
  dsimp only at hclosed hnone ⊢
  rcases hr : fs.rename s.p.directory dir with ⟨_ | _, fs'⟩
  · rw [refsMoved, if_pos (by rfl)]
    have hfs : fs' = fs.next := by
      have hfalse := @Fs.rename_false fs s.p.directory dir (by rw [hr])
      rwa [hr] at hfalse
    show Intact refs fs'
    rw [hfs]
    exact hkept.next hclosed
  · have hmoved := @Intact.rename _ _ s.p.directory dir hclosed (by rw [hr]) hin
    rw [hr] at hmoved
    have hkept' : Kept (SparesData (refs.map (.move (resolve s.p.directory) (resolve dir))))
        (Intact _) (fun _ _ st => st.Ok) := kept_intact fun _ ho => ho
    have hopened := (hkept'.openStores (a := 0) (p := { s.p with directory := dir })
      (l := clients) hmoved (fun c hc => Client.StoreIs.none (hnone c hc).1)
      (fun _ _ _ h => h) (fun _ _ _ _ h => h)).1
    show Intact (refsMoved refs s.p.directory dir) _
    rw [refsMoved, if_neg hne]
    exact hopened

/-- **A project that is moved** takes the data along, and one that cannot be moved keeps it. -/
theorem projectMove_intact {s : Session} {dir : CStr} (h : Intact refs s.g.fs)
    (hok : ∀ c ∈ s.p.clients, ∀ st, c.store = some st → st.Ok)
    (hin : ∀ r ∈ refs, resolve s.p.directory <+: r.path → resolve s.p.directory <+: r.dir) :
    Intact (refsMoved refs s.p.directory (projectMove s dir).p.directory)
      (projectMove s dir).g.fs := by
  have hkept : Kept (SparesData refs) (Intact refs) (fun _ _ st => st.Ok) :=
    kept_intact fun _ ho => ho
  rcases projectMove_cases s dir with ⟨-, he | he⟩ | ⟨htries, he⟩
  · rw [he, refsMoved, if_pos rfl]
    exact h
  · rw [he]
    show Intact (refsMoved refs s.p.directory s.p.directory) _
    rw [refsMoved, if_pos rfl]
    exact hkept.next h
  · rw [he]
    exact @moveProject_intact _ (s.setFs s.g.fs.next) dir (hkept.next h) htries.2.1 hok hin

/-- **Closing a project** keeps the data; what is removed is a project that was never saved. -/
theorem projectUnload_intact {s : Session} (h : Intact refs s.g.fs)
    (hin : ∀ r ∈ refs, resolve s.p.directory <+: r.path → resolve s.p.directory <+: r.dir)
    (hunsaved : s.p.doc = none → ∀ r ∈ refs, ¬ resolve s.p.directory <+: r.path ∧
      (s.p.moveOnClose = true →
        ¬ resolve (moveOnCloseTarget s.g.projectsDir s.p.name) <+: r.path)) :
    Intact (refsMoved refs s.p.directory (projectUnload s).p.directory) (projectUnload s).g.fs := by
  unfold projectUnload
  dsimp only
  generalize hu : Session.mk _ _ = u
  have hup : u.p = { s.p with clients := [], lostClients := [] } := by rw [← hu]; rfl
  have hug : u.g.fs = s.g.fs ∧ u.g.projectsDir = s.g.projectsDir := by rw [← hu]; exact ⟨rfl, rfl⟩
  have hdir : u.p.directory = s.p.directory := by rw [hup]
  have hnil : u.p.clients = [] := by rw [hup]
  rw [← hug.1] at h
  rw [← hdir] at hin hunsaved ⊢
  -- the move, and where the project is now
  have hmoved : Intact (refsMoved refs u.p.directory (unloadMove u).p.directory)
      (unloadMove u).g.fs ∧ (unloadMove u).p.doc = s.p.doc ∧
      ((unloadMove u).p.directory = u.p.directory ∨ s.p.moveOnClose = true ∧
        (unloadMove u).p.directory = moveOnCloseTarget s.g.projectsDir s.p.name) := by
    unfold unloadMove
    rw [hug.2, show u.p.name = s.p.name by rw [hup],
      show u.p.moveOnClose = s.p.moveOnClose by rw [hup]]
    split
    · next hclose =>
        obtain ⟨-, hdoc, hd⟩ := projectMove_head u (moveOnCloseTarget s.g.projectsDir s.p.name)
        refine ⟨projectMove_intact h (by simp [hnil]) hin, ?_, hd.imp_right fun hd => ⟨hclose, hd⟩⟩
        rw [hdoc, hup]
    · refine ⟨?_, by rw [hup], Or.inl rfl⟩
      rw [refsMoved, if_pos rfl]
      exact h
  obtain ⟨hintact, hdoc, hplace⟩ := hmoved
  unfold unloadRemove
  split
  · next hnone =>
      rw [hdoc, Option.isNone_iff_eq_none] at hnone
      refine hintact.run (o := .removeDir (unloadMove u).p.directory) fun r' hr' => ?_
      have hspares := hunsaved hnone.1
      show ¬ resolve _ <+: _
      unfold refsMoved at hr'
      split at hr'
      · next heq =>
          rw [heq]
          exact (hspares r' hr').1
      · next hne =>
          obtain ⟨r, hr, rfl⟩ := List.mem_map.mp hr'
          have hdirs : r.dir <+: r.path := by
            rw [DataRef.path, List.append_assoc]
            exact List.prefix_append _ _
          rw [DataRef.move_of_not_prefix fun hp => (hspares r hr).1 (hp.trans hdirs)]
          obtain ⟨hclose, htarget⟩ := hplace.resolve_left hne
          rw [htarget]
          exact (hspares r hr).2 hclose
  · exact hintact

namespace Server

variable {s s' t : Server} {a : Addr} {i : Input}

/-! ## When data is kept -/

/-- An input that leaves what the info files refer to where it is. -/
structure KeepsData (s : Server) (refs : List DataRef) (i : Input) : Prop where
  /-- No save begins when a client was lost whose data is referred to. -/
  clearing : ∀ a ∈ s.saving i, (s.project a).taskType = .idle → ∀ c ∈ (s.project a).lostClients,
    ∀ d ∈ c.dataPath, ∀ r ∈ refs, ¬ resolve d <+: r.path
  /-- No client is lost whose store is referred to and has no keys. -/
  emptyStore : ∀ x ∈ s.leaving i, x.2.dropsStore = true → ∀ st ∈ x.2.store, ∀ r ∈ refs,
    ¬ resolve st.dir <+: r.path
  /-- No client is lost whose data directory is referred to and has nothing in it but perhaps a
  store without keys. -/
  emptyDir : ∀ x ∈ s.leaving i, hasInternalState x.2.flags = true → ∀ r ∈ refs,
    r.path = resolve (x.2.dataPath.getD []) →
      ∃ e ∈ s.g.fs.below r.path, ∀ st ∈ x.2.store, x.2.dropsStore = true → ¬ resolve st.dir <+: e.1
  /-- No data is in the `.id` directory that a new project finds. -/
  newborn : ∀ d ∈ s.newIdDir i, ∀ r ∈ refs, ¬ resolve d <+: r.path
  /-- No project is closed that was never saved and has data in its directory, or where it is to be
  moved. -/
  unsaved : ∀ a ∈ s.closing i, (s.project a).doc = none → ∀ r ∈ refs,
    ¬ resolve (s.project a).directory <+: r.path ∧ ((s.project a).moveOnClose = true →
      ¬ resolve (moveOnCloseTarget s.g.projectsDir (s.project a).name) <+: r.path)
  /-- No project is moved away from within the data of a client. -/
  moving : ∀ a ∈ s.moving i, ∀ r ∈ refs, resolve (s.project a).directory <+: r.path →
    resolve (s.project a).directory <+: r.dir
  /-- Others leave the data alone, and the disk a tree. -/
  outside : ∀ fs ∈ i.disk, Intact refs fs

/-- What an input causes spares the data, if it neither takes a client away nor closes, moves or
makes a project. -/
theorem KeepsData.spares {refs : List DataRef} (hi : s.KeepsData refs i)
    (hleave : s.leaving i = none) (hmove : s.moving i = none)
    (hjoin : s.resuming i = none → ∀ sender pid cls flags wd argv id,
      i ≠ .connect sender pid cls flags wd argv id)
    {o : DiskOp} (ho : s.MayDo i o) : SparesData refs o := by
  have hclose : s.closing i = none := by
    cases i with
    | projectMove name path => rfl
    | _ => exact hmove
  cases ho with
  | newProject hc hnone => exact absurd hc (hjoin hnone _ _ _ _ _ _ _)
  | clear hs hidle hc hd => exact hi.clearing _ hs hidle _ hc _ hd
  | lose hl => rw [hleave] at hl; simp at hl
  | close hc => rw [hclose] at hc; simp at hc
  | move hi ha =>
      subst hi
      rw [show s.moving (.projectMove _ _) = s.findProjectByName _ from rfl, ha] at hmove
      simp at hmove
  | makeDir | joinStore | resumeStore | resumeInfo | reportInfo | notes | saveInfo | moveStore =>
      exact fun _ _ hc => hc

/-- Inputs that neither take a client away nor move a project. -/
theorem quiet_of_aims (h : (s.reporting i).isSome ∨ (s.progressing i).isSome ∨ (s.saving i).isSome ∨
    (s.restoring i).isSome ∨ (s.adding i).isSome ∨
    ∃ project client dep, i = .removeDependency project client dep) :
    s.leaving i = none ∧ s.moving i = none ∧
      ∀ sender pid cls flags wd argv id, i ≠ .connect sender pid cls flags wd argv id := by
  cases i <;> simp [reporting, progressing, saving, restoring, adding] at h <;>
    exact ⟨rfl, rfl, by simp⟩

/-- What is referred to after a step was referred to before, or is there. -/
theorem mem_refer {refs : List DataRef} {r : DataRef} (hr : r ∈ s.refer i s' refs) :
    r ∈ s.movedRefs i s' refs ∨ s'.g.fs.holdsDir r.path = true := by
  unfold refer at hr
  revert hr
  generalize s.movedRefs i s' refs = refs'
  generalize s.written s' = l
  induction l generalizing refs' with
  | nil => exact Or.inl
  | cons a l ih =>
      intro hr
      rw [List.foldl_cons] at hr
      rcases ih _ hr with hmem | hholds
      · rcases List.mem_append.mp hmem with hold | hnew
        · exact Or.inl (List.mem_filter.mp hold).1
        · right
          cases hdoc : (s'.project a).doc with
          | none => rw [hdoc] at hnew; simp at hnew
          | some doc =>
              rw [hdoc] at hnew
              exact (List.mem_filter.mp hnew).2
      · exact Or.inr hholds

/-- Nothing has moved if no project has another directory. -/
theorem movedRefs_of_directory {refs : List DataRef}
    (h : ∀ a, (s'.project a).directory = (s.project a).directory) :
    s.movedRefs i s' refs = refs := by
  unfold movedRefs
  cases s.moving i with
  | none => rfl
  | some a => exact if_pos (h a)

/-- A new project is made if and only if none is loaded. -/
theorem getNewbornProject_loaded (h : s.getNewbornProject = some (t, a)) :
    (t = s ∧ a ∈ s.loaded) ∨ s.loaded = [] ∧ s.createNewProject = some (t, a) := by
  unfold getNewbornProject at h
  split at h
  · next b hb =>
      obtain ⟨rfl, rfl⟩ := Prod.mk.inj (Option.some.inj h)
      exact Or.inl ⟨rfl, List.mem_of_find?_eq_some hb⟩
  · split at h
    · next b hb =>
        obtain ⟨rfl, rfl⟩ := Prod.mk.inj (Option.some.inj h)
        exact Or.inl ⟨rfl, List.mem_of_getLast? hb⟩
    · next hnone => exact Or.inr ⟨List.getLast?_eq_none_iff.mp hnone, h⟩

theorem createNewProject_directory (h : s.createNewProject = some (t, a)) :
    ∃ name, s.createNewProjectName [] = some name ∧
      (t.project a).directory = lashGetFqn s.g.projectsDir name := by
  unfold createNewProject at h
  split at h
  · exact absurd h (by simp)
  · next name hname =>
      obtain ⟨rfl, rfl⟩ := Prod.mk.inj (Option.some.inj h)
      refine ⟨name, hname, ?_⟩
      show ((s.setSession _ _).project _).directory = _
      rw [setSession_project_self]

/-- **A step keeps the data** in place, with all that is referred to afterwards. -/
theorem KeepsData.step {refs : List DataRef} (hi : s.KeepsData refs i) (hw : s.Wf)
    (hst : s.StoresOk) (h : Intact refs s.g.fs) (hs : s.step i = some s') :
    Intact (s.refer i s' refs) s'.g.fs := by
  -- it is enough to look at what was referred to before
  have hrefer : Intact (s.movedRefs i s' refs) s'.g.fs → Intact (s.refer i s' refs) s'.g.fs := by
    intro hmoved
    refine ⟨hmoved.closed, fun r hr => ?_⟩
    rcases mem_refer hr with hmem | hholds
    · exact hmoved.holds r hmem
    · exact hholds
  apply hrefer
  have hquiet : s.moving i = none → Intact refs s'.g.fs →
      Intact (s.movedRefs i s' refs) s'.g.fs := by
    intro hnone hfs
    unfold movedRefs
    rw [hnone]
    exact hfs
  have hsame : (∀ a, (s'.project a).directory = (s.project a).directory) → s'.g.fs = s.g.fs →
      Intact (s.movedRefs i s' refs) s'.g.fs := by
    intro hdir hfs
    rw [movedRefs_of_directory hdir, hfs]
    exact h
  -- inputs whose operations all spare the data
  have hall : s.leaving i = none → s.moving i = none →
      (s.resuming i = none → ∀ sender pid cls flags wd argv id,
        i ≠ .connect sender pid cls flags wd argv id) →
      Intact (s.movedRefs i s' refs) s'.g.fs := by
    intro hleave hmove hjoin
    refine hquiet hmove ?_
    refine (step_has (kept_intact fun o ho => hi.spares hleave hmove hjoin ho) hw
      ⟨h, hst.live, hst.lost⟩ (fun a u c ok hr => hst.reporting hr) ?_ hs).disk
    rintro fs forks rfl
    exact hi.outside fs rfl
  have haims := fun hq => by
    obtain ⟨h₁, h₂, h₃⟩ := @quiet_of_aims s i hq
    exact hall h₁ h₂ fun _ => h₃
  cases step_deed hs with
  | nothing => exact hsame (fun _ => rfl) rfl
  | children childs => exact hsame (fun _ => rfl) rfl
  | outside fs forks => exact hall rfl rfl (by simp)
  | @join sender pid cls flags wd argv id t a u hres hborn hu =>
      refine hquiet rfl ?_
      have hkept : Kept (SparesData refs) (Intact refs) (fun _ _ st => st.Ok) :=
        kept_intact fun _ ho => ho
      have hbegin : Has (Intact refs) (fun _ _ st => st.Ok)
          { s with g := { s.g with nextAddr := s.g.nextAddr + 1 } } := ⟨h, hst.live, hst.lost⟩
      have ht : t.Has (Intact refs) (fun _ _ st => st.Ok) := by
        rcases getNewbornProject_loaded hborn with ⟨rfl, -⟩ | ⟨hnil, hnew⟩
        · exact hbegin
        · obtain ⟨name, hname, hdir⟩ := createNewProject_directory hnew
          refine createNewProject_has hkept hbegin hnew ?_
          rw [hdir]
          refine hi.newborn _ ?_
          rw [Option.mem_def, newIdDir, if_pos ⟨hres, hnil⟩, hname]
          rfl
      have haddr := (hw.newborn hborn).addr
      have hjoin : ((t.session a).emit (.connected a s.g.nextAddr sender)).Has (Intact refs)
          (fun _ _ st => st.Ok) := ⟨ht.disk, ht.live a, ht.lost a⟩
      exact (hkept.newClient hjoin rfl (fun _ _ _ hc => hc) (fun _ _ hc => hc) hu).disk
  | resume hres ha hc hu => exact hall rfl rfl (fun hnone => by rw [hnone] at hres; simp at hres)
  | @leave i a c childs hl ha hc =>
      have hnone : s.moving i = none := by
        cases i <;> first | rfl | exact absurd hl (by simp [leaving])
      exact hquiet hnone (clientDisconnected_intact h (hst.live a c hc) (hi.emptyStore _ hl)
        (hi.emptyDir _ hl))
  | complete hr ha hv => exact haims (Or.inl (by rw [hr]; rfl))
  | progress n ha hc hp => exact haims (Or.inr (Or.inl (by rw [hp]; rfl)))
  | save hv ha => exact haims (Or.inr (Or.inr (Or.inl (by rw [hv]; rfl))))
  | @close i a hc ha =>
      have hmove : s.moving i = some a := by
        cases i <;> first | exact hc | exact absurd hc (by simp [closing])
      have hclosed := projectUnload_intact (s := s.session a) h (hi.moving a hmove)
        (hi.unsaved a hc)
      have hp : (s.closeProject a).project a = (projectUnload (s.session a)).p :=
        setSession_project_self _ _ _
      unfold movedRefs
      rw [hmove]
      dsimp only
      rw [hp]
      exact hclosed
  | restore ha hnot hr ht =>
      exact haims (Or.inr (Or.inr (Or.inr (Or.inl (by rw [hr]; rfl)))))
  | depend hd ha hc hdep =>
      exact haims (Or.inr (Or.inr (Or.inr (Or.inr (Or.inl (by rw [hd]; rfl))))))
  | undepend id hd ha hc => exact haims (Or.inr (Or.inr (Or.inr (Or.inr (Or.inr hd)))))
  | @launch i a c g d ha hc hd =>
      refine hsame (fun b => ?_) (projectLaunchClient_store hd).1
      by_cases hb : b = a
      · rw [hb, setSession_project_self]
      · rw [setSession_project_ne _ _ hb]
  | rename ha => exact hall rfl rfl (by simp)
  | describe ha => exact hall rfl rfl (by simp)
  | note ha => exact hall rfl rfl (by simp)
  | @move a name path hfind ha =>
      have hmoved := @projectMove_intact _ (s.session a) path h (hst.live a) (hi.moving a hfind)
      unfold movedRefs
      rw [show s.moving (.projectMove name path) = some a from hfind]
      dsimp only
      rw [setSession_project_self]
      exact hmoved

/-! ## Runs -/

/-- **What the info files refer to is there** in every state of every run in which no step takes it
away before the info file is written anew. -/
theorem listed_data_there {fs : Fs} {dir : CStr} (hfs : fs.Closed) {x : Server × List DataRef}
    (h : Runs.Reach refAccount (fun x i => x.1.KeepsData x.2 i) (start fs dir, fs.found dir) x) :
    ∀ r ∈ x.2, x.1.g.fs.holdsDir r.path = true := by
  have hs := start_starting fs dir
  have hfound : Intact (fs.found dir) (start fs dir).g.fs := by
    rw [start_fs]
    refine ⟨hfs, fun r hr => ?_⟩
    obtain ⟨d, -, hr⟩ := List.mem_flatMap.mp hr
    cases hdoc : fs.xmlParseFile (lashGetFqn (lashGetFqn dir d) projectInfoFile) with
    | none => rw [hdoc] at hr; exact absurd hr List.not_mem_nil
    | some doc =>
        rw [hdoc] at hr
        exact (List.mem_filter.mp hr).2
  refine (h.invariant (I := fun x => (x.1.Wf ∧ x.1.StoresOk) ∧ Intact x.2 x.1.g.fs)
    ⟨⟨hs.wf, hs.has trivial _⟩, hfound⟩ ?_).2.holds
  rintro ⟨s, refs⟩ i ⟨s', refs'⟩ _ ⟨⟨hw, hst⟩, hintact⟩ hi hstep
  obtain ⟨t, ht, he⟩ := Option.map_eq_some_iff.mp hstep
  cases he
  exact ⟨⟨(hw.step_answers ht).wf hw, hst.step hw ht⟩, hi.step hw hst hintact ht⟩

instance (refs : List DataRef) (fs : Fs) : Decidable (Intact refs fs) :=
  decidable_of_iff (fs.Closed ∧ ∀ r ∈ refs, fs.holdsDir r.path = true)
    ⟨fun h => ⟨h.1, h.2⟩, fun h => ⟨h.1, h.2⟩⟩

set_option synthInstance.maxSize 512 in
instance (s : Server) (refs : List DataRef) (i : Input) : Decidable (s.KeepsData refs i) :=
  decidable_of_iff
    ((∀ a ∈ s.saving i, (s.project a).taskType = .idle → ∀ c ∈ (s.project a).lostClients,
        ∀ d ∈ c.dataPath, ∀ r ∈ refs, ¬ resolve d <+: r.path) ∧
      (∀ x ∈ s.leaving i, (x.2.dropsStore = true → ∀ st ∈ x.2.store, ∀ r ∈ refs,
          ¬ resolve st.dir <+: r.path) ∧
        (hasInternalState x.2.flags = true → ∀ r ∈ refs,
          r.path = resolve (x.2.dataPath.getD []) → ∃ e ∈ s.g.fs.below r.path, ∀ st ∈ x.2.store,
            x.2.dropsStore = true → ¬ resolve st.dir <+: e.1)) ∧
      (∀ d ∈ s.newIdDir i, ∀ r ∈ refs, ¬ resolve d <+: r.path) ∧
      (∀ a ∈ s.closing i, (s.project a).doc.isNone = true → ∀ r ∈ refs,
        ¬ resolve (s.project a).directory <+: r.path ∧ ((s.project a).moveOnClose = true →
          ¬ resolve (moveOnCloseTarget s.g.projectsDir (s.project a).name) <+: r.path)) ∧
      (∀ a ∈ s.moving i, ∀ r ∈ refs, resolve (s.project a).directory <+: r.path →
        resolve (s.project a).directory <+: r.dir) ∧
      ∀ fs ∈ i.disk, Intact refs fs)
    ⟨fun ⟨h₁, h₂, h₃, h₄, h₅, h₆⟩ => ⟨h₁, fun x hx => (h₂ x hx).1, fun x hx => (h₂ x hx).2, h₃,
        fun a ha hd => h₄ a ha (by rw [hd]; rfl), h₅, h₆⟩,
      fun h => ⟨h.clearing, fun x hx => ⟨h.emptyStore x hx, h.emptyDir x hx⟩, h.newborn,
        fun a ha hd => h.unsaved a ha (Option.isNone_iff_eq_none.mp hd), h.moving, h.outside⟩⟩

/-- A data set is saved, the client is lost, and the project is renamed and closed: its data has
moved along. -/
theorem listed_data_there_moved :
    ∃ x, Runs.Reach refAccount (fun x i => x.1.KeepsData x.2 i)
        (start emptyDisk (cstr "/p"), emptyDisk.found (cstr "/p")) x ∧
      (∀ r ∈ x.2, x.1.g.fs.holdsDir r.path = true) ∧
      x.2 = [⟨[cstr "p", cstr "song"], 1, false⟩, ⟨[cstr "p", cstr "song"], 1, true⟩] := by
  have hrun : (Runs.exec refAccount (fun x i => x.1.KeepsData x.2 i)
      (start emptyDisk (cstr "/p"), emptyDisk.found (cstr "/p"))
      [.connect (cstr ":1") 5 (cstr "synth") flagConfigDataSet [] [cstr "synth"] 1,
        .projectSave (cstr "New Project"),
        .commitDataSet (cstr ":1")
          [.uint64 1, .array [numberElem (cstr "x") (by decide +kernel) 7]],
        .nameLost (cstr ":1"),
        .projectRename (cstr "New Project") (cstr "song"),
        .projectClose (cstr "song")]).any (fun x =>
      x.2 = [⟨[cstr "p", cstr "song"], 1, false⟩, ⟨[cstr "p", cstr "song"], 1, true⟩]) = true := by
    decide +kernel
  obtain ⟨x, hx, hrefs⟩ := Runs.Reach.exists_of_exec hrun
  exact ⟨x, hx, listed_data_there (by decide) hx, of_decide_eq_true hrefs⟩

/-- The next save begins after the client was lost. Its data is gone while the info file, which
another client is waited for to write, still refers to it. -/
theorem data_removed_before_info :
    (Runs.exec refAccount (fun _ _ => True)
      (start emptyDisk (cstr "/p"), emptyDisk.found (cstr "/p"))
      [.connect (cstr ":1") 5 (cstr "synth") flagConfigDataSet [] [cstr "synth"] 1,
        .connect (cstr ":2") 6 (cstr "synth") flagConfigFile [] [cstr "synth"] 2,
        .projectSave (cstr "New Project"),
        .commitDataSet (cstr ":1")
          [.uint64 1, .array [numberElem (cstr "x") (by decide +kernel) 7]],
        .progress (cstr ":2") [.uint64 1, .byte 255],
        .nameLost (cstr ":1"),
        .projectSave (cstr "New Project")]).any (fun x =>
      x.2.any (fun r => !x.1.g.fs.holdsDir r.path) && (x.1.project 1).taskType = .save) = true := by
  decide +kernel

end Server

end Lash
