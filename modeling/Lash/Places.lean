import Lash.Document
import Lash.Modified
import Lash.LastDataSet
import Lash.Offers
import Lash.Departures

/-!
# Where clients keep their data

A client has a data path, which is computed once and then kept, and perhaps a store, which has a
directory of its own. `Client.SamePlace` says that neither has changed; nearly everything the
daemon does leaves all clients in their places. `Server.Placed` lists the exceptions: a client
that joins or is back, a project that is moved, closed or restored.
-/

namespace Lash

/-! ## Places -/

/-- Nothing has changed in where a client keeps its data. -/
structure Client.SamePlace (c d : Client) : Prop where
  addr : d.addr = c.addr
  idStr : d.idStr = c.idStr
  dataPath : d.dataPath = c.dataPath
  dataSet : configDataSet d.flags = configDataSet c.flags
  store : d.store.map Store.dir = c.store.map Store.dir

namespace Client.SamePlace

variable {c d e : Client}

theorem refl (c : Client) : c.SamePlace c := ⟨rfl, rfl, rfl, rfl, rfl⟩

theorem trans (h : c.SamePlace d) (h' : d.SamePlace e) : c.SamePlace e :=
  ⟨h'.addr.trans h.addr, h'.idStr.trans h.idStr, h'.dataPath.trans h.dataPath,
    h'.dataSet.trans h.dataSet, h'.store.trans h.store⟩

end Client.SamePlace

/-- Every client of `l'` is in the place of a client of `l`. -/
def PlacesFrom (l l' : List Client) : Prop := ∀ d ∈ l', ∃ c ∈ l, c.SamePlace d

namespace PlacesFrom

variable {l l' l'' : List Client} {c d : Client}

theorem refl (l : List Client) : PlacesFrom l l := Keyed.From.refl .refl l

theorem trans (h : PlacesFrom l l') (h' : PlacesFrom l' l'') : PlacesFrom l l'' :=
  Keyed.From.trans .trans h h'

/-- A client is written back. -/
theorem put (h : PlacesFrom l l')
    (hd : ∃ c ∈ l, c.SamePlace d) : PlacesFrom l (putClient d l') :=
  Keyed.From.put h hd

end PlacesFrom

/-- A client is in its place and is who it was. -/
structure Client.Same (c d : Client) : Prop extends c.SamePlace d where
  name : d.name = c.name
  cls : d.cls = c.cls

namespace Client.Same

variable {c d e : Client}

theorem refl (c : Client) : c.Same c := ⟨.refl c, rfl, rfl⟩

theorem trans (h : c.Same d) (h' : d.Same e) : c.Same e :=
  ⟨h.toSamePlace.trans h'.toSamePlace, h'.name.trans h.name, h'.cls.trans h.cls⟩

/-- What a client has in its store does not matter. -/
theorem storing {st st' : Store} (hst : c.store = some st) (hdir : st'.dir = st.dir) :
    c.Same { c with store := some st' } :=
  ⟨⟨rfl, rfl, rfl, rfl, by rw [hst]; exact congrArg some hdir⟩, rfl, rfl⟩

end Client.Same

/-- Every client of `l'` is a client of `l`. -/
def ClientsFrom (l l' : List Client) : Prop := Keyed.From Client.Same l l'

namespace ClientsFrom

variable {l l' l'' : List Client} {c d : Client}

theorem refl (l : List Client) : ClientsFrom l l := Keyed.From.refl .refl l

theorem nil (l : List Client) : ClientsFrom l [] := Keyed.From.nil _ l

theorem trans (h : ClientsFrom l l') (h' : ClientsFrom l' l'') : ClientsFrom l l'' :=
  Keyed.From.trans .trans h h'

theorem of_subset (h : ∀ d ∈ l', d ∈ l) : ClientsFrom l l' := Keyed.From.of_subset .refl h

theorem cons (hd : ∃ c ∈ l, c.Same d) (h : ClientsFrom l l') : ClientsFrom l (d :: l') :=
  Keyed.From.cons hd h

/-- A client is written back. -/
theorem put (h : ClientsFrom l l') (hd : ∃ c ∈ l, c.Same d) : ClientsFrom l (putClient d l') :=
  Keyed.From.put h hd

/-- A client is taken out. -/
theorem del (a : Addr) (l : List Client) : ClientsFrom l (delClient a l) :=
  .of_subset fun _ he => (Keyed.mem_del.mp he).1

theorem places (h : ClientsFrom l l') : PlacesFrom l l' := Keyed.From.mono Client.Same.toSamePlace h

end ClientsFrom

/-- A project is where it was and so are its clients. -/
structure Project.SamePlaces (p p' : Project) : Prop where
  directory : p'.directory = p.directory
  live : PlacesFrom p.clients p'.clients
  lost : PlacesFrom p.lostClients p'.lostClients

/-- The same, and the clients are who they were. -/
structure Project.Same (p p' : Project) : Prop where
  directory : p'.directory = p.directory
  live : ClientsFrom p.clients p'.clients
  lost : ClientsFrom p.lostClients p'.lostClients

namespace Project.Same

variable {p p' p'' : Project} {c : Client}

theorem refl (p : Project) : p.Same p := ⟨rfl, .refl _, .refl _⟩

theorem trans (h : p.Same p') (h' : p'.Same p'') : p.Same p'' :=
  ⟨h'.directory.trans h.directory, h.live.trans h'.live, h.lost.trans h'.lost⟩

theorem of_eq (hdir : p'.directory = p.directory) (hlive : p'.clients = p.clients)
    (hlost : p'.lostClients = p.lostClients) : p.Same p' :=
  ⟨hdir, hlive ▸ .refl _, hlost ▸ .refl _⟩

/-- A client is written back. -/
theorem put (h : p.Same p') (hc : ∃ b ∈ p.clients, b.Same c) : p.Same (p'.put c) :=
  ⟨h.directory, h.live.put hc, h.lost⟩

theorem places (h : p.Same p') : p.SamePlaces p' := ⟨h.directory, h.live.places, h.lost.places⟩

end Project.Same

/-! ## Stores and flags -/

@[simp] theorem storeWrite_dir (st : Store) (fs : Fs) : (storeWrite st fs).2.1.dir = st.dir := by
  unfold storeWrite
  dsimp only
  split_ifs <;> rfl

@[simp] theorem commitConfigs_dir (st : Store) (elems : List ArrayElem) :
    (commitConfigs st elems).2.dir = st.dir := by
  rw [(commitConfigs_eq st elems).1]
  induction taken elems generalizing st with
  | nil => rfl
  | cons x l ih =>
      rw [Store.setAll, List.foldl_cons]
      refine (ih _).trans ?_
      unfold storeSetConfig
      split
      · rfl
      · dsimp only
        split <;> rfl

/-- `client_store_open` gives a client a store in a directory, whatever it finds there. -/
theorem clientStoreOpen_store (fs : Fs) (c : Client) (dir : CStr) :
    (clientStoreOpen fs c dir).2.1.store.map Store.dir = some dir := by
  unfold clientStoreOpen
  exact congrArg some (storeOpen_spec dir _).2.1

variable {s t : Session} {c d : Client}

theorem projectNameClient_samePlace {p : Project} (h : projectNameClient p c = some d) :
    c.SamePlace d := by
  unfold projectNameClient at h
  split at h
  · exact absurd h (by simp)
  · rw [← Option.some.inj h]
    exact ⟨rfl, rfl, rfl, rfl, rfl⟩

theorem nameIfUnnamed_samePlace {p : Project} (h : nameIfUnnamed p c = some d) : c.SamePlace d := by
  unfold nameIfUnnamed at h
  split at h
  · exact projectNameClient_samePlace h
  · rw [← Option.some.inj h]
    exact .refl c

theorem loseStore_keeps (fs : Fs) (c : Client) : c.Same (loseStore fs c).1 := by
  unfold loseStore
  split
  · exact .refl c
  · next st hst =>
      split
      · exact .refl c
      · split
        · exact .storing hst (storeWrite_dir st fs)
        · exact .refl c

theorem projectLaunchClient_keeps {g g' : Globals} {p : Project}
    (h : projectLaunchClient g p c = some (g', d)) : c.Same d := by
  obtain ⟨⟨pid, rfl⟩, -⟩ := projectLaunchClient_spec h
  exact ⟨⟨rfl, rfl, rfl, rfl, rfl⟩, rfl, rfl⟩

theorem satisfyLost_keeps {p : Project} {id : Uuid} {g g' : Globals} {l l' : List Client}
    (h : satisfyLost p id g l = some (g', l')) : ClientsFrom l l' := by
  induction l generalizing g l' with
  | nil =>
      obtain ⟨-, rfl⟩ := Prod.mk.inj (Option.some.inj h)
      exact .nil _
  | cons c l ih =>
      have hrest : ∀ {g₁ : Globals} {d : Client}, c.Same d →
          (satisfyLost p id g₁ l).map (fun r => (r.1, d :: r.2)) = some (g', l') →
          ClientsFrom (c :: l) l' := by
        intro g₁ d hd hmap
        obtain ⟨⟨g₂, l₂⟩, h₂, he⟩ := Option.map_eq_some_iff.mp hmap
        obtain ⟨rfl, rfl⟩ := Prod.mk.inj he
        refine .cons ⟨c, List.mem_cons_self, hd⟩ ?_
        exact ClientsFrom.trans (.of_subset (fun e he => List.mem_cons_of_mem _ he)) (ih h₂)
      have hfree : c.Same
          { c with unsatisfiedDeps := clientDependencyRemove c.unsatisfiedDeps id } :=
        ⟨⟨rfl, rfl, rfl, rfl, rfl⟩, rfl, rfl⟩
      rw [satisfyLost] at h
      split at h
      · exact hrest (.refl c) h
      · dsimp only at h
        split at h
        · split at h
          · exact absurd h (by simp)
          · next g₁ d hlaunch => exact hrest (hfree.trans (projectLaunchClient_keeps hlaunch)) h
        · exact hrest hfree h

theorem restoreClients_keeps {p : Project} {g g' : Globals} {l l' : List Client}
    (h : restoreClients p g l = some (g', l')) : ClientsFrom l l' := by
  induction l generalizing g l' with
  | nil =>
      obtain ⟨-, rfl⟩ := Prod.mk.inj (Option.some.inj h)
      exact .nil _
  | cons c l ih =>
      have hrest : ∀ {g₁ : Globals} {d : Client}, c.Same d →
          (restoreClients p g₁ l).map (fun r => (r.1, d :: r.2)) = some (g', l') →
          ClientsFrom (c :: l) l' := by
        intro g₁ d hd hmap
        obtain ⟨⟨g₂, l₂⟩, h₂, he⟩ := Option.map_eq_some_iff.mp hmap
        obtain ⟨rfl, rfl⟩ := Prod.mk.inj he
        refine .cons ⟨c, List.mem_cons_self, hd⟩ ?_
        exact ClientsFrom.trans (.of_subset (fun e he => List.mem_cons_of_mem _ he)) (ih h₂)
      rw [restoreClients] at h
      have hsane : c.Same
          (clientDependencyInitUnsatisfied (clientDependencyListSanityCheck p.lostClients c)) :=
        ⟨⟨rfl, rfl, rfl, rfl, rfl⟩, rfl, rfl⟩
      split at h
      · exact hrest hsane h
      · split at h
        · exact absurd h (by simp)
        · next g₁ d hlaunch => exact hrest (hsane.trans (projectLaunchClient_keeps hlaunch)) h

theorem clientDependencyAdd_keeps {l : List Client} {id : Uuid}
    (h : clientDependencyAdd l c id = some d) : c.Same d := by
  rcases clientDependencyAdd_cases h with rfl | ⟨-, rfl, -⟩
  · exact .refl d
  · exact ⟨⟨rfl, rfl, rfl, rfl, rfl⟩, rfl, rfl⟩

theorem clientDependencyRemove_keeps (c : Client) (id : Uuid) :
    c.Same { c with dependencies := clientDependencyRemove c.dependencies id } :=
  ⟨⟨rfl, rfl, rfl, rfl, rfl⟩, rfl, rfl⟩

/-! ## Tasks -/

theorem projectSetModifiedStatus_keeps (s : Session) (b : Bool) :
    s.p.Same (projectSetModifiedStatus s b).p := by
  rw [projectSetModifiedStatus_p]
  exact .of_eq rfl rfl rfl

theorem projectClientProgress_keeps (hc : ∃ b ∈ s.p.clients, b.Same c) (n : Nat) :
    s.p.Same (projectClientProgress s c n).1.p ∧
      c.Same (projectClientProgress s c n).2 := by
  have hput : ∃ b ∈ s.p.clients, b.Same { c with taskProgress := n } := by
    obtain ⟨b, hb, hsame⟩ := hc
    exact ⟨b, hb, hsame.trans ⟨⟨rfl, rfl, rfl, rfl, rfl⟩, rfl, rfl⟩⟩
  unfold projectClientProgress
  dsimp only
  split
  · exact ⟨⟨rfl, (ClientsFrom.refl _).put hput, .refl _⟩, ⟨⟨rfl, rfl, rfl, rfl, rfl⟩, rfl, rfl⟩⟩
  · exact ⟨⟨rfl, (ClientsFrom.refl _).put hput, .refl _⟩, ⟨⟨rfl, rfl, rfl, rfl, rfl⟩, rfl, rfl⟩⟩

theorem projectClientsSaveComplete_keeps (s : Session) :
    s.p.Same (projectClientsSaveComplete s).p := by
  have hinfo : s.p.Same (projectWriteInfo s).2.p := by
    unfold projectWriteInfo
    dsimp only
    split <;> exact .of_eq rfl rfl rfl
  exact hinfo.trans (projectSetModifiedStatus_keeps (((projectWriteInfo s).2.emit _).emit _) false)

theorem projectCountDown_keeps (s : Session) (c : Client) :
    s.p.Same (projectCountDown s c).p := by
  unfold projectCountDown
  split
  · exact .refl _
  · dsimp only
    split
    · unfold projectTaskFinished
      dsimp only
      generalize hu : Session.mk _ _ = u
      have hsu : s.p.Same u.p := by
        rw [← hu]
        exact .of_eq rfl rfl rfl
      cases c.taskType with
      | saveDataSet | saveFile => exact hsu.trans (projectClientsSaveComplete_keeps u)
      | restoreFile | restoreDataSet =>
          exact hsu.trans (projectSetModifiedStatus_keeps ((u.emit _).emit _) false)
      | unknown => exact hsu
    · exact .of_eq rfl rfl rfl

theorem projectClientTaskCompleted_keeps (hc : ∃ b ∈ s.p.clients, b.Same c) :
    s.p.Same (projectClientTaskCompleted s c).1.p ∧
      c.Same (projectClientTaskCompleted s c).2 := by
  obtain ⟨hprogress, hsame⟩ := projectClientProgress_keeps hc 100
  exact ⟨hprogress.trans (projectCountDown_keeps _ _), hsame⟩

theorem clientFinishTask_keeps {ok : Bool} (h : clientFinishTask s c ok = some (t, d)) :
    s.p.Same t.p ∧ t.p.clients = s.p.clients ∧ c.Same d := by
  have hsatisfy : (projectSatisfyClientDependency s c).map (fun s => (s, c)) = some (t, d) →
      s.p.Same t.p ∧ t.p.clients = s.p.clients ∧ c.Same d := by
    intro hf
    obtain ⟨u, hu, he⟩ := Option.map_eq_some_iff.mp hf
    obtain ⟨rfl, rfl⟩ := Prod.mk.inj he
    obtain ⟨⟨g, lost⟩, hlost, rfl⟩ := Option.map_eq_some_iff.mp hu
    exact ⟨⟨rfl, .refl _, satisfyLost_keeps hlost⟩, rfl, .refl c⟩
  have hnothing : some (s, c) = some (t, d) →
      s.p.Same t.p ∧ t.p.clients = s.p.clients ∧ c.Same d := by
    intro he
    obtain ⟨rfl, rfl⟩ := Prod.mk.inj (Option.some.inj he)
    exact ⟨.refl _, rfl, .refl c⟩
  unfold clientFinishTask at h
  split at h
  · split at h
    · split at h
      · exact absurd h (by simp)
      · next st hst =>
          have hdir := storeWrite_dir st s.g.fs
          dsimp only at h
          generalize storeWrite st s.g.fs = w at h hdir
          obtain ⟨rfl, rfl⟩ := Prod.mk.inj (Option.some.inj h)
          refine ⟨.refl _, rfl, ⟨rfl, rfl, rfl, ?_, ?_⟩, rfl, rfl⟩
          · dsimp only
            split
            · exact (flags_saved c.flags).2.1
            · rfl
          · rw [hst]
            exact congrArg some hdir
    · obtain ⟨rfl, rfl⟩ := Prod.mk.inj (Option.some.inj h)
      exact ⟨.refl _, rfl, ⟨rfl, rfl, rfl, (flags_saved c.flags).2.1, rfl⟩, rfl, rfl⟩
    · exact hsatisfy h
    · exact hsatisfy h
    · exact hnothing h
  · exact hnothing h

/-- A report moves nobody. -/
theorem clientTaskCompleted_keeps {ok : Bool} (hc : ∃ b ∈ s.p.clients, b.Same c)
    (h : clientTaskCompleted s c ok = some t) : s.p.Same t.p := by
  unfold clientTaskCompleted at h
  dsimp only at h
  split at h
  · obtain ⟨b, hb, hsame⟩ := hc
    rw [← Option.some.inj h]
    exact Project.Same.put (.refl _) ⟨b, hb, hsame.trans ⟨⟨rfl, rfl, rfl, rfl, rfl⟩, rfl, rfl⟩⟩
  · obtain ⟨⟨u, e⟩, hf, rfl⟩ := Option.map_eq_some_iff.mp h
    obtain ⟨hsu, hclients, hce⟩ := clientFinishTask_keeps hf
    obtain ⟨b, hb, hbc⟩ := hc
    have hbu : b ∈ u.p.clients := by
      rw [hclients]
      exact hb
    obtain ⟨hdone, hclear⟩ := projectClientTaskCompleted_keeps ⟨b, hbu, hbc.trans hce⟩
    refine Project.Same.put (hsu.trans hdone) ⟨b, hb, ((hbc.trans hce).trans hclear).trans ?_⟩
    exact ⟨⟨rfl, rfl, rfl, rfl, rfl⟩, rfl, rfl⟩

theorem projectSave_keeps (s : Session) : s.p.Same (projectSave s).p := by
  have hask : ∀ task, ClientsFrom s.p.clients (s.p.clients.map (Client.ask task)) := by
    intro task
    apply Keyed.From.map
    intro c
    unfold Client.ask
    split <;> exact ⟨⟨rfl, rfl, rfl, rfl, rfl⟩, rfl, rfl⟩
  have hclients : ClientsFrom s.p.clients (projectSaveStart s).p.clients := by
    unfold projectSaveStart projectClearLostClients
    dsimp only [Session.setFs]
    rw [projectSaveNotes_p]
    unfold projectSaveClients
    dsimp only
    split
    · exact .refl _
    · exact hask _
  have hdir := (projectSaveStart_head s).directory
  have hlost : (projectSaveStart s).p.lostClients = [] := rfl
  unfold projectSave
  split
  · exact .refl _
  · dsimp only
    split
    · have hdone := projectClientsSaveComplete_keeps (projectSaveStart s)
      refine ⟨hdone.directory.trans hdir, hclients.trans hdone.live, ?_⟩
      exact ClientsFrom.trans (by rw [hlost]; exact .nil _) hdone.lost
    · exact ⟨hdir, hclients, by rw [hlost]; exact .nil _⟩

/-! ## Clients that come and go -/

/-- A client is where the daemon puts its clients: below the directory of the project. -/
structure Project.Houses (p : Project) (c : Client) : Prop where
  dataPath : c.dataPath = some (projectGetClientDir p c)
  store : configDataSet c.flags → c.store.map Store.dir = some (projectGetClientConfigDir p c)

/-- `project_new_client` puts the client among the live ones, and then names it. -/
theorem projectNewClient_spec {id : Uuid} (h : projectNewClient s c id = some t) :
    t.p.directory = s.p.directory ∧ t.p.lostClients = s.p.lostClients ∧
      ∃ d e, s.p.Houses d ∧ d.addr = c.addr ∧ d.cls = c.cls ∧
        projectNameClient { s.p with clients := d :: s.p.clients } d = some e ∧
        t.p.clients = putClient e (d :: s.p.clients) := by
  have hhouse : s.p.Houses (newClientPrepare s.p s.g.fs c id).1 ∧
      (newClientPrepare s.p s.g.fs c id).1.addr = c.addr ∧
      (newClientPrepare s.p s.g.fs c id).1.cls = c.cls := by
    unfold newClientPrepare
    dsimp only
    split
    · exact ⟨⟨rfl, fun _ => clientStoreOpen_store _ _ _⟩, rfl, rfl⟩
    · next hset => exact ⟨⟨rfl, fun h => absurd h hset⟩, rfl, rfl⟩
  unfold projectNewClient at h
  generalize newClientPrepare s.p s.g.fs c id = r at h hhouse
  obtain ⟨d, fs⟩ := r
  obtain ⟨hhouse, haddr, hcls⟩ := hhouse
  dsimp only [Session.setFs] at h hhouse haddr hcls
  split at h
  · exact absurd h (by simp)
  · next e hname =>
      rw [← Option.some.inj h, Session.emit_p, projectSetModifiedStatus_p]
      exact ⟨rfl, rfl, d, e, hhouse, haddr, hcls, hname, rfl⟩

theorem projectNewClient_places {id : Uuid} (h : projectNewClient s c id = some t) :
    t.p.directory = s.p.directory ∧ t.p.lostClients = s.p.lostClients ∧
      ∃ d, s.p.Houses d ∧ PlacesFrom (d :: s.p.clients) t.p.clients := by
  obtain ⟨hdir, hlost, d, e, hhouse, -, -, hname, hlive⟩ := projectNewClient_spec h
  refine ⟨hdir, hlost, d, hhouse, ?_⟩
  rw [hlive]
  exact (PlacesFrom.refl _).put ⟨d, List.mem_cons_self, projectNameClient_samePlace hname⟩

/-- What a client that is back gets is read from its store. -/
def loadsDataSet (f : Flags) : Bool := isSaved f && !configFile f && configDataSet f

/-- Where a client is when it is back. -/
structure Client.Back (p : Project) (c d : Client) : Prop where
  addr : d.addr = c.addr
  idStr : d.idStr = c.idStr
  dataSet : configDataSet d.flags = configDataSet c.flags
  dataPath : d.dataPath =
    if c.dataPath.getD [] = [] then some (projectGetClientDir p c) else c.dataPath
  store : d.store.map Store.dir =
    if loadsDataSet c.flags then some (projectGetClientConfigDir p c) else c.store.map Store.dir

theorem projectLoadDataSet_store (h : projectLoadDataSet s c = some (t, d)) :
    d.addr = c.addr ∧ d.idStr = c.idStr ∧ d.flags = c.flags ∧ d.name = c.name ∧ d.cls = c.cls ∧
      d.dataPath = c.dataPath ∧
      d.store.map Store.dir = some (projectGetClientConfigDir s.p c) := by
  have hstore := clientStoreOpen_store s.g.fs c (projectGetClientConfigDir s.p c)
  have hrest : ∃ st, (clientStoreOpen s.g.fs c (projectGetClientConfigDir s.p c)).2.1 =
      { c with store := st } := ⟨_, rfl⟩
  unfold projectLoadDataSet at h
  generalize clientStoreOpen s.g.fs c (projectGetClientConfigDir s.p c) = r at h hstore hrest
  obtain ⟨ok, e, fs⟩ := r
  obtain ⟨st, rfl⟩ := hrest
  dsimp only at h hstore
  cases st with
  | none => exact absurd hstore (by simp)
  | some st =>
      dsimp only at h
      split at h
      · obtain ⟨-, rfl⟩ := Prod.mk.inj (Option.some.inj h)
        exact ⟨rfl, rfl, rfl, rfl, rfl, rfl, hstore⟩
      · split at h
        · obtain ⟨-, rfl⟩ := Prod.mk.inj (Option.some.inj h)
          exact ⟨rfl, rfl, rfl, rfl, rfl, rfl, hstore⟩
        · split at h
          · exact absurd h (by simp)
          · obtain ⟨-, rfl⟩ := Prod.mk.inj (Option.some.inj h)
            exact ⟨rfl, rfl, rfl, rfl, rfl, rfl, hstore⟩
          · obtain ⟨-, rfl⟩ := Prod.mk.inj (Option.some.inj h)
            exact ⟨rfl, rfl, rfl, rfl, rfl, rfl, hstore⟩

theorem resumeLoad_store {stateless : Bool} (h : resumeLoad s c = some (t, d, stateless)) :
    d.addr = c.addr ∧ d.idStr = c.idStr ∧ d.flags = c.flags ∧ d.name = c.name ∧ d.cls = c.cls ∧
      d.dataPath = c.dataPath ∧ d.store.map Store.dir =
        if loadsDataSet c.flags then some (projectGetClientConfigDir s.p c)
        else c.store.map Store.dir := by
  unfold resumeLoad at h
  unfold loadsDataSet
  have hsame : c = d → loadsDataSet c.flags = false →
      d.addr = c.addr ∧ d.idStr = c.idStr ∧ d.flags = c.flags ∧ d.name = c.name ∧
        d.cls = c.cls ∧ d.dataPath = c.dataPath ∧ d.store.map Store.dir =
          if loadsDataSet c.flags then some (projectGetClientConfigDir s.p c)
          else c.store.map Store.dir := by
    rintro rfl hloads
    rw [hloads]
    exact ⟨rfl, rfl, rfl, rfl, rfl, rfl, rfl⟩
  unfold loadsDataSet at hsame
  split_ifs at h with hsaved hfile hset
  · simp only [Option.some.injEq, Prod.mk.injEq, projectLoadFile] at h
    obtain ⟨-, rfl, -⟩ := h
    rw [hfile]
    simp
  · obtain ⟨⟨u, e⟩, hload, he⟩ := Option.map_eq_some_iff.mp h
    simp only [Prod.mk.injEq] at he
    obtain ⟨-, rfl, -⟩ := he
    rw [hsaved, hset, Bool.eq_false_iff.mpr hfile]
    exact projectLoadDataSet_store hload
  · simp only [Option.some.injEq, Prod.mk.injEq] at h
    exact hsame h.2.1 (by rw [Bool.eq_false_iff.mpr hset, Bool.and_false])
  · simp only [Option.some.injEq, Prod.mk.injEq] at h
    exact hsame h.2.1 (by rw [Bool.eq_false_iff.mpr hsaved, Bool.false_and, Bool.false_and])

theorem resumeStateless_keeps (s : Session) (hc : ∃ b ∈ s.p.clients, b.Same c) :
    s.p.Same (resumeStateless s c).p := by
  obtain ⟨b, hb, hbc⟩ := hc
  unfold resumeStateless
  dsimp only
  generalize hx : Client.mk c.addr _ _ _ _ _ _ _ _ _ _ _ _ _ _ _ _ = x
  have hbx : b.Same x := by
    rw [← hx]
    exact hbc.trans ⟨⟨rfl, rfl, rfl, rfl, rfl⟩, rfl, rfl⟩
  have hput : s.p.Same (s.put x).p := Project.Same.put (.refl _) ⟨b, hb, hbx⟩
  have hmem : ∃ e ∈ (s.put x).p.clients, e.Same x :=
    ⟨x, Keyed.mem_put_self (z := b) hb hbx.addr.symm, .refl x⟩
  obtain ⟨hdone, hclear⟩ := projectClientTaskCompleted_keeps hmem
  refine Project.Same.put (hput.trans hdone) ⟨b, hb, (hbx.trans hclear).trans ?_⟩
  exact ⟨⟨rfl, rfl, rfl, rfl, rfl⟩, rfl, rfl⟩

theorem resumeStateless_addrs (s : Session) (c : Client) :
    (resumeStateless s c).p.clients.map Client.addr = s.p.clients.map Client.addr := by
  have hview := congrArg (fun v => v.live.map Job.addr) (resumeStateless_view s c true)
  simpa [Project.view, View.put, Function.comp_def, Client.job] using hview

/-- `client_resume_project` takes the client out of the lost ones, makes it load what it has and
puts it among the live ones, under a name. -/
theorem clientResumeProject_spec (h : clientResumeProject s c = some t) :
    t.p.directory = s.p.directory ∧ c.addr ∈ t.p.clients.map Client.addr ∧
      ∃ d e, Client.Back s.p c d ∧ d.name = c.name ∧ d.cls = c.cls ∧
        nameIfUnnamed { s.p with
          clients := d :: s.p.clients, lostClients := delClient c.addr s.p.lostClients } d =
          some e ∧
        ClientsFrom (putClient e (d :: s.p.clients)) t.p.clients ∧
        ClientsFrom (delClient c.addr s.p.lostClients) t.p.lostClients := by
  have hprep : (resumePrepare s c).1.p = { s.p with
      lostClients := delClient (resumePrepare s c).2.addr s.p.lostClients } := rfl
  have hsame : (resumePrepare s c).2 = if c.dataPath.getD [] = [] then
      { c with dataPath := some (projectGetClientDir s.p c) } else c := rfl
  unfold clientResumeProject at h
  generalize resumePrepare s c = r at h hprep hsame
  obtain ⟨u, b⟩ := r
  dsimp only at h hprep hsame
  have hb : b.addr = c.addr ∧ b.idStr = c.idStr ∧ b.flags = c.flags ∧ b.store = c.store ∧
      b.name = c.name ∧ b.cls = c.cls ∧
      b.dataPath = if c.dataPath.getD [] = [] then some (projectGetClientDir s.p c)
        else c.dataPath := by
    rw [hsame]
    split <;> exact ⟨rfl, rfl, rfl, rfl, rfl, rfl, rfl⟩
  obtain ⟨hbaddr, hbid, hbflags, hbstore, hbname, hbcls, hbpath⟩ := hb
  rw [hbaddr] at hprep
  split at h
  · exact absurd h (by simp)
  · next v d stateless hload =>
      obtain ⟨haddr, hid, hflags, hdname, hcls, hpath, hstore⟩ := resumeLoad_store hload
      have hvp : v.p = { s.p with lostClients := delClient c.addr s.p.lostClients } :=
        (resumeLoad_spec hload).1.trans hprep
      have hconf : projectGetClientConfigDir u.p b = projectGetClientConfigDir s.p c := by
        unfold projectGetClientConfigDir projectGetClientDir
        rw [hprep, hbid]
      rw [hbflags, hconf, hbstore] at hstore
      have hback : Client.Back s.p c d :=
        ⟨haddr.trans hbaddr, hid.trans hbid, by rw [hflags, hbflags], hpath.trans hbpath, hstore⟩
      rw [hvp] at h
      split at h
      · exact absurd h (by simp)
      · next e hname =>
          generalize hw : Session.emit (Session.put _ e) _ = w at h
          have hwp : w.p = { s.p with
              clients := putClient e (d :: s.p.clients)
              lostClients := delClient c.addr s.p.lostClients } := by
            rw [← hw]
            rfl
          have he : e ∈ w.p.clients := by
            rw [hwp]
            exact Keyed.mem_put_self (z := d) List.mem_cons_self
              (nameIfUnnamed_samePlace hname).addr.symm
          have hmem : c.addr ∈ w.p.clients.map Client.addr := by
            rw [← hback.addr, ← (nameIfUnnamed_samePlace hname).addr]
            exact List.mem_map_of_mem he
          -- what is left of the function is a task that ends, and changes nobody
          have hkeeps : w.p.Same t.p ∧ c.addr ∈ t.p.clients.map Client.addr := by
            split at h
            · rw [← Option.some.inj h, resumeStateless_addrs]
              exact ⟨resumeStateless_keeps w ⟨e, he, .refl e⟩, hmem⟩
            · rw [← Option.some.inj h]
              exact ⟨.refl _, hmem⟩
          obtain ⟨hkeeps, hmem⟩ := hkeeps
          rw [hwp] at hkeeps
          exact ⟨hkeeps.directory, hmem, d, e, hback, hdname.trans hbname, hcls.trans hbcls, hname,
            hkeeps.live, hkeeps.lost⟩

/-- Where everybody is after a client is back. -/
theorem clientResumeProject_places (h : clientResumeProject s c = some t) :
    t.p.directory = s.p.directory ∧ PlacesFrom s.p.lostClients t.p.lostClients ∧
      c.addr ∈ t.p.clients.map Client.addr ∧
      ∃ d, Client.Back s.p c d ∧ PlacesFrom (d :: s.p.clients) t.p.clients := by
  obtain ⟨hdir, hmem, d, e, hback, -, -, hname, hlive, hlost⟩ := clientResumeProject_spec h
  refine ⟨hdir, ?_, hmem, d, hback, ?_⟩
  · exact PlacesFrom.trans (ClientsFrom.del c.addr _).places hlost.places
  · apply PlacesFrom.trans _ hlive.places
    exact (PlacesFrom.refl _).put ⟨d, List.mem_cons_self, nameIfUnnamed_samePlace hname⟩

theorem clientDisconnected_keeps (s : Session) (c : Client) :
    (clientDisconnected s c).p.directory = s.p.directory ∧
      ClientsFrom s.p.clients (clientDisconnected s c).p.clients ∧
      ClientsFrom (c :: s.p.lostClients) (clientDisconnected s c).p.lostClients := by
  have hdel : ClientsFrom s.p.clients (delClient c.addr s.p.clients) :=
    .of_subset fun e he => (Keyed.mem_del.mp he).1
  unfold clientDisconnected projectLoseClient
  dsimp only
  generalize hu : Session.setFs _ _ = u
  have hstatus := projectSetModifiedStatus_keeps u true
  have hstore := loseStore_keeps (Session.emit
    { s with p := { s.p with clients := delClient c.addr s.p.clients } }
      (.lost s.p.addr c.addr)).g.fs c
  have hup : u.p = { s.p with
      clients := delClient c.addr s.p.clients
      lostClients := { (loseStore s.g.fs c).1 with pid := 0 } :: s.p.lostClients } := by
    rw [← hu]
    rfl
  refine ⟨hstatus.directory.trans (by rw [hup]), ?_, ?_⟩
  · apply ClientsFrom.trans _ hstatus.live
    rw [hup]
    exact hdel
  · apply ClientsFrom.trans _ hstatus.lost
    rw [hup]
    refine .cons ⟨c, List.mem_cons_self, hstore.trans ⟨⟨rfl, rfl, rfl, rfl, rfl⟩, rfl, rfl⟩⟩ ?_
    exact .of_subset fun e he => List.mem_cons_of_mem _ he

/-! ## Projects that move -/

/-- The call of `rename` works, after all stores were written. -/
def Session.moveWorks (s : Session) (newDir : CStr) : Bool :=
  ((closeStores s.g.fs.next s.p.clients).2.rename s.p.directory newDir).1

theorem closeStores_clients (fs : Fs) (l : List Client) :
    (closeStores fs l).1 = l.map (fun c => { c with store := none }) := by
  induction l generalizing fs with
  | nil => rfl
  | cons c l ih =>
      have hclose : (clientStoreClose fs c).2.1 = { c with store := none } := by
        unfold clientStoreClose
        split
        · next h => rw [← h]
        · rfl
      rw [closeStores]
      dsimp only
      rw [hclose, ih, List.map_cons]

theorem openStores_clients (p : Project) (fs : Fs) (l : List Client) :
    List.Forall₂ (fun c d => ∃ st, st.dir = projectGetClientConfigDir p c ∧
      d = { c with store := some st }) l (openStores p fs l).1 := by
  induction l generalizing fs with
  | nil => exact .nil
  | cons c l ih =>
      refine .cons ⟨_, ?_, rfl⟩ (ih _)
      exact Option.some.inj (clientStoreOpen_store fs c (projectGetClientConfigDir p c))

theorem moveProject_places (s : Session) (newDir : CStr) :
    (s.moveWorks newDir = false ∧ (moveProject (s.setFs s.g.fs.next) newDir).p =
      { s.p with clients := s.p.clients.map (fun c => { c with store := none }) }) ∨
    (s.moveWorks newDir = true ∧
      (moveProject (s.setFs s.g.fs.next) newDir).p.directory = newDir ∧
      (moveProject (s.setFs s.g.fs.next) newDir).p.lostClients = s.p.lostClients ∧
      List.Forall₂ (fun c d => ∃ st,
        st.dir = projectGetClientConfigDir (moveProject (s.setFs s.g.fs.next) newDir).p c ∧
        d = { c with store := some st }) s.p.clients
        (moveProject (s.setFs s.g.fs.next) newDir).p.clients) := by
  have hclose := closeStores_clients s.g.fs.next s.p.clients
  have hfs : (s.setFs s.g.fs.next).g.fs = s.g.fs.next := rfl
  have hp : (s.setFs s.g.fs.next).p = s.p := rfl
  unfold moveProject Session.moveWorks
  rw [hfs, hp]
  generalize closeStores s.g.fs.next s.p.clients = r at hclose
  obtain ⟨clients, fs⟩ := r
  dsimp only at hclose ⊢
  subst hclose
  generalize fs.rename s.p.directory newDir = r
  obtain ⟨ok, fs'⟩ := r
  dsimp only
  split
  · next hok => exact Or.inl ⟨Bool.eq_false_iff.mpr hok, rfl⟩
  · next hok =>
      refine Or.inr ⟨not_not.mp hok, rfl, rfl, ?_⟩
      have hopen := openStores_clients { s.p with directory := newDir } fs'
        (s.p.clients.map (fun c => { c with store := none }))
      rw [List.forall₂_map_left_iff] at hopen
      exact hopen

/-- What `project_move` does to the places of the clients. -/
theorem projectMove_places (s : Session) (newDir : CStr) :
    (¬ s.TriesMove newDir ∧ (projectMove s newDir).p = s.p) ∨
    (s.TriesMove newDir ∧ s.moveWorks newDir = false ∧ (projectMove s newDir).p =
      { s.p with clients := s.p.clients.map (fun c => { c with store := none }) }) ∨
    (s.TriesMove newDir ∧ s.moveWorks newDir = true ∧
      (projectMove s newDir).p.directory = newDir ∧
      (projectMove s newDir).p.lostClients = s.p.lostClients ∧
      List.Forall₂ (fun c d => ∃ st, st.dir = projectGetClientConfigDir (projectMove s newDir).p c ∧
        d = { c with store := some st }) s.p.clients (projectMove s newDir).p.clients) := by
  rcases projectMove_cases s newDir with ⟨hnot, h | h⟩ | ⟨htries, h⟩
  · exact Or.inl ⟨hnot, by rw [h]⟩
  · exact Or.inl ⟨hnot, by rw [h]; rfl⟩
  · right
    rw [h]
    exact (moveProject_places s newDir).imp (fun hm => ⟨htries, hm⟩) (fun hm => ⟨htries, hm⟩)

/-! ## Projects that are restored -/

/-- Nobody is there but clients that have no place yet. -/
structure Project.Unplaced (p : Project) : Prop where
  live : p.clients = []
  lost : ∀ c ∈ p.lostClients, c.dataPath = none ∧ c.store = none

theorem loadNode_unplaced {n : XmlNode} (hs : s.p.Unplaced) (h : loadNode s n = some t) :
    t.p.Unplaced := by
  unfold loadNode at h
  split at h
  · rw [← Option.some.inj h]
    exact ⟨hs.live, hs.lost⟩
  · split at h
    · split at h
      · exact absurd h (by simp)
      · next c hc =>
          rw [← Option.some.inj h]
          refine ⟨hs.live, ?_⟩
          intro d hd
          rcases List.mem_cons.mp hd with rfl | hd
          · exact (clientParseXml_store hc).2.symm
          · exact hs.lost d hd
    · rw [← Option.some.inj h]
      exact hs

theorem projectLoad_unplaced {ok : Bool} (hs : s.p.Unplaced) (h : projectLoad s = some (ok, t)) :
    t.p.Unplaced := by
  unfold projectLoad at h
  split at h
  · exact absurd h (by simp)
  · split at h
    · obtain ⟨-, rfl⟩ := Prod.mk.inj (Option.some.inj h)
      exact hs
    · split at h
      · exact absurd h (by simp)
      · next u hu =>
          have hload : u.p.Unplaced :=
            Runs.foldlM_invariant (I := fun u : Session => u.p.Unplaced) hs
              (fun _ _ _ _ hv hn => loadNode_unplaced hv hn) hu
          obtain ⟨-, rfl⟩ := Prod.mk.inj (Option.some.inj h)
          unfold projectLoadNotes
          split
          · exact ⟨hload.live, hload.lost⟩
          · exact ⟨hload.live, hload.lost⟩

theorem Project.Unplaced.from {p p' : Project} (hp : p.Unplaced) (hlive : p'.clients = p.clients)
    (hlost : PlacesFrom p.lostClients p'.lostClients) : p'.Unplaced := by
  refine ⟨hlive.trans hp.live, ?_⟩
  intro d hd
  obtain ⟨c, hc, hsame⟩ := hlost d hd
  obtain ⟨hpath, hstore⟩ := hp.lost c hc
  refine ⟨hsame.dataPath.trans hpath, ?_⟩
  have hnone := hsame.store
  rw [hstore] at hnone
  exact Option.map_eq_none_iff.mp hnone

theorem projectRename_keeps (s : Session) (name : CStr) :
    s.p.Same (projectRename s name).p ∧ (projectRename s name).p.clients = s.p.clients := by
  unfold projectRename
  dsimp only
  rw [projectSetModifiedStatus_p]
  exact ⟨.of_eq rfl rfl rfl, rfl⟩

theorem projectSetDescription_keeps (s : Session) (description : CStr) :
    s.p.Same (projectSetDescription s description).p := by
  unfold projectSetDescription
  rw [projectSetModifiedStatus_p]
  exact .of_eq rfl rfl rfl

theorem projectSetNotes_keeps (s : Session) (notes : CStr) :
    s.p.Same (projectSetNotes s notes).p := by
  unfold projectSetNotes
  rw [projectSetModifiedStatus_p]
  exact .of_eq rfl rfl rfl

theorem projectUnload_clients (s : Session) :
    (projectUnload s).p.clients = [] ∧ (projectUnload s).p.lostClients = [] := by
  obtain ⟨evs, hmove, -⟩ := projectUnload_makes s true
  generalize hv : (projectUnload s).p.view false = v at hmove
  cases hmove
  exact ⟨List.map_eq_nil_iff.mp (congrArg View.live hv),
    List.map_eq_nil_iff.mp (congrArg View.lost hv)⟩

theorem projectUnload_unplaced (s : Session) : (projectUnload s).p.Unplaced := by
  obtain ⟨hlive, hlost⟩ := projectUnload_clients s
  exact ⟨hlive, by rw [hlost]; exact fun c hc => absurd hc List.not_mem_nil⟩

/-! ## One step -/

namespace Server

/-- Where the clients of project `a` are after an input. -/
inductive Placed (s : Server) (a : Addr) : Input → Project → Prop
  | same {i p'} (h : (s.project a).SamePlaces p') : Placed s a i p'
  | joined {i p p' c}
      (hp : p = s.project a ∨ p.clients = [] ∧ p.lostClients = [])
      (hdir : p'.directory = p.directory) (hc : p.Houses c)
      (hlive : PlacesFrom (c :: p.clients) p'.clients) (hlost : p'.lostClients = p.lostClients) :
      Placed s a i p'
  | back {i p' c d} (hi : s.resuming i = some (a, c)) (hc : c ∈ (s.project a).lostClients)
      (hdir : p'.directory = (s.project a).directory) (hd : Client.Back (s.project a) c d)
      (hmem : ∃ e ∈ p'.clients, d.SamePlace e)
      (hlive : PlacesFrom (d :: (s.project a).clients) p'.clients)
      (hlost : PlacesFrom (s.project a).lostClients p'.lostClients) : Placed s a i p'
  | left {i p' c} (hc : c ∈ (s.project a).clients) (hdir : p'.directory = (s.project a).directory)
      (hlive : PlacesFrom (s.project a).clients p'.clients)
      (hlost : PlacesFrom (c :: (s.project a).lostClients) p'.lostClients) : Placed s a i p'
  | unplaced {i p'} (h : p'.Unplaced) : Placed s a i p'
  | unstored {name path p'} (hi : s.findProjectByName name = some a) (ha : a ∈ s.loaded)
      (htries : (s.session a).TriesMove path) (hfails : (s.session a).moveWorks path = false)
      (hp : p' = { s.project a with
        clients := (s.project a).clients.map (fun c => { c with store := none }) }) :
      Placed s a (.projectMove name path) p'
  | moved {name path p'} (hi : s.findProjectByName name = some a) (ha : a ∈ s.loaded)
      (htries : (s.session a).TriesMove path) (hworks : (s.session a).moveWorks path = true)
      (hdir : p'.directory = path) (hlost : p'.lostClients = (s.project a).lostClients)
      (hlive : List.Forall₂ (fun c d => ∃ st, st.dir = projectGetClientConfigDir p' c ∧
        d = { c with store := some st }) (s.project a).clients p'.clients) :
      Placed s a (.projectMove name path) p'

variable {s s' : Server} {a : Addr} {i : Input}

/-- A project that is not loaded has no clients. -/
theorem Wf.clients_unloaded (hw : s.Wf) (ha : a ∉ s.loaded) :
    (s.project a).clients = [] ∧ (s.project a).lostClients = [] := by
  have hjobs := hw.unloaded a (decide_eq_false ha)
  obtain ⟨hlive, hlost⟩ := List.append_eq_nil_iff.mp hjobs
  exact ⟨List.map_eq_nil_iff.mp hlive, List.map_eq_nil_iff.mp hlost⟩

theorem Wf.unplaced (hw : s.Wf) (ha : a ∉ s.loaded) : (s.project a).Unplaced := by
  obtain ⟨hlive, hlost⟩ := hw.clients_unloaded ha
  exact ⟨hlive, by rw [hlost]; exact fun c hc => absurd hc List.not_mem_nil⟩

/-- The session in which a report is handled differs in what the client's store has in memory. -/
theorem reporting_keeps {u : Session} {c : Client} {ok : Bool}
    (h : s.reporting i = some (a, u, c, ok)) : (s.project a).Same u.p ∧ c ∈ u.p.clients := by
  obtain ⟨-, d, hd, -, hcase⟩ := reporting_cases h
  rcases hcase with ⟨rfl, rfl, -⟩ | ⟨-, -, elems, -, st, -, -, -, hst, -, rfl, rfl⟩
  · exact ⟨.refl _, hd⟩
  · have hsame := Client.Same.storing hst (commitConfigs_dir st elems)
    exact ⟨Project.Same.put (.refl _) ⟨d, hd, hsame⟩, Keyed.mem_put_self (z := d) hd rfl⟩

theorem complete_keeps {u v : Session} {c : Client} {ok : Bool}
    (hi : s.reporting i = some (a, u, c, ok)) (hv : clientTaskCompleted u c ok = some v) :
    (s.project a).Same v.p := by
  obtain ⟨hput, hmem⟩ := reporting_keeps hi
  exact hput.trans (clientTaskCompleted_keeps ⟨c, hmem, .refl c⟩ hv)

/-- A client that connected again is back in the project, and everybody else is where he was. -/
theorem Wf.resumed (hw : s.Wf) {c : Client} {sender : CStr} {u : Session}
    (hc : c ∈ (s.project a).lostClients)
    (hu : clientResumeProject ((s.session a).emit (.connected a c.addr sender))
      (c.reconnect sender) = some u) :
    u.p.directory = (s.project a).directory ∧
      PlacesFrom (s.project a).lostClients u.p.lostClients ∧
      ∃ d, Client.Back (s.project a) c d ∧ (∃ e ∈ u.p.clients, d.SamePlace e) ∧
        PlacesFrom (d :: (s.project a).clients) u.p.clients := by
  obtain ⟨hdir, hlost, hmem, d, hd, hlive⟩ := clientResumeProject_places hu
  obtain ⟨hsaved, hset, hfile⟩ := flags_restored c.flags
  have hloads : loadsDataSet (c.reconnect sender).flags = loadsDataSet c.flags := by
    unfold loadsDataSet Client.reconnect
    dsimp only
    rw [hsaved, hset, hfile]
  have hback : Client.Back (s.project a) c d := by
    refine ⟨hd.addr, hd.idStr, hd.dataSet.trans hset, hd.dataPath, ?_⟩
    rw [hd.store, hloads]
    rfl
  obtain ⟨e, he, headdr⟩ := List.mem_map.mp hmem
  obtain ⟨b, hb, hsame⟩ := hlive e he
  rcases List.mem_cons.mp hb with rfl | hb
  · exact ⟨hdir, hlost, b, hback, ⟨e, he, hsame⟩, hlive⟩
  · -- nobody who was live is at the address of a lost client
    have hne := (hw.distinct a).ne (Project.mem_live _ hb) (Project.mem_lost _ hc)
    exact absurd (hsame.addr.symm.trans headdr) hne

/-- **Where the clients of a project are after a step.** -/
theorem step_placed (hw : s.Wf) (h : s.step i = some s') (a : Addr) :
    s.Placed a i (s'.project a) := by
  rcases step_changes h a with hsame | hchange
  · rw [hsame]
    exact .same (Project.Same.refl _).places
  · generalize s'.project a = p' at hchange
    cases hchange with
    | @join sender pid cls flags wd argv id t u hi ht hu =>
        obtain ⟨hdir, hlost, d, hd, hlive⟩ := projectNewClient_places hu
        refine .joined (p := t.p) ?_ hdir hd hlive hlost
        rcases ht with ⟨-, hp⟩ | ⟨-, name, hp⟩
        · exact Or.inl hp
        · rw [hp]
          exact Or.inr ⟨rfl, rfl⟩
    | resume hi ha hc hu =>
        obtain ⟨hdir, hlost, d, hd, hmem, hlive⟩ := hw.resumed hc hu
        exact .back hi hc hdir hd hmem hlive hlost
    | @leave i c g hi ha hc =>
        obtain ⟨hdir, hlive, hlost⟩ :=
          clientDisconnected_keeps { g := g, p := s.project a } c
        exact .left hc hdir hlive.places hlost.places
    | complete hi ha hv => exact .same (complete_keeps hi hv).places
    | @progress i c n ha hc =>
        exact .same (@projectClientProgress_keeps (s.session a) c ⟨c, hc, .refl c⟩ n).1.places
    | save hi ha => exact .same (projectSave_keeps (s.session a)).places
    | close hi ha =>
        exact .unplaced (projectUnload_unplaced (s.session a))
    | @restore i u v g g' lost ha hnot hi hload hv hlost =>
        have hload : u.p.Unplaced := projectLoad_unplaced (hw.unplaced hnot) hload
        have hv : v.p.Unplaced := by
          rcases hv with rfl | ⟨name, rfl⟩
          · exact hload
          · obtain ⟨hkeeps, hlive⟩ := projectRename_keeps u name
            exact hload.from hlive hkeeps.lost.places
        exact .unplaced (hv.from rfl (restoreClients_keeps hlost).places)
    | @depend i c id d hi ha hc hd =>
        have hsame := clientDependencyAdd_keeps hd
        exact .same (Project.Same.put (.refl _) ⟨c, hc, hsame⟩).places
    | @undepend i c id ha hc =>
        have hsame := clientDependencyRemove_keeps c id
        exact .same (Project.Same.put (.refl _) ⟨c, hc, hsame⟩).places
    | @launch i c g d ha hc hd =>
        have hlost := (ClientsFrom.refl _).put ⟨c, hc, projectLaunchClient_keeps hd⟩
        exact .same ⟨rfl, .refl _, hlost.places⟩
    | rename ha => exact .same (projectRename_keeps (s.session a) _).1.places
    | describe ha => exact .same (projectSetDescription_keeps (s.session a) _).places
    | note ha => exact .same (projectSetNotes_keeps (s.session a) _).places
    | @move name path hi ha =>
        rcases projectMove_places (s.session a) path with ⟨-, hp⟩ | ⟨htries, hfails, hp⟩ |
          ⟨htries, hworks, hdir, hlost, hlive⟩
        · rw [hp]
          exact .same (Project.Same.refl _).places
        · exact .unstored hi ha htries hfails hp
        · exact .moved hi ha htries hworks hdir hlost hlive

end Server

end Lash
