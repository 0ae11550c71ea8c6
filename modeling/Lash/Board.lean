import Lash.Letters
import Lash.Lib.First
import Mathlib.Data.Multiset.AddSub

/-!
# The notice board

Somebody who listens to the bulletins can keep a board with a notice for each project that has
appeared since: its name, where it is and who its clients are. `Board.pin` says what a bulletin does
to the board; like the listener it knows projects by their names only. `step_pins` says that the
board that is kept this way is the one that the daemon's own lists amount to, as long as names tell
projects apart.
-/

namespace Lash

/-! ## Boards -/

/-- What there is to know of a project. -/
structure Notice where
  name : CStr
  dir : CStr
  /-- The ids of its clients, of those whose id can be read. -/
  ids : Multiset Uuid

namespace Notice

/-- A client is there. -/
def enter (n : Notice) (id : CStr) : Notice :=
  match uuidParse id with
  | none => n
  | some id => { n with ids := id ::ₘ n.ids }

/-- A client is gone. -/
def leave (n : Notice) (id : CStr) : Notice :=
  match uuidParse id with
  | none => n
  | some id => { n with ids := n.ids.erase id }

end Notice

/-- The projects in the order in which they appeared. -/
abbrev Board := List Notice

namespace Board

/-- Change the notice of the project with a name. -/
def change (name : CStr) (f : Notice → Notice) (l : Board) : Board :=
  First.modifyFirst (fun n => n.name = name) f l

/-- A bulletin is pinned to the board. -/
def pin (l : Board) : Event → Board
  | .projectAppeared _ name dir => l ++ [⟨name, dir, 0⟩]
  | .projectDisappeared _ name => l.eraseP (fun n => n.name = name)
  | .projectNameChanged _ old new => l.change old (fun n => { n with name := new })
  | .projectPathChanged _ name dir => l.change name (fun n => { n with dir := dir })
  | .clientAppeared _ id name _ => l.change name (fun n => n.enter id)
  | .clientDisappeared _ id name => l.change name (fun n => n.leave id)
  | _ => l

theorem pin_of_not_bulletin (l : Board) {e : Event} (he : e.isBulletin = false) : l.pin e = l := by
  cases e <;> first | rfl | exact absurd he (by simp [Event.isBulletin])

/-- Only bulletins matter. -/
theorem foldl_pin_bulletins (l : Board) (es : List Event) :
    (bulletins es).foldl pin l = es.foldl pin l := by
  induction es generalizing l with
  | nil => rfl
  | cons e es ih =>
      cases he : e.isBulletin with
      | true => rw [bulletins, List.filter_cons_of_pos he, List.foldl_cons, List.foldl_cons, ← ih,
          bulletins]
      | false => rw [bulletins, List.filter_cons_of_neg (by simp [he]), List.foldl_cons,
          pin_of_not_bulletin l he, ← ih, bulletins]

end Board

/-- What there is to know of a project of the daemon. -/
def Project.notice (p : Project) : Notice where
  name := p.name
  dir := p.directory
  ids := ((p.clients.map Client.idStr).filterMap uuidParse : List Uuid)

/-! ## Functions that leave the notice alone -/

variable {s t : Session} {c d : Client}

/-- Clients that are who they were, where they were. -/
theorem idStr_of_places {l l' : List Client} (h : PlacesFrom l l')
    (haddr : l'.map Client.addr = l.map Client.addr) (hn : (l.map Client.addr).Nodup) :
    l'.map Client.idStr = l.map Client.idStr :=
  Keyed.From.map_eq h haddr hn (fun hxy => ⟨hxy.addr, hxy.idStr⟩)

theorem Session.SameHead.notice (h : s.SameHead t)
    (hids : t.p.clients.map Client.idStr = s.p.clients.map Client.idStr) :
    t.p.notice = s.p.notice := by
  rw [Project.notice, Project.notice, h.name, h.directory, hids]

theorem Session.SameHead.notice_enter (h : s.SameHead t) {id : CStr}
    (hids : t.p.clients.map Client.idStr = id :: s.p.clients.map Client.idStr) :
    t.p.notice = s.p.notice.enter id := by
  rw [Project.notice, Project.notice, h.name, h.directory, hids, Notice.enter, List.filterMap_cons]
  cases uuidParse id with
  | none => rfl
  | some id => rfl

theorem projectSave_addrs (s : Session) :
    (projectSave s).p.clients.map Client.addr = s.p.clients.map Client.addr := by
  have hask : (projectSaveStart s).p.clients.map Client.addr = s.p.clients.map Client.addr := by
    unfold projectSaveStart projectClearLostClients
    dsimp only [Session.setFs]
    rw [projectSaveNotes_p]
    unfold projectSaveClients
    dsimp only
    split
    · rfl
    · dsimp only
      rw [List.map_map]
      apply List.map_congr_left
      intro c _
      show (Client.ask _ c).addr = c.addr
      unfold Client.ask
      split <;> rfl
  unfold projectSave
  split
  · rfl
  · dsimp only
    split
    · rw [projectClientsSaveComplete, projectSetModifiedStatus_p]
      refine Eq.trans ?_ hask
      show (projectWriteInfo (projectSaveStart s)).2.p.clients.map Client.addr = _
      unfold projectWriteInfo
      dsimp only
      split <;> rfl
    · exact hask

/-- Whoever is moved with a project stays who he was. -/
theorem projectMove_ids (s : Session) (dir : CStr) :
    (projectMove s dir).p.clients.map Client.idStr = s.p.clients.map Client.idStr := by
  rcases projectMove_places s dir with ⟨-, hp⟩ | ⟨-, -, hp⟩ | ⟨-, -, -, -, hlive⟩
  · rw [hp]
  · rw [hp, List.map_map]
    rfl
  · symm
    rw [← List.forall₂_eq_eq_eq, List.forall₂_map_left_iff, List.forall₂_map_right_iff]
    refine hlive.imp ?_
    rintro x y ⟨st, -, rfl⟩
    rfl

theorem projectUnload_name (s : Session) : (projectUnload s).p.name = s.p.name := by
  have hmove : ∀ u : Session, (unloadMove u).p.name = u.p.name := by
    intro u
    unfold unloadMove
    split
    · exact (projectMove_head u _).1
    · rfl
  have hremove : ∀ u : Session, (unloadRemove u).p.name = u.p.name := by
    intro u
    unfold unloadRemove
    split <;> rfl
  exact (hremove _).trans (hmove _)

/-! ## Functions that change it -/

/-- A new client is one more. -/
theorem projectNewClient_notice {id : Uuid} (hnew : c.addr ∉ s.p.clients.map Client.addr)
    (h : projectNewClient s c id = some t) :
    t.p.notice = s.p.notice.enter (uuidUnparse id) := by
  have hprep : (newClientPrepare s.p s.g.fs c id).1.idStr = uuidUnparse id ∧
      (newClientPrepare s.p s.g.fs c id).1.addr = c.addr := by
    unfold newClientPrepare
    dsimp only
    split <;> exact ⟨rfl, rfl⟩
  have hhead := projectNewClient_head h
  have hclients : t.p.clients.map Client.idStr
      = uuidUnparse id :: s.p.clients.map Client.idStr := by
    unfold projectNewClient at h
    generalize newClientPrepare s.p s.g.fs c id = r at h hprep
    obtain ⟨d, fs⟩ := r
    obtain ⟨hid, haddr⟩ := hprep
    dsimp only at h hid haddr
    split at h
    · exact absurd h (by simp)
    · next e hname =>
        have he := projectNameClient_samePlace hname
        have hput : putClient e (d :: s.p.clients) = e :: s.p.clients := by
          have hrest : Keyed.put Client.addr e s.p.clients = s.p.clients := by
            apply Keyed.put_of_not_mem
            rw [he.addr, haddr]
            exact hnew
          unfold putClient Keyed.put at *
          rw [List.map_cons, hrest, if_pos he.addr.symm]
        rw [← Option.some.inj h]
        show (projectSetModifiedStatus _ true).p.clients.map Client.idStr = _
        rw [projectSetModifiedStatus_p]
        show (putClient e (d :: s.p.clients)).map Client.idStr = _
        rw [hput, List.map_cons, he.idStr, hid]
  exact hhead.notice_enter hclients

theorem clientResumeProject_addrs (h : clientResumeProject s c = some t) :
    t.p.clients.map Client.addr = c.addr :: s.p.clients.map Client.addr := by
  have hprep : (resumePrepare s c).1.p.clients = s.p.clients ∧
      (resumePrepare s c).2.addr = c.addr := by
    refine ⟨rfl, ?_⟩
    unfold resumePrepare
    dsimp only
    split <;> rfl
  unfold clientResumeProject at h
  generalize resumePrepare s c = r at h hprep
  obtain ⟨u, d⟩ := r
  obtain ⟨hclients, haddr⟩ := hprep
  dsimp only at h hclients haddr
  split at h
  · exact absurd h (by simp)
  · next v e stateless hload =>
      have hv := resumeLoad_head hload
      have he : e.addr = c.addr := (resumeLoad_store hload).1.trans haddr
      split at h
      · exact absurd h (by simp)
      · next f hname =>
          generalize hw : Session.emit (Session.put _ f) _ = w at h
          have hwaddr : w.p.clients.map Client.addr = c.addr :: s.p.clients.map Client.addr := by
            rw [← hw]
            show (putClient f (e :: v.p.clients)).map Client.addr = _
            rw [putClient, Keyed.map_key_put, List.map_cons, he, hv, hclients]
          split at h
          · rw [← Option.some.inj h, resumeStateless_addrs]
            exact hwaddr
          · rw [← Option.some.inj h]
            exact hwaddr

/-- So is one that is back. -/
theorem clientResumeProject_notice (hnew : c.addr ∉ s.p.clients.map Client.addr)
    (hn : (s.p.clients.map Client.addr).Nodup) (h : clientResumeProject s c = some t) :
    t.p.notice = s.p.notice.enter c.idStr := by
  have hhead := clientResumeProject_head h
  obtain ⟨-, -, -, d, hback, hlive⟩ := clientResumeProject_places h
  have hclients : t.p.clients.map Client.idStr = (d :: s.p.clients).map Client.idStr := by
    apply idStr_of_places hlive
    · rw [clientResumeProject_addrs h, List.map_cons, hback.addr]
    · rw [List.map_cons, hback.addr]
      exact List.nodup_cons.mpr ⟨hnew, hn⟩
  refine hhead.notice_enter ?_
  rw [hclients, List.map_cons, hback.idStr]

/-- One that is lost is one less. -/
theorem clientDisconnected_notice (hn : (s.p.clients.map Client.addr).Nodup)
    (hc : c ∈ s.p.clients) : (clientDisconnected s c).p.notice = s.p.notice.leave c.idStr := by
  have hhead := clientDisconnected_head s c
  have hclients : (clientDisconnected s c).p.clients = delClient c.addr s.p.clients := by
    unfold clientDisconnected projectLoseClient
    dsimp only
    rw [Session.emit_p, projectSetModifiedStatus_p]
    rfl
  have hperm : (s.p.clients.map Client.idStr).Perm
      (c.idStr :: (delClient c.addr s.p.clients).map Client.idStr) :=
    ((Keyed.cons_del_perm hn hc).map Client.idStr).symm
  have hids := Multiset.coe_eq_coe.mpr (hperm.filterMap uuidParse)
  rw [Project.notice, Project.notice, hhead.name, hhead.directory, hclients, hids, Notice.leave,
    List.filterMap_cons]
  cases uuidParse c.idStr with
  | none => rfl
  | some id =>
      dsimp only
      rw [← Multiset.cons_coe, Multiset.erase_cons_head]

namespace Server

/-- The board that the lists of the daemon amount to, but for some old projects. -/
def board (s : Server) (old : List Addr) : Board :=
  (s.loaded.filter (fun a => a ∉ old)).map (fun a => (s.project a).notice)

/-- A project that is not loaded need not be kept in mind. -/
theorem board_filter (s : Server) (old : List Addr) :
    s.board (old.filter (fun a => a ∈ s.loaded)) = s.board old := by
  unfold board
  congr 1
  apply List.filter_congr
  intro a ha
  simp [List.mem_filter, ha]

/-- What is announced in between is what becomes of the board, whatever projects are old. -/
def Pins (s t : Server) : Prop :=
  ∃ bs, Says s.g t.g bs ∧ ∀ old : List Addr, (∀ a ∈ old, a ∈ s.loaded) →
    t.board old = bs.foldl Board.pin (s.board old)

variable {s s' t u : Server} {a b : Addr} {i : Input} {v : Session}

theorem Pins.trans (h : s.Pins t) (hsub : ∀ a ∈ s.loaded, a ∈ t.loaded) (h' : t.Pins u) :
    s.Pins u := by
  obtain ⟨bs, hsaid, hboard⟩ := h
  obtain ⟨bs', hsaid', hboard'⟩ := h'
  refine ⟨bs ++ bs', hsaid.trans hsaid', ?_⟩
  intro old hold
  rw [hboard' old (fun a ha => hsub a (hold a ha)), hboard old hold, List.foldl_append]

theorem Pins.quiet (h : Quiet s.g t.g) (hboard : ∀ old, t.board old = s.board old) : s.Pins t :=
  ⟨[], h, fun old _ => hboard old⟩

/-- A session that changes nothing that is on the board, or one of a project that is not there. -/
theorem Pins.of_session (h : Quiet s.g v.g)
    (hv : a ∈ s.loaded → v.p.notice = (s.project a).notice) : s.Pins (s.setSession a v) := by
  refine .quiet h ?_
  intro old
  apply List.map_congr_left
  intro b hb
  by_cases hab : b = a
  · subst hab
    rw [setSession_project_self, hv (List.mem_of_mem_filter hb)]
  · rw [setSession_project_ne s v hab]

/-- A name that tells a project apart finds its notice. -/
theorem name_iff (hname : ∀ b ∈ s.loaded, (s.project b).name = (s.project a).name → b = a) :
    ∀ b ∈ s.loaded,
      decide ((s.project b).notice.name = (s.project a).name) = true ↔ b = a := by
  intro b hb
  rw [decide_eq_true_eq]
  refine ⟨hname b hb, ?_⟩
  rintro rfl
  rfl

/-- A session of one project, with one bulletin about it. -/
theorem Pins.change (hl : s.loaded.Nodup)
    (hname : ∀ b ∈ s.loaded, (s.project b).name = (s.project a).name → b = a) {e : Event}
    {f : Notice → Notice} (h : Says s.g v.g [e])
    (he : ∀ l : Board, l.pin e = l.change (s.project a).name f)
    (hv : v.p.notice = f (s.project a).notice) : s.Pins (s.setSession a v) := by
  refine ⟨[e], h, ?_⟩
  intro old _
  rw [List.foldl_cons, List.foldl_nil, he]
  symm
  apply First.modifyFirst_map (hl.filter _)
    (fun b hb => name_iff hname b (List.mem_of_mem_filter hb))
  · intro _
    rw [setSession_project_self, hv]
  · intro b _ hab
    rw [setSession_project_ne s v hab]

/-- A project is loaded that has no clients. -/
def Appears (s t : Server) (a : Addr) (name dir : CStr) : Prop :=
  Says s.g t.g [.projectAppeared a name dir] ∧ ∀ old : List Addr, (∀ b ∈ old, b ∈ s.loaded) →
    t.board old = s.board old ++ [⟨name, dir, 0⟩]

theorem Appears.pins {name dir : CStr} (h : s.Appears t a name dir) : s.Pins t := ⟨_, h.1, h.2⟩

theorem Appears.of_loaded {name dir : CStr} (h : Says s.g t.g [.projectAppeared a name dir])
    (hname : (t.project a).name = name) (hdir : (t.project a).directory = dir)
    (hnone : (t.project a).clients = []) (hnew : a ∉ s.loaded)
    (hloaded : t.loaded = s.loaded ++ [a]) (hothers : ∀ b ∈ s.loaded, t.project b = s.project b) :
    s.Appears t a name dir := by
  refine ⟨h, ?_⟩
  intro old hold
  have hkept : a ∉ old := fun ha => hnew (hold a ha)
  have hfilter : t.loaded.filter (fun b => b ∉ old)
      = s.loaded.filter (fun b => b ∉ old) ++ [a] := by
    rw [hloaded, List.filter_append, List.filter_cons_of_pos (by simpa using hkept),
      List.filter_nil]
  rw [board, hfilter, List.map_append]
  congr 1
  · apply List.map_congr_left
    intro b hb
    rw [hothers b (List.mem_of_mem_filter hb)]
  · rw [List.map_cons, List.map_nil, Project.notice, hname, hdir, hnone]
    rfl

/-- A session whose clients are who they were. -/
theorem Pins.of_places (hw : s.Wf) (h : Quiet s.g v.g) (hhead : (s.session a).SameHead v)
    (hlive : PlacesFrom (s.project a).clients v.p.clients)
    (haddr : v.p.clients.map Client.addr = (s.project a).clients.map Client.addr) :
    s.Pins (s.setSession a v) :=
  .of_session h (fun _ => hhead.notice (idStr_of_places hlive haddr (hw.clients_nodup a)))

/-! ## What each deed does to the board -/

/-- A new project. -/
theorem createNewProject_pins (hfresh : s.g.nextAddr ∉ s.loaded)
    (h : s.createNewProject = some (t, a)) : s.Pins t ∧
      ∀ b ∈ t.loaded, (t.project b).name = (t.project a).name → b = a := by
  have hc := createNewProject_some h
  have hnew : a ∉ s.loaded := by
    rw [hc.fresh]
    exact hfresh
  have hnone : (t.project a).clients = [] := by
    have hview := congrArg View.live (hc.view true)
    simpa [Project.view, projectNew] using hview
  have hne : ∀ b ∈ s.loaded, b ≠ a := fun b hb he => hnew (he ▸ hb)
  have hstep : s.NameStep .bury (t.setSession a (t.session a)) :=
    createNewProject_nameStep hfresh h rfl
  rw [setSession_session] at hstep
  refine ⟨?_, ?_⟩
  · have hothers : ∀ b ∈ s.loaded, t.project b = s.project b :=
      fun b hb => hc.others b (hne b hb)
    unfold createNewProject at h
    split at h
    · exact absurd h (by simp)
    · obtain ⟨rfl, rfl⟩ := Prod.mk.inj (Option.some.inj h)
      refine (Appears.of_loaded (.announce _ rfl) ?_ ?_ hnone hnew hc.loaded hothers).pins
      · exact congrArg Project.name (setSession_project_self s _ _)
      · exact congrArg Project.directory (setSession_project_self s _ _)
  · intro b hb hname
    cases hstep with
    | same hsub =>
        have hmem : a ∈ t.loaded := by
          rw [hc.loaded]
          exact List.mem_append_right _ (List.mem_singleton_self a)
        exact absurd (hsub a hmem) hnew
    | @more _ c _ hloaded hsame hfree =>
        have hac : c = a := by
          have hboth := hloaded.symm.trans hc.loaded
          simpa using hboth
        subst hac
        rw [hloaded, List.mem_append, List.mem_singleton] at hb
        rcases hb with hb | rfl
        · rw [hsame b hb] at hname
          exact absurd hname (hfree b hb)
        · rfl

/-- Somebody connects who is new. -/
theorem join_pins (hw : s.Wf) (hn : s.NamesIdentify) {sender : CStr} {pid : Int} {cls : CStr}
    {flags : Flags} {wd : CStr} {argv : List CStr} {id : Uuid}
    (hborn : getNewbornProject { s with g := { s.g with nextAddr := s.g.nextAddr + 1 } }
      = some (t, a))
    (hv : projectNewClient ((t.session a).emit (.connected a s.g.nextAddr sender))
      (newClient s.g.nextAddr sender pid cls flags wd argv) id = some v) :
    s.Pins (t.setSession a v) := by
  have hb := hw.newborn hborn
  have hstart : s.Pins t ∧ ∀ b ∈ t.loaded, (t.project b).name = (t.project a).name → b = a := by
    rcases getNewbornProject_some hborn with ⟨rfl, ha⟩ | hnew
    · exact ⟨.quiet (.of_eq rfl) (fun _ => rfl), fun b hb hname => hn.unique b hb a ha hname⟩
    · have hfree : s.g.nextAddr + 1 ∉ s.loaded :=
        fun hmem => Nat.not_succ_lt_self (hw.known _ (Or.inl hmem))
      exact createNewProject_pins (s := { s with g := { s.g with nextAddr := s.g.nextAddr + 1 } })
        hfree hnew
  obtain ⟨hpins, hname⟩ := hstart
  have hsub : ∀ b ∈ s.loaded, b ∈ t.loaded := by
    intro b hmem
    rcases getNewbornProject_some hborn with ⟨rfl, -⟩ | hnew
    · exact hmem
    · rw [(createNewProject_some hnew).loaded]
      exact List.mem_append_left _ hmem
  obtain ⟨name, hsaid⟩ := projectNewClient_said hv
  have hfresh : s.g.nextAddr ∉ (t.project a).clients.map Client.addr := by
    intro hmem
    obtain ⟨d, hd, haddr⟩ := List.mem_map.mp hmem
    have hj : d.job ∈ ((t.project a).view (decide (a ∈ s.loaded))).live := List.mem_map_of_mem hd
    rw [hb.view] at hj
    have hlt := hw.bound a d.addr (List.mem_map_of_mem (List.mem_append_left _ hj))
    rw [haddr] at hlt
    exact Nat.lt_irrefl _ hlt
  have hnotice := projectNewClient_notice hfresh hv
  refine hpins.trans hsub ?_
  exact .change hb.loaded hname (f := fun n => n.enter (uuidUnparse id))
    ((Says.emit t.g rfl).after hsaid) (fun l => rfl) hnotice

/-- A client that was lost is back. -/
theorem resume_pins (hw : s.Wf) (hn : s.NamesIdentify) {c : Client} {sender : CStr}
    (ha : a ∈ s.loaded) (hc : c ∈ (s.project a).lostClients)
    (hv : clientResumeProject ((s.session a).emit (.connected a c.addr sender))
      (c.reconnect sender) = some v) : s.Pins (s.setSession a v) := by
  obtain ⟨name, hsaid⟩ := clientResumeProject_said hv
  have hnew : c.addr ∉ (s.project a).clients.map Client.addr := by
    intro hmem
    obtain ⟨d, hd, haddr⟩ := List.mem_map.mp hmem
    exact (hw.distinct a).ne (List.mem_map_of_mem hd) (List.mem_map_of_mem hc) haddr
  refine .change hw.loaded (fun b hb hname => hn.unique b hb a ha hname)
    (f := fun n => n.enter c.idStr) ((Says.emit s.g rfl).after hsaid) (fun l => rfl) ?_
  exact clientResumeProject_notice (s := (s.session a).emit _) (c := c.reconnect sender) hnew
    (hw.clients_nodup a) hv

/-- A client is lost. -/
theorem leave_pins (hw : s.Wf) (hn : s.NamesIdentify) {c : Client} (ha : a ∈ s.loaded)
    (hc : c ∈ (s.project a).clients) (childs : List Child) :
    s.Pins ({ s with g := { s.g with childs := childs } }.setSession a
      (clientDisconnected { g := { s.g with childs := childs }, p := s.project a } c)) := by
  generalize hg : ({ s.g with childs := childs } : Globals) = g
  have hsaid := clientDisconnected_said { g := g, p := s.project a } c
  have hbegin : s.Pins { s with g := g } := by
    rw [← hg]
    exact .quiet (.of_eq rfl) (fun _ => rfl)
  refine hbegin.trans (fun b hb => hb) ?_
  refine .change hw.loaded (fun b hb hname => hn.unique b hb a ha hname)
    (f := fun n => n.leave c.idStr) hsaid (fun l => rfl) ?_
  exact clientDisconnected_notice (hw.clients_nodup a) hc

/-- A project is closed, and perhaps moved before. -/
theorem close_pins (hw : s.Wf) (hn : s.NamesIdentify) (ha : a ∈ s.loaded) :
    s.Pins (s.closeProject a) := by
  have hname : ((s.setSession a (projectUnload (s.session a))).project a).name
      = (s.project a).name := by
    rw [setSession_project_self]
    exact projectUnload_name (s.session a)
  have hg : (s.closeProject a).g
      = (projectUnload (s.session a)).g.emit (.projectDisappeared a (s.project a).name) := by
    rw [← hname]
    rfl
  have hboard : ∀ old, (s.closeProject a).board old
      = (s.board old).eraseP (fun n => n.name = (s.project a).name) := by
    intro old
    have hloaded : (s.closeProject a).loaded.filter (fun b => b ∉ old)
        = (s.loaded.filter (fun b => b ∉ old)).erase a := by
      rw [(hw.loaded.filter _).erase_eq_filter, List.filter_comm, ← hw.loaded.erase_eq_filter]
      rfl
    have hiff := name_iff (fun b hb hname => hn.unique b hb a ha hname)
    rw [board, board, hloaded, First.eraseP_map (fun b hb => hiff b (List.mem_of_mem_filter hb))]
    apply List.map_congr_left
    intro b hb
    have hne : b ≠ a := by
      rintro rfl
      exact (hw.loaded.filter _).not_mem_erase hb
    exact congrArg Project.notice (setSession_project_ne _ _ hne)
  rcases projectUnload_said (s.session a) with hsaid | ⟨dir, hsaid⟩
  · refine ⟨[.projectDisappeared a (s.project a).name], ?_, ?_⟩
    · rw [hg]
      exact Says.after hsaid (.announce _ rfl)
    · intro old _
      rw [hboard]
      rfl
  · refine ⟨[.projectPathChanged (s.project a).addr (s.project a).name dir,
      .projectDisappeared a (s.project a).name], ?_, ?_⟩
    · rw [hg]
      exact Says.trans hsaid (.announce _ rfl)
    · intro old _
      rw [hboard]
      symm
      apply First.eraseP_modifyFirst
      intro n hname
      exact hname

/-- A project that was read is loaded under its name. -/
theorem startRestore_appears (hnot : a ∉ s.loaded) (hnone : (s.project a).clients = [])
    (h : s.startRestore a = some t) :
    s.Appears t a (s.project a).name (s.project a).directory := by
  obtain ⟨g, lost, hlost, rfl⟩ := startRestore_some h
  refine .of_loaded ?_ ?_ ?_ ?_ hnot rfl ?_
  · refine Says.before ?_ (restoreClients_said hlost)
    exact ((Says.announce _ rfl).before (.emit _ rfl)).before (.emit _ rfl)
  · rw [setSession_project_self]
  · rw [setSession_project_self]
  · rw [setSession_project_self]
    exact hnone
  · intro b hb
    exact setSession_project_ne _ _ (fun he => hnot (he ▸ hb))

/-- A project is restored. -/
theorem restore_pins (hw : s.Wf) (hr : s.RestoresApart i) (hi : s.restoring i = some a)
    (hnot : a ∉ s.loaded) {ok : Bool} (h : s.projectRestore a = some (ok, t)) : s.Pins t := by
  unfold projectRestore at h
  rw [if_neg hnot] at h
  split at h
  · exact absurd h (by simp)
  · next u hload =>
      obtain ⟨-, rfl⟩ := Prod.mk.inj (Option.some.inj h)
      exact .of_session (.of_eq (projectLoad_log hload)) (fun ha => absurd ha hnot)
  · next u hload =>
      have hfree := hr a hi (true, u) hload rfl
      dsimp only at h hfree
      rw [← findProjectByName_setSession hnot u] at hfree
      rw [hfree] at h
      obtain ⟨v, hv, he⟩ := Option.map_eq_some_iff.mp h
      obtain ⟨-, rfl⟩ := Prod.mk.inj he
      have hread : s.Pins (s.setSession a u) :=
        .of_session (.of_eq (projectLoad_log hload)) (fun ha => absurd ha hnot)
      refine hread.trans (fun b hb => hb)
        (startRestore_appears (s := s.setSession a u) hnot ?_ hv).pins
      rw [setSession_project_self]
      exact (projectLoad_unplaced (hw.unplaced hnot) hload).1

/-- **The board is kept**: what a step announces is what becomes of the lists of the daemon. -/
theorem step_pins (hw : s.Wf) (hn : s.NamesIdentify) (hr : s.RestoresApart i)
    (h : s.step i = some s') : s.Pins s' := by
  have hunique : ∀ a ∈ s.loaded, ∀ b ∈ s.loaded, (s.project b).name = (s.project a).name → b = a :=
    fun a ha b hb hname => hn.unique b hb a ha hname
  cases step_deed h with
  | nothing => exact .quiet (.refl _) (fun _ => rfl)
  | children childs => exact .quiet (.of_eq rfl) (fun _ => rfl)
  | outside fs forks => exact .quiet (.of_eq rfl) (fun _ => rfl)
  | join hi hborn hu => exact join_pins hw hn hborn hu
  | resume hi ha hc hu => exact resume_pins hw hn ha hc hu
  | leave childs hi ha hc => exact leave_pins hw hn ha hc childs
  | @complete _ a u c ok v hi ha hv =>
      obtain ⟨-, d, hd, -, hcase⟩ := reporting_cases hi
      obtain ⟨e, hbadge, -, hclients⟩ := clientTaskCompleted_clears hv
      have hu : u.g = s.g ∧ (s.session a).SameHead u ∧
          u.p.clients.map Client.addr = (s.project a).clients.map Client.addr := by
        rcases hcase with ⟨rfl, -⟩ | ⟨_, _, _, _, _, -, -, -, -, -, rfl, rfl⟩
        · exact ⟨rfl, .refl _, rfl⟩
        · exact ⟨rfl, ⟨rfl, rfl, rfl, rfl, rfl, Or.inl rfl⟩, Keyed.map_key_put _ _⟩
      obtain ⟨hg, hhead, haddr⟩ := hu
      refine .of_places hw ?_ (hhead.trans (clientTaskCompleted_head hv))
        (complete_keeps hi hv).live.places ?_
      · rw [← hg]
        exact clientTaskCompleted_said hv
      · rw [hclients, putClient, Keyed.map_key_put, haddr]
  | @progress _ a c n ha hc hi =>
      refine .of_places hw (projectClientProgress_said _ c n) (projectClientProgress_head _ c n)
        (projectClientProgress_keeps ⟨c, hc, .refl c⟩ n).1.live.places ?_
      rw [(projectClientProgress_clients (s.session a) c n).1]
      exact Keyed.map_key_put _ _
  | @save _ a hi ha =>
      have hset : s.Pins (s.setSession a (Lash.projectSave (s.session a))) :=
        .of_places hw (projectSave_said _) (projectSave_head _) (projectSave_keeps _).live.places
          (projectSave_addrs _)
      unfold projectSave
      dsimp only
      split
      · exact hset
      · obtain ⟨bs, hsaid, hboard⟩ := hset
        exact ⟨bs, hsaid, hboard⟩
  | close hi ha => exact close_pins hw hn ha
  | restore ha hnot hi ht => exact restore_pins hw hr hi hnot ht
  | depend hi ha hc hd =>
      refine .of_places hw (.refl _) ⟨rfl, rfl, rfl, rfl, rfl, Or.inl rfl⟩ ?_
        (Keyed.map_key_put _ _)
      exact (PlacesFrom.refl _).put ⟨_, hc, (clientDependencyAdd_keeps hd).toSamePlace⟩
  | undepend id hi ha hc =>
      refine .of_places hw (.refl _) ⟨rfl, rfl, rfl, rfl, rfl, Or.inl rfl⟩ ?_
        (Keyed.map_key_put _ _)
      exact (PlacesFrom.refl _).put ⟨_, hc, (clientDependencyRemove_keeps _ id).toSamePlace⟩
  | launch ha hc hd => exact .of_session (projectLaunchClient_said hd) (fun _ => rfl)
  | @rename a old new ha =>
      have hs' : (s.onProject old (fun c =>
          s.setSession c (Lash.projectRename (s.session c) new))).1
          = s.setSession a (Lash.projectRename (s.session a) new) := Option.some.inj h
      rw [← hs', onProject]
      split
      · exact .quiet (.refl _) (fun _ => rfl)
      · next c hfind =>
          refine .change hw.loaded (hunique c (List.mem_of_find?_eq_some hfind))
            (f := fun n => { n with name := new }) (projectRename_said (s.session c) new)
            (fun l => rfl) ?_
          unfold Lash.projectRename
          rw [projectSetModifiedStatus_p]
          rfl
  | @describe a name description ha =>
      refine .of_session (signal_said _ rfl true) (fun _ => ?_)
      unfold projectSetDescription
      rw [projectSetModifiedStatus_p]
      rfl
  | @note a name notes ha =>
      refine .of_session (signal_said _ rfl true) (fun _ => ?_)
      unfold projectSetNotes
      rw [projectSetModifiedStatus_p]
      rfl
  | @move a name path hi ha =>
      have hids := projectMove_ids (s.session a) path
      have hname := (projectMove_head (s.session a) path).1
      rcases projectMove_said (s.session a) path with ⟨hdir, hsaid⟩ | ⟨hdir, hsaid⟩
      · refine .of_session hsaid (fun _ => ?_)
        rw [Project.notice, Project.notice, hname, hdir, hids]
        rfl
      · refine .change hw.loaded (hunique a ha) (f := fun n => { n with dir := path }) hsaid
          (fun l => rfl) ?_
        rw [Project.notice, Project.notice, hname, hdir, hids]
        rfl

end Server

end Lash
