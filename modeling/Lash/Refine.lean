import Lash.Moves

/-!
# Every step is a move

The invariant of the server (`Server.Wf`): structures have the address under which they are kept,
no client is in two places, a project that is not loaded has no clients. And the theorem that
connects the daemon to the protocol: whatever input arrives, each project makes one move, the log
grows by the events of that move, and the input explains it (`Server.step_move`). What is true of
all moves is therefore true of all runs of the daemon.
-/

namespace Lash

/-! ## Addresses in a move -/

/-- The clients that a move brings into a project. -/
def Act.brings : Act → List Addr
  | .join c => [c.addr]
  | .restore clients => clients.map Job.addr
  | _ => []

namespace View

/-- The addresses of the clients of a project. -/
def addrs (v : View) : List Addr := v.jobs.map Job.addr

@[simp] theorem live_count (v : View) : v.count.live = v.live := by
  unfold count
  split
  · rfl
  · split <;> rfl

@[simp] theorem lost_count (v : View) : v.count.lost = v.lost := by
  unfold count
  split
  · rfl
  · split <;> rfl

@[simp] theorem addrs_count (v : View) : v.count.addrs = v.addrs := by
  unfold count
  split
  · rfl
  · split <;> rfl

@[simp] theorem loaded_count (v : View) : v.count.loaded = v.loaded := by
  unfold count
  split
  · rfl
  · split <;> rfl

@[simp] theorem jobs_count (v : View) : v.count.jobs = v.jobs := by
  unfold count
  split
  · rfl
  · split <;> rfl

@[simp] theorem addrs_put (v : View) (c : Job) : (v.put c).addrs = v.addrs := by
  simp [addrs, put, jobs]

theorem addrs_eq (v : View) : v.addrs = v.live.map Job.addr ++ v.lost.map Job.addr := by
  rw [addrs, jobs, List.map_append]

@[simp] theorem addrs_ask (v : View) (task : Nat) :
    (v.ask task).addrs = v.live.map Job.addr := by
  have hask : ∀ c : Job, (c.ask task).addr = c.addr := by
    intro c
    unfold Job.ask
    split <;> rfl
  rw [addrs_eq]
  simp [ask, Function.comp_def, hask]

/-- A live client is lost. -/
theorem addrs_drop {v : View} (hd : v.Distinct) {c d : Job} (hc : c ∈ v.live)
    (h : d.addr = c.addr) : ({ v.drop c with lost := d :: v.lost } : View).addrs.Perm v.addrs := by
  rw [addrs_eq, addrs_eq]
  have hp := (Keyed.map_cons_del_perm hd.live hc).append_right (v.lost.map Job.addr)
  refine List.Perm.trans ?_ hp
  show ((Keyed.del Job.addr c.addr v.live).map Job.addr ++ d.addr :: v.lost.map Job.addr).Perm _
  rw [h]
  exact List.perm_middle

/-- A lost client is live again. -/
theorem addrs_revive {v : View} (hd : v.Distinct) {c d : Job} (hc : c ∈ v.lost)
    (h : d.addr = c.addr) : (v.revive d).addrs.Perm v.addrs := by
  rw [addrs_eq, addrs_eq]
  have hp := (Keyed.map_cons_del_perm hd.lost hc).append_left (v.live.map Job.addr)
  refine List.Perm.trans ?_ hp
  show (d.addr :: (v.live.map Job.addr) ++ (Keyed.del Job.addr d.addr v.lost).map Job.addr).Perm _
  rw [h]
  exact List.perm_middle.symm

end View

theorem forall₂_map_eq {α β : Type*} {R : α → α → Prop} {f : α → β} {l l' : List α}
    (h : List.Forall₂ R l l') (hf : ∀ x y, R x y → f y = f x) : l'.map f = l.map f := by
  induction h with
  | nil => rfl
  | cons hr _ ih => rw [List.map_cons, List.map_cons, hf _ _ hr, ih]

theorem Job.Satisfied.addr {id : Uuid} {c c' : Job} (h : Job.Satisfied id c c') :
    c'.addr = c.addr := by
  obtain ⟨pid, rfl⟩ := h
  rfl

theorem Job.Restored.addr {ids : List Uuid} {c c' : Job} (h : Job.Restored ids c c') :
    c'.addr = c.addr := by
  obtain ⟨pid, rfl⟩ := h
  rfl

/-- The clients after a move were there before, or the move brought them; none is twice there. -/
theorem Move.addrs {a : Addr} {v v' : View} {act : Act} {evs : List Event}
    (h : Move a v act evs v') (hd : v.Distinct) :
    v'.addrs.Nodup ∧ ∀ x ∈ v'.addrs, x ∈ v.addrs ∨ x ∈ act.brings := by
  have hsame : ∀ w : View, w.addrs.Perm v.addrs →
      w.addrs.Nodup ∧ ∀ x ∈ w.addrs, x ∈ v.addrs ∨ x ∈ act.brings := by
    intro w hw
    exact ⟨hw.nodup_iff.mpr hd, fun x hx => Or.inl (hw.mem_iff.mp hx)⟩
  have hsub : ∀ w : View, w.addrs.Sublist v.addrs →
      w.addrs.Nodup ∧ ∀ x ∈ w.addrs, x ∈ v.addrs ∨ x ∈ act.brings := by
    intro w hw
    exact ⟨hd.sublist hw, fun x hx => Or.inl (hw.subset hx)⟩
  cases h with
  | quiet => exact hsame _ (.refl _)
  | @join c name fresh idle hnew deps hname =>
      have he : ({ v with loaded := true, live := c :: v.live } : View).addrs = c.addr :: v.addrs :=
        rfl
      rw [he]
      refine ⟨List.nodup_cons.mpr ⟨fresh, hd⟩, ?_⟩
      intro x hx
      rcases List.mem_cons.mp hx with rfl | hx
      · exact Or.inr (by simp [Act.brings])
      · exact Or.inl hx
  | leave hc => exact hsame _ (View.addrs_drop hd hc rfl)
  | sent hc hpid ht he => exact hsame _ (View.addrs_revive hd hc rfl)
  | silent hc hpid => exact hsame _ (View.addrs_revive hd hc rfl)
  | stateless hc hpid =>
      apply hsame
      rw [View.addrs_count]
      exact View.addrs_revive hd hc rfl
  | cleared hc hp ht => exact hsame _ (by rw [View.addrs_put])
  | failed hc hp ht => exact hsame _ (by rw [View.addrs_count, View.addrs_put])
  | saved hc hp ht => exact hsame _ (by rw [View.addrs_count, View.addrs_put])
  | @restored c lost written modified pname hc hp ht hlost =>
      apply hsame
      have hmap := forall₂_map_eq hlost (fun _ _ hr => hr.addr)
      rw [View.addrs_count, View.addrs_put, View.addrs_eq, View.addrs_eq]
      dsimp only
      rw [hmap]
  | skipped ht hc hp he =>
      apply hsub
      rw [View.addrs_eq, View.addrs_eq]
      simp
  | asked ht hp htask he =>
      apply hsub
      rw [View.addrs_ask, View.addrs_eq]
      simp
  | close => exact hsub _ (by simp [View.addrs, View.jobs])
  | @restore clients lost hl hj hidle hdist hlost =>
      have hmap := forall₂_map_eq hlost (fun _ _ hr => hr.addr)
      have hlive : v.live = [] := (List.append_eq_nil_iff.mp hj).1
      have he : ({ v with loaded := true, task := .load, pending := clients.length, lost := lost }
          : View).addrs = clients.map Job.addr := by
        rw [View.addrs_eq]
        simp [hlive, hmap]
      rw [he]
      exact ⟨hdist, fun x hx => Or.inr hx⟩
  | launch hc => exact hsame _ (by simp [View.addrs_eq])
  | depend hc => exact hsame _ (by rw [View.addrs_put])
  | undepend hc => exact hsame _ (by rw [View.addrs_put])

/-- A project that is not loaded has no clients, and a move keeps it so. -/
theorem Move.unloaded {a : Addr} {v v' : View} {act : Act} {evs : List Event}
    (h : Move a v act evs v') (hv : v.loaded = false → v.jobs = []) :
    v'.loaded = false → v'.jobs = [] := by
  have hlive : ∀ c, c ∈ v.live → v.loaded = false → False := by
    intro c hc hl
    have hj := hv hl
    rw [View.jobs, List.append_eq_nil_iff] at hj
    rw [hj.1] at hc
    exact absurd hc (by simp)
  have hlost : ∀ c, c ∈ v.lost → v.loaded = false → False := by
    intro c hc hl
    have hj := hv hl
    rw [View.jobs, List.append_eq_nil_iff] at hj
    rw [hj.2] at hc
    exact absurd hc (by simp)
  cases h with
  | quiet => exact hv
  | close => intro _; rfl
  | join => intro hl; exact absurd hl (by simp)
  | restore => intro hl; exact absurd hl (by simp)
  | leave hc | depend hc | undepend hc => intro hl; exact (hlive _ hc hl).elim
  | sent hc | silent hc | launch hc => intro hl; exact (hlost _ hc hl).elim
  | stateless hc =>
      intro hl
      rw [View.loaded_count] at hl
      exact (hlost _ hc hl).elim
  | cleared hc => intro hl; exact (hlive _ hc hl).elim
  | failed hc | saved hc | restored hc =>
      intro hl
      rw [View.loaded_count] at hl
      exact (hlive _ hc hl).elim
  | skipped _ hc => intro hl; exact (hlive _ hc hl).elim
  | asked =>
      intro hl
      have hj := hv hl
      rw [View.jobs, List.append_eq_nil_iff] at hj
      simp [View.jobs, View.ask, hj.1]

/-! ## The invariant of the server -/

namespace Server

structure Wf (s : Server) : Prop where
  addr : ∀ a, (s.project a).addr = a
  loaded : s.loaded.Nodup
  known : ∀ a, a ∈ s.loaded ∨ a ∈ s.all → a < s.g.nextAddr
  new : ∀ a, s.g.nextAddr ≤ a → s.project a = projectNew a
  unloaded : ∀ a, (s.view a).loaded = false → (s.view a).jobs = []
  distinct : ∀ a, (s.view a).Distinct
  bound : ∀ a, ∀ x ∈ (s.view a).addrs, x < s.g.nextAddr

/-- Nothing happened to any project. -/
structure Unmoved (s s' : Server) : Prop where
  project : s'.project = s.project
  loaded : s'.loaded = s.loaded
  all : s'.all = s.all
  nextAddr : s'.g.nextAddr = s.g.nextAddr
  log : s'.g.log = s.g.log

/-- One project made a move. -/
structure MovesAt (s s' : Server) (a : Addr) (act : Act) : Prop where
  move : ∃ evs, Move a (s.view a) act evs (s'.view a) ∧ Logged a s.g s'.g evs
  addr : (s'.project a).addr = a
  others : ∀ b ≠ a, s'.project b = s.project b ∧ (b ∈ s'.loaded ↔ b ∈ s.loaded)
  loaded : s'.loaded.Nodup
  nextAddr : s.g.nextAddr ≤ s'.g.nextAddr
  known : a < s'.g.nextAddr
  all : ∀ b ∈ s'.all, b ∈ s.all ∨ b = a
  brings : ∀ x ∈ act.brings, s.g.nextAddr ≤ x ∧ x < s'.g.nextAddr

variable {s s' : Server} {a : Addr} {act : Act}

theorem Wf.clients_nodup (hw : s.Wf) (a : Addr) :
    ((s.project a).clients.map Client.addr).Nodup := by
  have hview := (hw.distinct a).live
  rwa [Server.view, Project.view, List.map_map] at hview

theorem Unmoved.refl (s : Server) : s.Unmoved s := ⟨rfl, rfl, rfl, rfl, rfl⟩

theorem Unmoved.view (h : s.Unmoved s') (a : Addr) : s'.view a = s.view a := by
  unfold Server.view
  rw [h.project, h.loaded]

theorem MovesAt.view_ne (h : s.MovesAt s' a act) {b : Addr} (hb : b ≠ a) :
    s'.view b = s.view b := by
  obtain ⟨hp, hl⟩ := h.others b hb
  unfold Server.view
  rw [hp]
  congr 1
  exact decide_eq_decide.mpr hl

theorem Unmoved.wf (h : s.Unmoved s') (hw : s.Wf) : s'.Wf where
  addr := by rw [h.project]; exact hw.addr
  loaded := by rw [h.loaded]; exact hw.loaded
  known := by rw [h.loaded, h.all, h.nextAddr]; exact hw.known
  new := by rw [h.project, h.nextAddr]; exact hw.new
  unloaded := fun a => by rw [h.view]; exact hw.unloaded a
  distinct := fun a => by rw [h.view]; exact hw.distinct a
  bound := fun a => by rw [h.view, h.nextAddr]; exact hw.bound a

theorem MovesAt.wf (h : s.MovesAt s' a act) (hw : s.Wf) : s'.Wf := by
  obtain ⟨evs, hmove, _⟩ := h.move
  obtain ⟨hnodup, hmem⟩ := hmove.addrs (hw.distinct a)
  constructor
  case addr =>
    intro b
    by_cases hb : b = a
    · rw [hb]; exact h.addr
    · rw [(h.others b hb).1]; exact hw.addr b
  case loaded => exact h.loaded
  case known =>
    intro b hb
    by_cases hba : b = a
    · rw [hba]; exact h.known
    · apply Nat.lt_of_lt_of_le _ h.nextAddr
      apply hw.known
      rcases hb with hb | hb
      · exact Or.inl ((h.others b hba).2.mp hb)
      · exact Or.inr ((h.all b hb).resolve_right hba)
  case new =>
    intro b hb
    have hba : b ≠ a := fun he => Nat.not_le_of_lt h.known (he ▸ hb)
    rw [(h.others b hba).1]
    exact hw.new b (h.nextAddr.trans hb)
  case unloaded =>
    intro b
    by_cases hb : b = a
    · rw [hb]; exact hmove.unloaded (hw.unloaded a)
    · rw [h.view_ne hb]; exact hw.unloaded b
  case distinct =>
    intro b
    by_cases hb : b = a
    · rw [hb]; exact hnodup
    · rw [h.view_ne hb]; exact hw.distinct b
  case bound =>
    intro b x hx
    by_cases hb : b = a
    · rw [hb] at hx
      rcases hmem x hx with hx | hx
      · exact Nat.lt_of_lt_of_le (hw.bound a x hx) h.nextAddr
      · exact (h.brings x hx).2
    · rw [h.view_ne hb] at hx
      exact Nat.lt_of_lt_of_le (hw.bound b x hx) h.nextAddr

theorem view_setSession {t : Session} (h : a ∈ s.loaded) :
    (s.setSession a t).view a = t.p.view true := by
  rw [Server.view, setSession_project_self, setSession_loaded, decide_eq_true h]

/-- Something without a trace, then a move. -/
theorem Unmoved.then_moves {t : Server} (h : s.Unmoved t) (h' : t.MovesAt s' a act) :
    s.MovesAt s' a act where
  move := by
    obtain ⟨evs, hmove, es, hlog, hes, hf⟩ := h'.move
    rw [h.view] at hmove
    rw [h.log] at hlog
    exact ⟨evs, hmove, es, hlog, hes, hf⟩
  addr := h'.addr
  others := by rw [← h.project, ← h.loaded]; exact h'.others
  loaded := h'.loaded
  nextAddr := by rw [← h.nextAddr]; exact h'.nextAddr
  known := h'.known
  all := by rw [← h.all]; exact h'.all
  brings := by rw [← h.nextAddr]; exact h'.brings

/-- A function that works on one loaded project. -/
theorem Wf.movesAt (hw : s.Wf) (ha : a ∈ s.loaded) {t : Session}
    (hm : (s.session a).Makes t true true act) (hnone : act.brings = []) :
    s.MovesAt (s.setSession a t) a act := by
  obtain ⟨evs, hmove, hsteps⟩ := hm
  have haddr : (s.session a).p.addr = a := hw.addr a
  have hv : s.view a = (s.session a).p.view true := by simp [Server.view, ha]
  have hv' : (s.setSession a t).view a = t.p.view true := view_setSession ha
  have hlog := hsteps.logged
  rw [haddr] at hmove hlog
  constructor
  case move =>
    rw [hv, hv']
    exact ⟨evs, hmove, hlog⟩
  case addr => rw [setSession_project_self, hsteps.addr, haddr]
  case others => exact fun b hb => ⟨setSession_project_ne s t hb, Iff.rfl⟩
  case loaded => exact hw.loaded
  case nextAddr => exact le_of_eq hsteps.nextAddr.symm
  case known =>
    rw [setSession_g, hsteps.nextAddr]
    exact hw.known a (Or.inl ha)
  case all => exact fun b hb => Or.inl hb
  case brings => intro x hx; rw [hnone] at hx; exact absurd hx (by simp)

/-! ## Lookups -/

theorem findClient_some {list : Project → List Client} {q : Client → Bool} {c : Client}
    (h : s.findClient list q = some (a, c)) : a ∈ s.loaded ∧ c ∈ list (s.project a) ∧ q c := by
  unfold findClient at h
  obtain ⟨b, hb, hfind⟩ := List.exists_of_findSome?_eq_some h
  obtain ⟨d, hd, he⟩ := Option.map_eq_some_iff.mp hfind
  obtain ⟨rfl, rfl⟩ := Prod.mk.inj he
  exact ⟨hb, List.mem_of_find?_eq_some hd, List.find?_some hd⟩

theorem findProjectByName_mem {name : CStr} (h : s.findProjectByName name = some a) :
    a ∈ s.loaded :=
  List.mem_of_find?_eq_some h

/-! ## The inputs -/

/-- What a step may be: nothing, or a move that the input explains. -/
def Answers (s s' : Server) (i : Input) : Prop :=
  s.Unmoved s' ∨ ∃ a act, s.MovesAt s' a act ∧ s.Explains i a act

theorem Answers.nothing (i : Input) : s.Answers s i := Or.inl (.refl s)

/-- A loaded project made a quiet move. -/
theorem Wf.answers_quiet (hw : s.Wf) (i : Input) (ha : a ∈ s.loaded) {t : Session}
    (hm : (s.session a).Makes t true true .quiet) : s.Answers (s.setSession a t) i :=
  Or.inr ⟨a, .quiet, hw.movesAt ha hm rfl, trivial⟩

theorem view_of_loaded (ha : a ∈ s.loaded) : s.view a = (s.session a).p.view true := by
  simp [Server.view, ha]

/-- `server_get_newborn_project` finds a loaded project or makes one. -/
theorem getNewbornProject_some (h : s.getNewbornProject = some (s', a)) :
    (s' = s ∧ a ∈ s.loaded) ∨ s.createNewProject = some (s', a) := by
  unfold getNewbornProject at h
  split at h
  · next b hb =>
      obtain ⟨rfl, rfl⟩ := Prod.mk.inj (Option.some.inj h)
      exact Or.inl ⟨rfl, List.mem_of_find?_eq_some hb⟩
  · split at h
    · next b hb =>
        obtain ⟨rfl, rfl⟩ := Prod.mk.inj (Option.some.inj h)
        exact Or.inl ⟨rfl, List.mem_of_getLast? hb⟩
    · exact Or.inr h

/-- What a server with a new project looks like. -/
structure Created (s s' : Server) (a : Addr) : Prop where
  fresh : a = s.g.nextAddr
  nextAddr : s'.g.nextAddr = a + 1
  addr : (s'.project a).addr = a
  view : ∀ l, (s'.project a).view l = (projectNew a).view l
  others : ∀ b ≠ a, s'.project b = s.project b
  loaded : s'.loaded = s.loaded ++ [a]
  all : s'.all = s.all
  logged : Logged a s.g s'.g []

theorem createNewProject_some (h : s.createNewProject = some (s', a)) : s.Created s' a := by
  unfold createNewProject at h
  split at h
  · exact absurd h (by simp)
  · next name hname =>
      obtain ⟨rfl, rfl⟩ := Prod.mk.inj (Option.some.inj h)
      constructor
      case fresh => rfl
      case nextAddr => rfl
      case addr =>
        show Project.addr (Function.update s.project s.g.nextAddr _ s.g.nextAddr) = _
        rw [Function.update_self]
        rfl
      case view =>
        intro l
        show Project.view (Function.update s.project s.g.nextAddr _ s.g.nextAddr) l = _
        rw [Function.update_self]
        rfl
      case others => exact fun b hb => setSession_project_ne s _ hb
      case loaded => rfl
      case all => rfl
      case logged => exact ⟨[.projectAppeared _ _ _], rfl, by simp [Event.project], rfl⟩

/-- The project that a new client joins, as it is when the client is made: what it was before, or a
new one. -/
structure Newborn (s s' : Server) (a : Addr) : Prop where
  view : (s'.project a).view (decide (a ∈ s.loaded)) = s.view a
  idle : a ∉ s.loaded → (s.view a).task = .idle ∧ (s.view a).pending = 0
  addr : (s'.project a).addr = a
  others : ∀ b ≠ a, s'.project b = s.project b ∧ (b ∈ s'.loaded ↔ b ∈ s.loaded)
  loaded : s'.loaded.Nodup
  mem : a ∈ s'.loaded
  all : s'.all = s.all
  nextAddr : s.g.nextAddr < s'.g.nextAddr
  known : a < s'.g.nextAddr
  logged : Logged a s.g s'.g []

theorem Wf.newborn (hw : s.Wf)
    (h : getNewbornProject { s with g := { s.g with nextAddr := s.g.nextAddr + 1 } }
      = some (s', a)) : s.Newborn s' a := by
  rcases getNewbornProject_some h with ⟨rfl, ha⟩ | hnew
  · -- a loaded project
    refine ⟨rfl, fun hn => absurd ha hn, hw.addr a, fun b _ => ⟨rfl, Iff.rfl⟩, hw.loaded, ha, rfl,
      Nat.lt_succ_self _, ?_,
      .of_log_eq rfl⟩
    exact Nat.lt_succ_of_lt (hw.known a (Or.inl ha))
  · have hc := createNewProject_some hnew
    have hge : s.g.nextAddr ≤ a := by rw [hc.fresh]; exact Nat.le_succ _
    have hnot : a ∉ s.loaded := fun hm => Nat.not_lt_of_le hge (hw.known a (Or.inl hm))
    constructor
    case view => rw [hc.view, Server.view, hw.new a hge]
    case idle =>
      intro _
      rw [Server.view, hw.new a hge]
      exact ⟨rfl, rfl⟩
    case addr => exact hc.addr
    case others =>
      intro b hb
      refine ⟨hc.others b hb, ?_⟩
      rw [hc.loaded]
      simp [hb]
    case loaded =>
      rw [hc.loaded, List.nodup_append]
      refine ⟨hw.loaded, List.nodup_singleton a, ?_⟩
      intro x hx y hy hxy
      rw [List.mem_singleton] at hy
      exact hnot (hy ▸ hxy ▸ hx)
    case mem => rw [hc.loaded]; simp
    case all => exact hc.all
    case nextAddr => rw [hc.nextAddr]; exact Nat.lt_succ_of_le hge
    case known => rw [hc.nextAddr]; exact Nat.lt_succ_self a
    case logged => exact hc.logged

/-- A new client joins its project. -/
theorem Newborn.joins {t : Server} (h : s.Newborn t a) (hw : s.Wf) {c : Client} {id : Uuid}
    {sender : CStr} {u : Session} (haddr : c.addr = s.g.nextAddr) (hidle : c.job.Idle)
    (hdeps : c.dependencies = [] ∧ c.unsatisfiedDeps = []) (hname : c.dbusName = some sender)
    (hu : projectNewClient ((t.session a).emit (.connected a c.addr sender)) c id = some u) :
    s.MovesAt (t.setSession a u) a (.join { c.job with id := id }) := by
  have hta : (t.session a).p.addr = a := h.addr
  have hview : (t.session a).p.view (decide (a ∈ s.loaded)) = s.view a := h.view
  have hfresh : c.addr ∉ ((t.session a).p.view (decide (a ∈ s.loaded))).jobs.map Job.addr := by
    rw [hview, haddr]
    exact fun hm => Nat.lt_irrefl _ (hw.bound a _ hm)
  have hnew : decide (a ∈ s.loaded) = false →
      (t.session a).p.taskType = .idle ∧ (t.session a).p.clientTasksPending = 0 := by
    intro hn
    have hidle := h.idle (of_decide_eq_false hn)
    rw [← hview] at hidle
    exact hidle
  have hmakes := projectNewClient_makes (s := t.session a) (decide (a ∈ s.loaded)) hfresh hidle hnew
    hdeps hname (by rw [hta]; exact hu)
  obtain ⟨evs, hmove, hsteps⟩ := hmakes
  have hlog := hsteps.logged
  rw [hta] at hmove hlog
  rw [hview] at hmove
  have hnext : (t.setSession a u).g.nextAddr = t.g.nextAddr := hsteps.nextAddr
  constructor
  case move =>
    refine ⟨[] ++ evs, ?_, h.logged.trans hlog⟩
    rw [view_setSession h.mem]
    exact hmove
  case addr => rw [setSession_project_self, hsteps.addr, hta]
  case others =>
    intro b hb
    rw [setSession_project_ne t u hb]
    exact h.others b hb
  case loaded => exact h.loaded
  case nextAddr => rw [hnext]; exact h.nextAddr.le
  case known => rw [hnext]; exact h.known
  case all => exact fun b hb => Or.inl (h.all ▸ hb)
  case brings =>
    intro x hx
    have hx' : x = s.g.nextAddr := by
      rw [← haddr]
      exact List.mem_singleton.mp hx
    rw [hx', hnext]
    exact ⟨le_refl _, h.nextAddr⟩

theorem addClient_answers (hw : s.Wf) {sender : CStr} {pid : Int} {cls : CStr} {flags : Flags}
    {wd : CStr} {argv : List CStr} {id : Uuid} {addr : Addr}
    (h : s.addClient sender pid cls flags wd argv id = some (s', a, addr)) :
    s.Answers s' (.connect sender pid cls flags wd argv id) := by
  unfold addClient at h
  split at h
  · next b c hfind =>
      obtain ⟨t, ht, he⟩ := Option.map_eq_some_iff.mp h
      simp only [Prod.mk.injEq] at he
      obtain ⟨rfl, rfl, rfl⟩ := he
      have hpid0 : pid ≠ 0 := by
        intro h0
        rw [if_pos h0] at hfind
        exact absurd hfind (by simp)
      have hfind' := hfind
      rw [if_neg hpid0] at hfind'
      obtain ⟨hb, hc, hq⟩ := findClient_some hfind'
      have hpid : c.pid ≠ 0 := by
        have hcp : c.pid = pid := by simpa using hq
        rwa [hcp]
      have haddr : (s.session b).p.addr = b := hw.addr b
      have hdist : ((s.session b).p.view true).Distinct := by
        rw [← view_of_loaded hb]
        exact hw.distinct b
      have hm := clientResumeProject_makes (s := s.session b) true hdist hc hpid
        (by rw [haddr]; exact ht)
      rw [haddr] at hm
      refine Or.inr ⟨b, _, hw.movesAt hb hm rfl, c, hfind, rfl, ?_⟩
      show ((if pid = 0 then none else s.findLostClientByPid pid).map _) = _
      rw [hfind]
      rfl
  · next hfind =>
      dsimp only at h
      split at h
      · exact absurd h (by simp)
      · next t b hborn =>
          obtain ⟨u, hu, he⟩ := Option.map_eq_some_iff.mp h
          simp only [Prod.mk.injEq] at he
          obtain ⟨rfl, rfl, rfl⟩ := he
          have hm := (hw.newborn hborn).joins hw rfl ⟨rfl, rfl⟩ ⟨rfl, rfl⟩ rfl hu
          exact Or.inr ⟨b, _, hm, hfind, sender, pid, cls, flags, wd, argv, rfl⟩

theorem disconnect_answers (hw : s.Wf) {i : Input} {r : Option (Addr × Client)}
    (hr : ∀ a c, r = some (a, c) → a ∈ s.loaded ∧ c ∈ (s.project a).clients)
    (hi : s.leaving i = r) : s.Answers (s.disconnect r) i := by
  cases r with
  | none => exact .nothing i
  | some r =>
      obtain ⟨b, c⟩ := r
      obtain ⟨hb, hc⟩ := hr b c rfl
      have hm := clientDisconnected_makes (s := s.session b) true hc
      exact Or.inr ⟨b, _, hw.movesAt hb hm rfl, c, hi, rfl⟩

theorem findClientByDbusName_some {name : CStr} {c : Client}
    (h : s.findClientByDbusName name = some (a, c)) :
    a ∈ s.loaded ∧ c ∈ (s.project a).clients := by
  obtain ⟨ha, hc, _⟩ := findClient_some h
  exact ⟨ha, hc⟩

theorem buryOne_answers (hw : s.Wf) : s.Answers s.buryOne .bury := by
  unfold buryOne
  cases hdead : s.g.childs.find? Child.dead with
  | none => exact .nothing _
  | some child =>
      dsimp only
      generalize ht : ({ s with g := { s.g with childs := s.g.childs.eraseP Child.dead } } : Server)
        = t
      have hst : s.Unmoved t := by
        rw [← ht]
        exact ⟨rfl, rfl, rfl, rfl, rfl⟩
      have hfind : t.findClientByPid child.pid = s.findClientByPid child.pid := by
        rw [← ht]
        rfl
      rw [hfind]
      cases hc : s.findClientByPid child.pid with
      | none => exact Or.inl hst
      | some r =>
          obtain ⟨b, c⟩ := r
          obtain ⟨hb, hcl, _⟩ := findClient_some hc
          have hbt : b ∈ t.loaded := by rwa [hst.loaded]
          have hm := clientDisconnected_makes (s := t.session b) (c := c) true
            (by rw [session_p, hst.project]; exact hcl)
          refine Or.inr ⟨b, _, hst.then_moves ((hst.wf hw).movesAt hbt hm rfl), c, ?_, rfl⟩
          show (s.g.childs.find? Child.dead).bind _ = _
          rw [hdead]
          exact hc

/-- A task id that is accepted is the one the client has, and not zero. -/
theorem checkTasks_ok {method : String} {c : Client} {args args' : List Arg}
    (h : checkTasks method c args = .ok args') : c.pendingTask ≠ 0 := by
  unfold checkTasks at h
  split at h
  · split at h
    · exact absurd h (by simp)
    · assumption
  · exact absurd h (by simp)

theorem dbusProgress_answers (hw : s.Wf) {sender : CStr} {args : List Arg} {r : Reply}
    (h : s.dbusProgress sender args = some (s', r)) : s.Answers s' (.progress sender args) := by
  unfold dbusProgress at h
  split at h
  · obtain ⟨rfl, _⟩ := Prod.mk.inj (Option.some.inj h)
    exact .nothing _
  · next b c hfind =>
      obtain ⟨hb, hc⟩ := findClientByDbusName_some hfind
      have hdist : ((s.session b).p.view true).Distinct := by
        rw [← view_of_loaded hb]
        exact hw.distinct b
      split at h
      · obtain ⟨rfl, _⟩ := Prod.mk.inj (Option.some.inj h)
        exact .nothing _
      · next percentage rest hcheck =>
          have hp := checkTasks_ok hcheck
          obtain ⟨t, ht, he⟩ := Option.map_eq_some_iff.mp h
          obtain ⟨rfl, _⟩ := Prod.mk.inj he
          have hrep : ∀ ok, (if percentage.toNat = 0 then some (b, s.session b, c, false)
              else if percentage.toNat = 255 then some (b, s.session b, c, true) else none)
                = some (b, s.session b, c, ok) →
              s.reporting (.progress sender args) = some (b, s.session b, c, ok) := by
            intro ok hok
            simp only [reporting, hfind, hcheck]
            exact hok
          unfold clientTaskProgressed at ht
          split at ht
          · next h0 =>
              have hr := hrep false (by rw [if_pos h0])
              have hm := clientTaskCompleted_makes true hc hp ht
              refine Or.inr ⟨b, _, hw.movesAt hb hm rfl, _, c, hr, rfl, ?_⟩
              rw [infoWritable, hr]
          · next h0 =>
              split at ht
              · next h255 =>
                  have hr := hrep true (by rw [if_neg h0, if_pos h255])
                  have hm := clientTaskCompleted_makes true hc hp ht
                  refine Or.inr ⟨b, _, hw.movesAt hb hm rfl, _, c, hr, rfl, ?_⟩
                  rw [infoWritable, hr]
              · split at ht
                · rw [← Option.some.inj ht]
                  exact hw.answers_quiet _ hb (.quiet rfl (.of_log_eq rfl rfl rfl))
                · rw [← Option.some.inj ht]
                  exact hw.answers_quiet _ hb (clientTaskProgressed_quiet true _ hdist hc)
      · obtain ⟨rfl, _⟩ := Prod.mk.inj (Option.some.inj h)
        exact .nothing _

theorem dbusCommitDataSet_answers (hw : s.Wf) {sender : CStr} {args : List Arg} {r : Reply}
    (h : s.dbusCommitDataSet sender args = some (s', r)) :
    s.Answers s' (.commitDataSet sender args) := by
  have hnothing : ∀ {r' : Reply}, some (s, r') = some (s', r) →
      s.Answers s' (.commitDataSet sender args) := by
    intro r' he
    obtain ⟨rfl, _⟩ := Prod.mk.inj (Option.some.inj he)
    exact .nothing _
  unfold dbusCommitDataSet at h
  split at h
  · exact hnothing h
  · next b c hfind =>
      obtain ⟨hb, hc⟩ := findClientByDbusName_some hfind
      have hdist : ((s.session b).p.view true).Distinct := by
        rw [← view_of_loaded hb]
        exact hw.distinct b
      split at h
      · exact hnothing h
      · next rest hcheck =>
          have hp := checkTasks_ok hcheck
          split at h
          · exact hnothing h
          · next st hst =>
              split at h
              · exact hnothing h
              · next elems more hne =>
                  generalize hcom : commitConfigs st elems = rs at h
                  obtain ⟨ok, st'⟩ := rs
                  obtain ⟨t, ht, he⟩ := Option.map_eq_some_iff.mp h
                  obtain ⟨rfl, _⟩ := Prod.mk.inj he
                  generalize hd : ({ c with store := some st' } : Client) = d at ht
                  have hjob : d.job = c.job := by rw [← hd]; rfl
                  have hdp : d.pendingTask ≠ 0 := by rw [← hd]; exact hp
                  have hmem : d ∈ ((s.session b).put d).p.clients :=
                    Keyed.mem_put_self hc (by rw [← hd])
                  have hview : ((s.session b).put d).p.view true = (s.session b).p.view true := by
                    show ((s.session b).p.put d).view true = _
                    rw [Project.view_put, hjob, View.put_self hdist (Project.mem_live true hc)]
                  have hm := (clientTaskCompleted_makes true hmem hdp ht).after hview
                    (.of_log_eq rfl rfl rfl)
                  have hr : s.reporting (.commitDataSet sender args)
                      = some (b, (s.session b).put d, d, ok) := by
                    cases elems with
                    | nil => exact (hne rfl).elim
                    | cons elem elems =>
                        simp only [reporting, hfind, hcheck, hst, hcom, hd]
                  refine Or.inr ⟨b, _, hw.movesAt hb hm rfl, _, d, hr, rfl, ?_⟩
                  rw [infoWritable, hr]
              · exact hnothing h

/-! ## Saving and closing -/

theorem projectSave_answers (hw : s.Wf) {i : Input} (ha : a ∈ s.loaded)
    (hi : s.saving i = some a) (hrep : s.reporting i = none) : s.Answers (s.projectSave a) i := by
  have hall : ∀ {act : Act} {t : Session}, s.MovesAt (s.setSession a t) a act →
      s.MovesAt { s.setSession a t with all := s.all ++ [a] } a act := by
    intro act t h
    exact ⟨h.move, h.addr, h.others, h.loaded, h.nextAddr, h.known,
      fun b hb => (List.mem_append.mp hb).imp id List.mem_singleton.mp, h.brings⟩
  by_cases htask : (s.session a).p.taskType = .idle
  · obtain ⟨asked, hm⟩ := projectSave_makes (s := s.session a) true htask
    have hmove := hw.movesAt ha hm rfl
    have hexp : s.Explains i a (.save asked (saveWritable (s.session a))) := by
      refine ⟨hi, ?_⟩
      simp only [infoWritable, hrep, hi]
    unfold projectSave
    dsimp only
    split
    · exact Or.inr ⟨a, _, hmove, hexp⟩
    · exact Or.inr ⟨a, _, hall hmove, hexp⟩
  · have hsame : Lash.projectSave (s.session a) = s.session a := by
      unfold Lash.projectSave
      rw [if_pos htask]
    unfold projectSave
    dsimp only
    rw [if_pos (Or.inl (show (s.project a).taskType ≠ .idle from htask)), hsame]
    exact hw.answers_quiet i ha (.quiet rfl (.of_log_eq rfl rfl rfl))

theorem closeProject_answers (hw : s.Wf) {i : Input} (ha : a ∈ s.loaded)
    (hi : s.closing i = some a) : s.Answers (s.closeProject a) i := by
  obtain ⟨evs, hmove, hsteps⟩ := projectUnload_makes (s.session a) true
  have haddr : (s.session a).p.addr = a := hw.addr a
  have hlog := hsteps.logged
  rw [haddr] at hmove hlog
  have hnot : a ∉ s.loaded.erase a := fun hm => (List.Nodup.mem_erase_iff hw.loaded).mp hm |>.1 rfl
  have hproject : (s.closeProject a).project
      = Function.update s.project a (projectUnload (s.session a)).p := rfl
  have hloaded : (s.closeProject a).loaded = s.loaded.erase a := rfl
  have hnext : (s.closeProject a).g.nextAddr = s.g.nextAddr := hsteps.nextAddr
  have hgone : Logged a (projectUnload (s.session a)).g (s.closeProject a).g [] :=
    ⟨[.projectDisappeared a _], rfl, by simp [Event.project], rfl⟩
  refine Or.inr ⟨a, .close, ?_, hi⟩
  constructor
  case move =>
    have hv : (s.closeProject a).view a = (projectUnload (s.session a)).p.view false := by
      rw [Server.view, hproject, hloaded, Function.update_self, decide_eq_false hnot]
    have hlog' := hlog.trans hgone
    rw [List.append_nil] at hlog'
    rw [view_of_loaded ha, hv]
    exact ⟨evs, hmove, hlog'⟩
  case addr => rw [hproject, Function.update_self, hsteps.addr, haddr]
  case others =>
    intro b hb
    rw [hproject, hloaded, Function.update_of_ne hb]
    exact ⟨rfl, List.mem_erase_of_ne hb⟩
  case loaded => rw [hloaded]; exact hw.loaded.erase a
  case nextAddr => rw [hnext]
  case known => rw [hnext]; exact hw.known a (Or.inl ha)
  case all => exact fun b hb => Or.inl hb
  case brings => intro x hx; exact absurd hx (by simp [Act.brings])

/-! ## Restoring -/

theorem startRestore_some {t : Server} (h : t.startRestore a = some s') :
    let p := t.project a
    ∃ g lost, restoreClients p (((t.g.emit (.projectAppeared a p.name p.directory)).emit
        (.restored a (p.lostClients.map Client.addr))).emit (.progress a 0)) p.lostClients
          = some (g, lost) ∧
      s' = { t with loaded := t.loaded ++ [a] }.setSession a
        { g := g
          p := { p with
            taskType := .load
            clientTasksProgress := 0
            clientTasksTotal := p.lostClients.length
            clientTasksPending := p.lostClients.length
            lostClients := lost } } := by
  unfold startRestore at h
  dsimp only at h ⊢
  split at h
  · exact absurd h (by simp)
  · next g lost hrest => exact ⟨g, lost, hrest, (Option.some.inj h).symm⟩

/-- The second half of a restore, in a server that differs only in the project: `u` is its session
after `project_load`. -/
theorem startRestore_moves (hw : s.Wf) (hknown : a < s.g.nextAddr) (ha : a ∉ s.loaded)
    {u w : Session} (hread : (s.session a).Reads u) (huw : u.Makes w false false .quiet)
    (h : (s.setSession a w).startRestore a = some s') :
    s.MovesAt s' a (.restore (u.p.lostClients.map Client.job)) := by
  obtain ⟨evs, hquiet, hsteps⟩ := huw
  generalize hwv : w.p.view false = wv at hquiet
  cases hquiet
  obtain ⟨g, lost, hrest, hs'⟩ := startRestore_some h
  simp only [setSession_project_self, setSession_g] at hrest hs'
  subst hs'
  obtain ⟨hall, hnext, hlog⟩ := restoreClients_spec hrest
  -- the project is as the file said
  have haddr : w.p.addr = a := by rw [hsteps.addr, hread.addr]; exact hw.addr a
  have hlost : w.p.lostClients.map Client.job = u.p.lostClients.map Client.job :=
    congrArg View.lost hwv
  have hlive : w.p.clients.map Client.job = u.p.clients.map Client.job := congrArg View.live hwv
  have hlen : w.p.lostClients.length = (u.p.lostClients.map Client.job).length := by
    rw [← hlost, List.length_map]
  have hv : s.view a = (s.project a).view false := by simp [Server.view, ha]
  have hjobs : (s.view a).jobs = [] :=
    hw.unloaded a (by simp [Server.view, Project.view, ha])
  have haddrs :
      w.p.lostClients.map Client.addr = (u.p.lostClients.map Client.job).map Job.addr := by
    rw [← hlost, List.map_map]
    rfl
  have hg : g.nextAddr = u.g.nextAddr := hnext.trans hsteps.nextAddr
  rw [hlost] at hall hlog
  rw [haddr] at hlog
  have hlogged : Logged a s.g g (.restored a ((u.p.lostClients.map Client.job).map Job.addr)
      :: launchEvents a ((u.p.lostClients.map Client.job).filter
        (fun c => c.saneDeps ((u.p.lostClients.map Client.job).map Job.id) = []))) := by
    have h₁ : Logged a s.g u.g [] := .of_log_eq hread.log
    have h₂ : Logged a u.g w.g [] := by
      have h := hsteps.logged
      rwa [hread.addr, show (s.session a).p.addr = a from hw.addr a] at h
    refine (h₁.trans h₂).trans ?_
    rw [← haddrs]
    generalize List.filter _ (u.p.lostClients.map Client.job) = l at hlog ⊢
    refine ⟨.projectAppeared a w.p.name w.p.directory
      :: .restored a (w.p.lostClients.map Client.addr) :: .progress a 0 :: launchEvents a l,
      ?_, ?_, ?_⟩
    · rw [hlog]
      simp [Globals.emit]
    · intro e he
      simp only [List.mem_cons] at he
      rcases he with rfl | rfl | rfl | he
      · rfl
      · rfl
      · rfl
      · exact launchEvents_project e he
    · rw [List.filter_cons_of_neg (by simp [Event.isTask]),
        List.filter_cons_of_pos (by simp [Event.isTask]),
        List.filter_cons_of_neg (by simp [Event.isTask]), launchEvents_isTask]
  have hv' : Project.view { w.p with
      taskType := .load
      clientTasksProgress := 0
      clientTasksTotal := w.p.lostClients.length
      clientTasksPending := w.p.lostClients.length
      lostClients := lost } true
      = { s.view a with
        loaded := true
        task := .load
        pending := (u.p.lostClients.map Client.job).length
        lost := lost.map Client.job } := by
    rw [hv]
    simp only [Project.view, hlive, hread.clients, hlen]
    rfl
  constructor
  case move =>
    refine ⟨_, ?_, hlogged⟩
    rw [view_setSession (show a ∈ s.loaded ++ [a] by simp), hv']
    refine .restore (by simp [hv, Project.view]) hjobs ?_ ?_ hall
    · intro c hc
      obtain ⟨x, hx, rfl⟩ := List.mem_map.mp hc
      obtain ⟨_, _, _, hb⟩ := hread.blank x hx
      exact ⟨⟨hb.pendingTask, hb.taskType⟩, hb.pid⟩
    · rw [List.map_map]
      exact hread.distinct
  case addr => rw [setSession_project_self]; exact haddr
  case others =>
    intro b hb
    rw [setSession_project_ne _ _ hb]
    refine ⟨setSession_project_ne s w hb, ?_⟩
    simp [hb]
  case loaded =>
    show (s.loaded ++ [a]).Nodup
    rw [List.nodup_append]
    refine ⟨hw.loaded, List.nodup_singleton a, ?_⟩
    intro x hx y hy hxy
    rw [List.mem_singleton] at hy
    exact ha (hy ▸ hxy ▸ hx)
  case nextAddr =>
    rw [setSession_g]
    show _ ≤ g.nextAddr
    rw [hg]
    exact hread.nextAddr
  case known =>
    rw [setSession_g]
    show _ < g.nextAddr
    rw [hg]
    exact Nat.lt_of_lt_of_le hknown hread.nextAddr
  case all => exact fun b hb => Or.inl hb
  case brings =>
    intro x hx
    rw [setSession_g]
    show _ ∧ _ < g.nextAddr
    rw [hg]
    rw [Act.brings, List.map_map] at hx
    obtain ⟨c, hc, rfl⟩ := List.mem_map.mp hx
    obtain ⟨y, hy, hy', hb⟩ := hread.blank c hc
    show _ ≤ c.addr ∧ c.addr < _
    rw [hb.addr]
    exact ⟨hy, hy'⟩

theorem setSession_session (s : Server) (a : Addr) : s.setSession a (s.session a) = s := by
  unfold setSession
  rw [session_p, Function.update_eq_self]
  rfl

theorem setSession_setSession (s : Server) (a : Addr) (t u : Session) :
    (s.setSession a t).setSession a u = s.setSession a u := by
  unfold setSession
  dsimp only
  rw [Function.update_idem]

/-- A project whose file has no root is left as it is. -/
theorem projectLoad_false {t u : Session} (h : projectLoad t = some (false, u)) : u = t := by
  unfold projectLoad at h
  split at h
  · exact absurd h (by simp)
  · split at h
    · exact (Prod.mk.inj (Option.some.inj h)).2.symm
    · split at h
      · exact absurd h (by simp)
      · exact absurd h (by simp)

theorem projectRestore_answers (hw : s.Wf) {i : Input} {ok : Bool} (hknown : a < s.g.nextAddr)
    (hi : a ∉ s.loaded → s.restoring i = some a) (h : s.projectRestore a = some (ok, s')) :
    s.Answers s' i := by
  unfold projectRestore at h
  split at h
  · obtain ⟨_, rfl⟩ := Prod.mk.inj (Option.some.inj h)
    exact .nothing i
  · next ha =>
      have hnil : (s.session a).p.lostClients = [] := by
        have hj := hw.unloaded a (by simp [Server.view, Project.view, ha])
        rw [View.jobs, List.append_eq_nil_iff] at hj
        simpa [Server.view, Project.view] using hj.2
      split at h
      · exact absurd h (by simp)
      · next t hload =>
          obtain ⟨_, rfl⟩ := Prod.mk.inj (Option.some.inj h)
          rw [projectLoad_false hload, setSession_session]
          exact .nothing i
      · next t hload =>
          have hread := projectLoad_reads hnil hload
          have hexp : s.Explains i a (.restore (t.p.lostClients.map Client.job)) :=
            ⟨hi ha, t, hload, rfl⟩
          dsimp only at h
          split at h
          · obtain ⟨u, hu, he⟩ := Option.map_eq_some_iff.mp h
            obtain ⟨_, rfl⟩ := Prod.mk.inj he
            exact Or.inr ⟨a, _, startRestore_moves hw hknown ha hread
              (.quiet rfl (.of_log_eq rfl rfl rfl)) hu, hexp⟩
          · split at h
            · exact absurd h (by simp)
            · next name hname =>
                obtain ⟨u, hu, he⟩ := Option.map_eq_some_iff.mp h
                obtain ⟨_, rfl⟩ := Prod.mk.inj he
                rw [setSession_setSession] at hu
                exact Or.inr ⟨a, _, startRestore_moves hw hknown ha hread
                  (projectRename_makes t name false) hu, hexp⟩

theorem dbusRestore_answers (hw : s.Wf) {i : Input} (q : Project → Bool) {r : Reply}
    (hi : s.restoring i = (s.all.find? (fun a => q (s.project a))).filter (fun a => a ∉ s.loaded))
    (h : s.dbusRestore q = some (s', r)) : s.Answers s' i := by
  unfold dbusRestore at h
  split at h
  · obtain ⟨rfl, _⟩ := Prod.mk.inj (Option.some.inj h)
    exact .nothing i
  · next b hfind =>
      obtain ⟨⟨ok, t⟩, ht, he⟩ := Option.map_eq_some_iff.mp h
      obtain ⟨rfl, _⟩ := Prod.mk.inj he
      have hb : b ∈ s.all := List.mem_of_find?_eq_some hfind
      refine projectRestore_answers hw (hw.known b (Or.inr hb)) ?_ ht
      intro hnot
      rw [hi, hfind]
      simp [hnot]

/-! ## Everything else -/

theorem onProject_answers {name : CStr} {f : Addr → Server} {i : Input}
    (hf : ∀ a, s.findProjectByName name = some a → s.Answers (f a) i) :
    s.Answers (s.onProject name f).1 i := by
  unfold onProject
  split
  · exact .nothing i
  · next a ha => exact hf a ha

theorem dependencyModifyData_ok {project client dep : CStr} {c : Client} {id : Uuid}
    (h : s.dependencyModifyData project client dep = .ok (a, c, id)) :
    a ∈ s.loaded ∧ c ∈ (s.project a).clients := by
  unfold dependencyModifyData at h
  split at h
  · exact absurd h (by simp)
  · split at h
    · exact absurd h (by simp)
    · split at h
      · exact absurd h (by simp)
      · next b hb =>
          split at h
          · exact absurd h (by simp)
          · next d hd =>
              simp only [Except.ok.injEq, Prod.mk.injEq] at h
              obtain ⟨rfl, rfl, rfl⟩ := h
              exact ⟨findProjectByName_mem hb, List.mem_of_find?_eq_some hd⟩

/-- A live client is changed in its dependencies only. -/
theorem Wf.movesAt_put (hw : s.Wf) (ha : a ∈ s.loaded) {d : Client}
    (hm : Move a (s.view a) act [] ((s.view a).put d.job)) (hnone : act.brings = []) :
    s.MovesAt (s.setSession a ((s.session a).put d)) a act := by
  refine hw.movesAt ha ⟨[], ?_, .of_log_eq rfl rfl rfl⟩ hnone
  rw [view_of_loaded ha, ← Project.view_put] at hm
  rw [show (s.session a).p.addr = a from hw.addr a]
  exact hm

theorem dbusAddDependency_answers (hw : s.Wf) {project client dep : CStr} {r : Reply}
    (h : s.dbusAddDependency project client dep = some (s', r)) :
    s.Answers s' (.addDependency project client dep) := by
  unfold dbusAddDependency at h
  split at h
  · obtain ⟨rfl, _⟩ := Prod.mk.inj (Option.some.inj h)
    exact .nothing _
  · next b c id hdata =>
      obtain ⟨d, hd, he⟩ := Option.map_eq_some_iff.mp h
      obtain ⟨rfl, _⟩ := Prod.mk.inj he
      obtain ⟨hb, hc⟩ := dependencyModifyData_ok hdata
      have hlive : c.job ∈ (s.view b).live := by
        rw [view_of_loaded hb]
        exact Project.mem_live true hc
      have hsame : s.Answers (s.setSession b ((s.session b).put c))
          (.addDependency project client dep) := by
        refine Or.inr ⟨b, .quiet, hw.movesAt_put hb ?_ rfl, trivial⟩
        rw [View.put_self (hw.distinct b) hlive]
        exact .quiet
      unfold clientDependencyAdd at hd
      split at hd
      · rwa [← Option.some.inj hd]
      · split at hd
        · exact absurd hd (by simp)
        · rwa [← Option.some.inj hd]
        · next hcirc =>
            rw [← Option.some.inj hd]
            refine Or.inr ⟨b, .depend c.job id, hw.movesAt_put hb (.depend hlive) rfl, c, ?_, rfl,
              hcirc⟩
            simp only [adding, hdata]

theorem dbusRemoveDependency_answers (hw : s.Wf) (project client dep : CStr) :
    s.Answers (s.dbusRemoveDependency project client dep).1
      (.removeDependency project client dep) := by
  unfold dbusRemoveDependency
  split
  · exact .nothing _
  · next b c id hdata =>
      obtain ⟨hb, hc⟩ := dependencyModifyData_ok hdata
      have hlive : c.job ∈ (s.view b).live := by
        rw [view_of_loaded hb]
        exact Project.mem_live true hc
      exact Or.inr ⟨b, .undepend c.job id, hw.movesAt_put hb (.undepend hlive) rfl,
        project, client, dep, rfl⟩

theorem dbusLostClientLaunch_answers (hw : s.Wf) {project client : CStr} {r : Reply}
    (h : s.dbusLostClientLaunch project client = some (s', r)) :
    s.Answers s' (.lostClientLaunch project client) := by
  have hnothing : ∀ {r' : Reply}, some (s, r') = some (s', r) →
      s.Answers s' (.lostClientLaunch project client) := by
    intro r' he
    obtain ⟨rfl, _⟩ := Prod.mk.inj (Option.some.inj he)
    exact .nothing _
  unfold dbusLostClientLaunch at h
  split at h
  · exact hnothing h
  · split at h
    · exact hnothing h
    · next b hfind =>
        have hb := findProjectByName_mem hfind
        split at h
        · exact hnothing h
        · next c hc =>
            obtain ⟨⟨g, d⟩, hlaunch, he⟩ := Option.map_eq_some_iff.mp h
            obtain ⟨rfl, _⟩ := Prod.mk.inj he
            obtain ⟨⟨pid, rfl⟩, hnext, hfs, hlog⟩ := projectLaunchClient_spec hlaunch
            have haddr : (s.session b).p.addr = b := hw.addr b
            have hlost := Project.mem_lost true (List.mem_of_find?_eq_some hc)
            refine Or.inr ⟨b, .launch c.job, hw.movesAt hb ⟨[.launched b c.addr], ?_, ?_⟩ rfl,
              project, client, rfl⟩
            · rw [haddr]
              have hv : Project.view { s.project b with
                  lostClients := putClient { c with pid := pid } (s.project b).lostClients } true
                  = { (s.project b).view true with
                    lost := Keyed.put Job.addr ({ c.job with pid := pid } : Job)
                      ((s.project b).view true).lost } := by
                simp only [Project.view, map_job_put]
                rfl
              rw [hv]
              exact .launch hlost
            · have he : (s.session b).Steps { g := g, p := { s.project b with
                  lostClients := putClient { c with pid := pid } (s.project b).lostClients } }
                  [.launched (s.project b).addr c.addr] :=
                .of_emit (.launched (s.project b).addr c.addr) rfl hnext hlog rfl
              rw [show (s.project b).addr = b from haddr] at he
              exact he

theorem projectMove_answers (hw : s.Wf) (name path : CStr) :
    s.Answers (s.dbusProjectMove name path).1 (.projectMove name path) := by
  unfold dbusProjectMove
  split
  · exact .nothing _
  · next b hb =>
      exact hw.answers_quiet _ (findProjectByName_mem hb)
        (.quiet (projectMove_view _ _ true) (projectMove_steps _ _))

/-- **Every step of the daemon is a move of at most one project, and the input explains it.** -/
theorem Wf.step_answers (hw : s.Wf) {i : Input} (h : s.step i = some s') : s.Answers s' i := by
  unfold step at h
  obtain ⟨⟨t, r⟩, hh, rfl⟩ := Option.map_eq_some_iff.mp h
  cases i with
  | connect sender pid cls flags wd argv id =>
      simp only [handle, dbusConnect] at hh
      split at hh
      · exact absurd hh (by simp)
      · next u b addr hadd =>
          have hut : u = t := by
            split at hh
            · exact (Prod.mk.inj (Option.some.inj hh)).1
            · exact (Prod.mk.inj (Option.some.inj hh)).1
          rw [hut] at hadd
          exact addClient_answers hw hadd
  | nameLost name =>
      obtain ⟨rfl, _⟩ := Prod.mk.inj (Option.some.inj hh)
      exact disconnect_answers hw (fun _ _ hr => findClientByDbusName_some hr) rfl
  | progress sender args => exact dbusProgress_answers hw hh
  | commitDataSet sender args => exact dbusCommitDataSet_answers hw hh
  | projectOpen name => exact dbusRestore_answers hw (fun p => p.name = name) rfl hh
  | loadProjectPath path => exact dbusRestore_answers hw (fun p => p.directory = path) rfl hh
  | projectSave name =>
      have he := congrArg Prod.fst (Option.some.inj hh)
      rw [← he]
      exact onProject_answers (fun b hb => projectSave_answers hw (findProjectByName_mem hb) hb rfl)
  | saveRound b =>
      obtain ⟨rfl, _⟩ := Prod.mk.inj (Option.some.inj hh)
      split
      · next hb => exact projectSave_answers hw hb (if_pos hb) rfl
      · exact .nothing _
  | projectClose name =>
      have he := congrArg Prod.fst (Option.some.inj hh)
      rw [← he]
      exact onProject_answers (fun b hb => closeProject_answers hw (findProjectByName_mem hb) hb)
  | closeRound b =>
      obtain ⟨rfl, _⟩ := Prod.mk.inj (Option.some.inj hh)
      split
      · next hb => exact closeProject_answers hw hb (if_pos hb)
      · exact .nothing _
  | addDependency project client dep => exact dbusAddDependency_answers hw hh
  | removeDependency project client dep =>
      have he := congrArg Prod.fst (Option.some.inj hh)
      rw [← he]
      exact dbusRemoveDependency_answers hw project client dep
  | lostClientLaunch project client => exact dbusLostClientLaunch_answers hw hh
  | projectRename old new =>
      have he := congrArg Prod.fst (Option.some.inj hh)
      rw [← he]
      exact onProject_answers (fun b hb =>
        hw.answers_quiet _ (findProjectByName_mem hb) (projectRename_makes _ new true))
  | projectSetDescription name d =>
      have he := congrArg Prod.fst (Option.some.inj hh)
      rw [← he]
      exact onProject_answers (fun b hb =>
        hw.answers_quiet _ (findProjectByName_mem hb) (projectSetDescription_makes _ d true))
  | projectSetNotes name n =>
      have he := congrArg Prod.fst (Option.some.inj hh)
      rw [← he]
      exact onProject_answers (fun b hb =>
        hw.answers_quiet _ (findProjectByName_mem hb) (projectSetNotes_makes _ n true))
  | projectMove name path =>
      have he := congrArg Prod.fst (Option.some.inj hh)
      rw [← he]
      exact projectMove_answers hw name path
  | sigchld pid =>
      obtain ⟨rfl, _⟩ := Prod.mk.inj (Option.some.inj hh)
      exact Or.inl ⟨rfl, rfl, rfl, rfl, rfl⟩
  | bury =>
      obtain ⟨rfl, _⟩ := Prod.mk.inj (Option.some.inj hh)
      exact buryOne_answers hw
  | outside fs forks =>
      obtain ⟨rfl, _⟩ := Prod.mk.inj (Option.some.inj hh)
      exact Or.inl ⟨rfl, rfl, rfl, rfl, rfl⟩

/-! ## Runs -/

theorem Answers.wf {i : Input} (h : s.Answers s' i) (hw : s.Wf) : s'.Wf := by
  rcases h with h | ⟨a, act, h, _⟩
  · exact h.wf hw
  · exact h.wf hw

/-- **What a step does to one project**: it makes a move, perhaps a quiet one, and its part of the
log grows by the events of the move. -/
theorem Answers.move {i : Input} (h : s.Answers s' i) (a : Addr) :
    ∃ act evs, Move a (s.view a) act evs (s'.view a) ∧
      tasks a s'.g.log = tasks a s.g.log ++ evs ∧ s.Explains i a act := by
  rcases h with h | ⟨b, act, h, hexp⟩
  · refine ⟨.quiet, [], ?_, ?_, trivial⟩
    · rw [h.view]; exact .quiet
    · rw [h.log, List.append_nil]
  · obtain ⟨evs, hmove, hlog⟩ := h.move
    by_cases hab : a = b
    · subst hab
      exact ⟨act, evs, hmove, hlog.tasks_eq, hexp⟩
    · refine ⟨.quiet, [], ?_, ?_, trivial⟩
      · rw [h.view_ne hab]; exact .quiet
      · rw [hlog.tasks_ne hab, List.append_nil]

/-- A project as `project_new_from_disk` makes it: it has read its name and where it is. -/
theorem projectNewFromDisk_view {fs : Fs} {addr : Addr} {parent dir : CStr} {p : Project}
    (h : projectNewFromDisk fs addr parent dir = some p) :
    p.addr = addr ∧ ∀ l, p.view l = (projectNew addr).view l := by
  have hheader : ∀ (ns : List XmlNode) (q : Project),
      (q.addr = addr ∧ ∀ l, q.view l = (projectNew addr).view l) →
      (ns.foldl headerNode q).addr = addr ∧
        ∀ l, (ns.foldl headerNode q).view l = (projectNew addr).view l := by
    intro ns
    induction ns with
    | nil => exact fun q hq => hq
    | cons n ns ih =>
        intro q hq
        rw [List.foldl_cons]
        apply ih
        unfold headerNode
        split
        · exact hq
        · split
          · exact hq
          · exact hq
  unfold projectNewFromDisk at h
  dsimp only at h
  split at h
  · exact absurd h (by simp)
  · split at h
    · exact absurd h (by simp)
    · split at h
      · exact absurd h (by simp)
      · split at h
        · exact absurd h (by simp)
        · rw [← Option.some.inj h]
          exact hheader _ _ ⟨rfl, fun _ => rfl⟩

/-- Nothing is loaded yet. -/
structure Starting (s : Server) : Prop where
  addr : ∀ a, (s.project a).addr = a
  loaded : s.loaded = []
  all : ∀ a ∈ s.all, a < s.g.nextAddr
  new : ∀ a, s.g.nextAddr ≤ a → s.project a = projectNew a
  view : ∀ a, s.view a = (projectNew a).view false
  log : s.g.log = []

theorem Starting.fillProjects (h : s.Starting) (dirs : List CStr) :
    (s.fillProjects dirs).Starting := by
  induction dirs generalizing s with
  | nil => exact h
  | cons d dirs ih =>
      unfold Server.fillProjects
      split
      · exact ih h
      · next p hp =>
          obtain ⟨haddr, hview⟩ := projectNewFromDisk_view hp
          apply ih
          constructor
          case addr =>
            intro a
            by_cases ha : a = s.g.nextAddr
            · subst ha
              simpa using haddr
            · simpa [ha] using h.addr a
          case loaded => exact h.loaded
          case all =>
            intro a ha
            rcases List.mem_append.mp ha with ha | ha
            · exact Nat.lt_succ_of_lt (h.all a ha)
            · rw [List.mem_singleton] at ha
              subst ha
              exact Nat.lt_succ_self _
          case new =>
            intro a ha
            have hne : a ≠ s.g.nextAddr := fun he => Nat.not_succ_le_self _ (he ▸ ha)
            simpa [hne] using h.new a (Nat.le_of_succ_le ha)
          case view =>
            intro a
            by_cases ha : a = s.g.nextAddr
            · subst ha
              simpa [Server.view, h.loaded] using hview false
            · have := h.view a
              simpa [Server.view, h.loaded, ha] using this
          case log => exact h.log

theorem Starting.wf (h : s.Starting) : s.Wf where
  addr := h.addr
  loaded := by rw [h.loaded]; exact List.nodup_nil
  known := by
    intro a ha
    rw [h.loaded] at ha
    exact h.all a (ha.resolve_left (by simp))
  new := h.new
  unloaded := by
    intro a _
    rw [h.view]
    rfl
  distinct := by
    intro a
    rw [h.view]
    exact List.nodup_nil
  bound := by
    intro a x hx
    rw [h.view] at hx
    exact absurd hx (by simp [View.addrs, View.jobs, Project.view, projectNew])

theorem start_starting (fs : Fs) (dir : CStr) : (start fs dir).Starting := by
  unfold start
  apply Starting.fillProjects
  exact ⟨fun _ => rfl, rfl, by simp, fun _ _ => rfl, fun _ => rfl, rfl⟩

/-- The states of the daemon, started on some disk, after inputs that satisfy a condition. -/
def Reachable (ok : Server → Input → Prop) (fs : Fs) (dir : CStr) (s : Server) : Prop :=
  Runs.Reach step ok (start fs dir) s

variable {ok : Server → Input → Prop} {fs : Fs} {dir : CStr} {t : Server}

theorem Wf.reach (hw : s.Wf) (h : Runs.Reach step ok s t) : t.Wf :=
  h.invariant hw (fun _ _ _ _ hw _ hs => (hw.step_answers hs).wf hw)

theorem Reachable.wf (h : Reachable ok fs dir s) : s.Wf := (start_starting fs dir).wf.reach h

/-- **Invariants of runs.** A property of the view of one project and of its part of the log that
holds at the start, and is kept by every move that an admitted input explains, holds in every state
of a run. -/
theorem Wf.induction (hw : s.Wf) {I : View → List Event → Prop} (a : Addr)
    (h₀ : I (s.view a) (tasks a s.g.log))
    (hstep : ∀ {s i v' act evs}, s.Wf → ok s i → s.Explains i a act →
      Move a (s.view a) act evs v' → I (s.view a) (tasks a s.g.log) →
      I v' (tasks a s.g.log ++ evs))
    (h : Runs.Reach step ok s t) : I (t.view a) (tasks a t.g.log) := by
  refine (h.invariant (I := fun s => s.Wf ∧ I (s.view a) (tasks a s.g.log)) ⟨hw, h₀⟩ ?_).2
  rintro t i u _ ⟨hw, hI⟩ hok htu
  have hans := hw.step_answers htu
  obtain ⟨act, evs, hmove, hlog, hexp⟩ := hans.move a
  refine ⟨hans.wf hw, ?_⟩
  rw [hlog]
  exact hstep hw hok hexp hmove hI

/-- The same from the start of the daemon, where no project has done anything. -/
theorem Reachable.induction {I : View → List Event → Prop} (a : Addr)
    (h₀ : I ((projectNew a).view false) [])
    (hstep : ∀ {s i v' act evs}, s.Wf → ok s i → s.Explains i a act →
      Move a (s.view a) act evs v' → I (s.view a) (tasks a s.g.log) →
      I v' (tasks a s.g.log ++ evs))
    (h : Reachable ok fs dir s) : I (s.view a) (tasks a s.g.log) := by
  have hs := start_starting fs dir
  refine hs.wf.induction a ?_ hstep h
  rw [hs.view, hs.log]
  exact h₀

/-! ## Concrete runs -/

instance (s : Server) (id : Uuid) : Decidable (s.IdInUse id) :=
  inferInstanceAs (Decidable (∃ a ∈ s.loaded, ∃ c ∈ _, _))

instance (s : Server) (i : Input) : Decidable (s.FreshId i) :=
  match i with
  | .connect _ _ _ _ _ _ id => inferInstanceAs (Decidable (¬ s.IdInUse id))
  | .nameLost _ | .progress _ _ | .commitDataSet _ _ | .projectOpen _ | .loadProjectPath _
  | .projectSave _ | .saveRound _ | .projectClose _ | .closeRound _ | .addDependency _ _ _
  | .removeDependency _ _ _ | .lostClientLaunch _ _ | .projectRename _ _
  | .projectSetDescription _ _ | .projectSetNotes _ _ | .projectMove _ _ | .sigchld _ | .bury
  | .outside _ _ => isTrue trivial

/-- A disk with an empty directory for projects. -/
def emptyDisk : Fs := { entries := [([cstr "p"], .dir)], faults := [] }

/-- A list of inputs from the start of the daemon on that disk. -/
def runFrom (ok : Server → Input → Prop) [∀ s i, Decidable (ok s i)] (is : List Input) :
    Option Server :=
  Runs.exec step ok (start emptyDisk (cstr "/p")) is

/-- What a run on the empty disk shows holds in a reachable state. -/
theorem exists_of_runFrom [∀ s i, Decidable (ok s i)] {is : List Input} {q : Server → Bool}
    (h : (runFrom ok is).any q = true) :
    ∃ s, Reachable ok emptyDisk (cstr "/p") s ∧ q s = true :=
  Runs.Reach.exists_of_exec h

end Server

end Lash
