import Lash.Clients.Shell

/-!
# What the shell shows

The daemon and the shell with the signals and the requests that are on their way between them. The
shell asks for nothing when it starts, so it knows of the projects that have appeared since. Of
those it shows the right list once it has heard the signals that are on their way
(`Desk.list_agrees`), and a command reaches the project that the user sees selected
(`Desk.request_finds`).

The shell does not keep the directory in which a project appears, only one that it is moved to. So
what it shows is compared with the notices of a listener who keeps in mind whether a project was
moved since it appeared; the notices themselves are those of the board (`Listing.board`).
-/

namespace Lash

/-! ## Events -/

/-- What the shell is told of an event. -/
def Event.controlEvent : Event → Option ControlEvent
  | .progress _ x => some ⟨.percentage, byteString x.toUInt8, [], 0⟩
  | .projectAppeared _ name path => some ⟨.projectAdd, name, path, 0⟩
  | .projectDisappeared _ name => some ⟨.projectRemove, name, [], 0⟩
  | .projectNameChanged _ old new => some ⟨.projectName, old, new, 0⟩
  | .projectPathChanged _ name path => some ⟨.projectDir, name, path, 0⟩
  | .clientAppeared _ id project _ =>
    (uuidParse id).map (fun id => ⟨.clientAdd, project, project, id⟩)
  | .clientDisappeared _ id project =>
    (uuidParse id).map (fun id => ⟨.clientRemove, project, project, id⟩)
  | _ => none

theorem Event.controlSignal_event {e : Event} {x : ControlSignal} (h : e.controlSignal = some x) :
    x.event = e.controlEvent := by
  cases e with
  | progress a n =>
      rw [← Option.some.inj h]
      rfl
  | projectSaved a n =>
      obtain ⟨n, -, rfl⟩ := Option.map_eq_some_iff.mp h
      rfl
  | projectLoaded a n =>
      obtain ⟨n, -, rfl⟩ := Option.map_eq_some_iff.mp h
      rfl
  | projectModifiedStatusChanged a n b =>
      obtain ⟨n, -, rfl⟩ := Option.map_eq_some_iff.mp h
      rfl
  | projectDisappeared a n =>
      obtain ⟨n, hn, rfl⟩ := Option.map_eq_some_iff.mp h
      rw [← toDbusString_some hn]
      rfl
  | projectAppeared a n p | projectNameChanged a n p | projectPathChanged a n p
  | projectDescriptionChanged a n p | projectNotesChanged a n p | clientDisappeared a n p =>
      obtain ⟨n, hn, h⟩ := Option.bind_eq_some_iff.mp h
      obtain ⟨p, hp, h⟩ := Option.bind_eq_some_iff.mp h
      rw [← toDbusString_some hn, ← toDbusString_some hp, ← Option.some.inj h]
      rfl
  | clientAppeared a n p q =>
      obtain ⟨n, hn, h⟩ := Option.bind_eq_some_iff.mp h
      obtain ⟨p, hp, h⟩ := Option.bind_eq_some_iff.mp h
      obtain ⟨q, hq, h⟩ := Option.bind_eq_some_iff.mp h
      rw [← toDbusString_some hn, ← toDbusString_some hp, ← Option.some.inj h]
      rfl
  | _ => exact absurd h (by simp [Event.controlSignal])

/-! ## Notices with what was heard since -/

/-- A notice, and whether the project was moved since it appeared. -/
structure Listing extends Notice where
  moved : Bool

namespace Listing

/-- Change the listing of the project with a name. -/
def change (name : CStr) (f : Listing → Listing) (l : List Listing) : List Listing :=
  First.modifyFirst (fun e => e.name = name) f l

/-- The listener hears of an event. -/
def pin (l : List Listing) : Event → List Listing
  | .projectAppeared _ name dir => l ++ [⟨⟨name, dir, 0⟩, false⟩]
  | .projectDisappeared _ name => l.eraseP (fun e => e.name = name)
  | .projectNameChanged _ old new => change old (fun e => { e with name := new }) l
  | .projectPathChanged _ name dir =>
    change name (fun e => { e with dir := dir, moved := true }) l
  | .clientAppeared _ id name _ => change name (fun e => { e with toNotice := e.enter id }) l
  | .clientDisappeared _ id name => change name (fun e => { e with toNotice := e.leave id }) l
  | _ => l

theorem pin_of_not_bulletin (l : List Listing) {e : Event} (he : e.isBulletin = false) :
    pin l e = l := by
  cases e <;> first | rfl | exact absurd he (by simp [Event.isBulletin])

/-- The notices alone. -/
def board (l : List Listing) : Board := l.map toNotice

theorem board_change (name : CStr) {f : Listing → Listing} {g : Notice → Notice}
    (hfg : ∀ e, (f e).toNotice = g e.toNotice) (l : List Listing) :
    board (change name f l) = (board l).change name g := by
  unfold board change Board.change
  apply First.map_modifyFirst_comm
  · intro _
    rfl
  · exact hfg

/-- They are pinned to a board. -/
theorem board_pin (l : List Listing) (e : Event) : board (pin l e) = (board l).pin e := by
  cases e with
  | projectAppeared a name dir => exact List.map_append
  | projectDisappeared a name =>
      unfold board
      dsimp only [pin, Board.pin]
      rw [List.eraseP_map]
      rfl
  | projectNameChanged a old new =>
      exact board_change old (g := fun n => { n with name := new }) (fun _ => rfl) l
  | projectPathChanged a name dir =>
      exact board_change name (g := fun n => { n with dir := dir }) (fun _ => rfl) l
  | clientAppeared a id name cname =>
      exact board_change name (g := fun n => n.enter id) (fun _ => rfl) l
  | clientDisappeared a id name =>
      exact board_change name (g := fun n => n.leave id) (fun _ => rfl) l
  | _ => rfl

theorem board_foldl (es : List Event) (l : List Listing) :
    board (es.foldl pin l) = es.foldl Board.pin (board l) := by
  induction es generalizing l with
  | nil => rfl
  | cons e es ih => rw [List.foldl_cons, List.foldl_cons, ih, board_pin]

end Listing

/-! ## A list that shows a board -/

/-- A project of the shell shows a notice. It is in no directory before it is moved, and a client
with the null id stays for ever. -/
structure ShellProject.Shows (p : ShellProject) (n : Notice) : Prop where
  name : p.name = n.name
  dir : ∀ d ∈ p.dir, d = n.dir
  ids : Multiset.filter (· ≠ 0) (p.clients.map ShellClient.id : List Uuid)
    = Multiset.filter (· ≠ 0) n.ids

/-- It has a directory if and only if the project was moved since it appeared. -/
structure ShellProject.Mirrors (p : ShellProject) (e : Listing) : Prop extends
    p.Shows e.toNotice where
  moved : p.dir.isSome = e.moved

/-- The list of the shell shows the projects in their order. -/
def LashControl.Shows (c : LashControl) (l : Board) : Prop :=
  List.Forall₂ ShellProject.Shows c.projects l

/-- The list of the shell shows them and has the directories that it was told. -/
def LashControl.Mirrors (c : LashControl) (l : List Listing) : Prop :=
  List.Forall₂ ShellProject.Mirrors c.projects l

namespace ShellProject.Shows

variable {p q : ShellProject} {n : Notice}

theorem enter (h : p.Shows n) (id : Uuid) :
    ShellProject.Shows { p with clients := p.clients ++ [shellClientNew id] }
      { n with ids := id ::ₘ n.ids } where
  name := h.name
  dir := h.dir
  ids := by
    have hids := h.ids
    rw [List.map_append, ← Multiset.coe_add, Multiset.filter_add, hids, ← Multiset.filter_add,
      add_comm]
    rfl

theorem leave (h : p.Shows n) (id : Uuid) :
    ShellProject.Shows { p with clients := p.clients.eraseP (fun x => x.id = id) }
      { n with ids := n.ids.erase id } where
  name := h.name
  dir := h.dir
  ids := by
    have herase : (p.clients.eraseP (fun x => x.id = id)).map ShellClient.id
        = (p.clients.map ShellClient.id).erase id := by
      rw [List.erase_eq_eraseP', List.eraseP_map]
      congr 2
    have hids := h.ids
    rw [herase, ← Multiset.coe_erase, ← Multiset.sub_singleton, ← Multiset.sub_singleton,
      Multiset.filter_sub, Multiset.filter_sub, hids]

/-- The null id is not looked at. -/
theorem leave_null (h : p.Shows n) : p.Shows { n with ids := n.ids.erase 0 } where
  name := h.name
  dir := h.dir
  ids := by
    have hnone : Multiset.filter (· ≠ (0 : Uuid)) {0} = 0 := rfl
    rw [h.ids, ← Multiset.sub_singleton, Multiset.filter_sub, hnone, Multiset.sub_zero]

end ShellProject.Shows

namespace LashControl

variable {c : LashControl} {l : List Listing}

/-- What is in the list is on the board. -/
theorem Shows.mem {l : Board} (h : c.Shows l) {p : ShellProject} (hp : p ∈ c.projects) :
    ∃ n ∈ l, p.Shows n := by
  obtain ⟨projects, cur, next⟩ := c
  unfold LashControl.Shows at h
  dsimp only at h hp
  induction h with
  | nil => exact absurd hp List.not_mem_nil
  | @cons q n ps l hq h ih =>
      rcases List.mem_cons.mp hp with rfl | hp
      · exact ⟨n, List.mem_cons_self, hq⟩
      · obtain ⟨m, hm, hpm⟩ := ih hp
        exact ⟨m, List.mem_cons_of_mem _ hm, hpm⟩

namespace Mirrors

theorem shows (h : c.Mirrors l) : c.Shows (Listing.board l) := by
  unfold LashControl.Shows Listing.board
  rw [List.forall₂_map_right_iff]
  exact List.Forall₂.imp (fun _ _ hp => hp.toShows) h

theorem changeProject (h : c.Mirrors l) (name : CStr) {f : ShellProject → ShellProject}
    {g : Listing → Listing} (hfg : ∀ p e, p.Mirrors e → (f p).Mirrors (g e)) :
    (c.changeProject name f).Mirrors (Listing.change name g l) := by
  refine First.forall₂_modifyFirst ?_ hfg h
  intro p e hp
  rw [hp.name]

theorem projectRemove (h : c.Mirrors l) (name : CStr) :
    (lashControlCb c ⟨.projectRemove, name, [], 0⟩).Mirrors
      (l.eraseP (fun e => e.name = name)) := by
  have hq : ∀ (p : ShellProject) (e : Listing), p.Mirrors e →
      decide (p.name = name) = decide (e.name = name) := by
    intro p e hp
    rw [hp.name]
  have herase := First.forall₂_eraseP hq h
  unfold lashControlCb
  dsimp only
  split
  · next hnone =>
      have hself : c.projects.eraseP (fun p => p.name = name) = c.projects :=
        List.eraseP_of_forall_not (List.find?_eq_none.mp hnone)
      rw [hself] at herase
      exact herase
  · exact herase

/-- **The shell does to its list what the listener does.** -/
theorem cb (h : c.Mirrors l) {event : Event} :
    (match event.controlEvent with
      | none => c
      | some e => lashControlCb c e).Mirrors (Listing.pin l event) := by
  cases event with
  | projectAppeared a name dir =>
      refine List.rel_append h (.cons ⟨⟨rfl, ?_, rfl⟩, rfl⟩ .nil)
      exact fun d hd => absurd hd (by simp [shellProjectNew])
  | projectDisappeared a name => exact h.projectRemove name
  | projectNameChanged a old new =>
      exact h.changeProject old (fun p e hp => ⟨⟨rfl, hp.dir, hp.ids⟩, hp.moved⟩)
  | projectPathChanged a name dir =>
      refine h.changeProject name (fun p e hp => ⟨⟨hp.name, ?_, hp.ids⟩, rfl⟩)
      exact fun d hd => (Option.some.inj hd).symm
  | clientAppeared a text name cname =>
      dsimp only [Event.controlEvent, Listing.pin, Notice.enter]
      cases uuidParse text with
      | none =>
          rw [Listing.change, First.modifyFirst_self (fun _ => rfl)]
          exact h
      | some id =>
          exact h.changeProject name (fun p e hp => ⟨hp.toShows.enter id, hp.moved⟩)
  | clientDisappeared a text name =>
      dsimp only [Event.controlEvent, Listing.pin, Notice.leave]
      cases uuidParse text with
      | none =>
          rw [Listing.change, First.modifyFirst_self (fun _ => rfl)]
          exact h
      | some id =>
          show (if id = 0 then c else _).Mirrors _
          split
          · next hid =>
              -- the shell keeps a client that the listener does without
              have hself : c.changeProject name (fun p => p) = c := by
                unfold LashControl.changeProject
                rw [First.modifyFirst_self (fun _ => rfl)]
              rw [← hself, hid]
              exact h.changeProject name (fun p e hp => ⟨hp.toShows.leave_null, hp.moved⟩)
          · exact h.changeProject name (fun p e hp => ⟨hp.toShows.leave id, hp.moved⟩)
  | _ => exact h

/-- So it is for everything that the daemon announces. -/
theorem hear_all {es : List Event} (h : c.Mirrors l)
    (hes : ∀ e ∈ es, e.isBulletin = true → e.controlSignal.isSome = true) :
    ((es.filterMap Event.controlSignal).foldl (fun c x => c.hear x.message) c).Mirrors
      (es.foldl Listing.pin l) := by
  induction es generalizing c l with
  | nil => exact h
  | cons e es ih =>
      have hrest : ∀ e ∈ es, e.isBulletin = true → e.controlSignal.isSome = true :=
        fun x hx => hes x (List.mem_cons_of_mem _ hx)
      rw [List.foldl_cons]
      cases hx : e.controlSignal with
      | none =>
          have hnot : e.isBulletin = false := by
            by_contra hb
            have hsome := hes e List.mem_cons_self (by simpa using hb)
            rw [hx] at hsome
            exact absurd hsome (by simp)
          rw [List.filterMap_cons_none hx, Listing.pin_of_not_bulletin l hnot]
          exact ih h hrest
      | some x =>
          rw [List.filterMap_cons_some hx, List.foldl_cons]
          refine ih ?_ hrest
          unfold LashControl.hear
          rw [controlEvent_message, Event.controlSignal_event hx]
          exact h.cb

end Mirrors

end LashControl

/-! ## The daemon and the shell -/

/-- The daemon and the shell. -/
structure Desk where
  server : Server
  /-- The signals that the shell has not heard yet. -/
  wire : List ControlSignal
  /-- The requests that the daemon has not got yet. -/
  requests : List ControlRequest
  control : LashControl
  /-- What has happened in the daemon since the shell was started. -/
  told : List Event
  /-- The projects that were there before the shell. -/
  old : List Addr

/-- What happens next. -/
inductive DeskTurn where
  /-- The daemon handles something that does not come from the shell. -/
  | daemon (i : Input)
  /-- The daemon handles the next request. -/
  | obey
  /-- The shell handles the next signal. -/
  | dispatch
  /-- The user enters a line. -/
  | line (command : CStr)

namespace Desk

/-- The shell is started. -/
def start (s : Server) : Desk where
  server := s
  wire := []
  requests := []
  control := lashControlInit
  told := []
  old := s.loaded

/-- The daemon handles an input. -/
def handle (d : Desk) (i : Input) : Option Desk :=
  (d.server.step i).map (fun s => { d with
    server := s
    wire := d.wire ++ (d.server.news s).filterMap Event.controlSignal
    told := d.told ++ d.server.news s
    old := d.old.filter (fun a => a ∈ s.loaded) })

def step (d : Desk) : DeskTurn → Option Desk
  | .daemon i => d.handle i
  | .obey =>
    match d.requests with
    | [] => none
    | r :: rest => { d with requests := rest }.handle r.input
  | .dispatch =>
    match d.wire with
    | [] => none
    | x :: rest => some { d with wire := rest, control := d.control.hear x.message }
  | .line command =>
    (dealWithCommand d.control command).map (fun r => { d with
      control := r.control
      requests := d.requests ++ r.request.toList })

/-- What the daemon handles in a turn. -/
def input (d : Desk) : DeskTurn → Option Input
  | .daemon i => some i
  | .obey => d.requests.head?.map ControlRequest.input
  | _ => none

/-- Nobody gives a project a name that another has, and the bus accepts what is announced. -/
def Careful (d : Desk) (t : DeskTurn) : Prop :=
  ∀ i ∈ d.input t, d.server.RestoresApart i ∧ d.server.RenamesApart i ∧
    ∀ s ∈ d.server.step i, ∀ e ∈ d.server.news s, e.isBulletin = true →
      e.controlSignal.isSome = true

instance (d : Desk) (t : DeskTurn) : Decidable (d.Careful t) :=
  inferInstanceAs (Decidable (∀ i ∈ d.input t, _))

/-- The list of the shell, once it has heard what is on its way. -/
def heard (d : Desk) : LashControl := d.wire.foldl (fun c x => c.hear x.message) d.control

/-- What there is to know of the projects that have appeared. -/
def listings (d : Desk) : List Listing := d.told.foldl Listing.pin []

/-- What has happened is known to the shell, up to an event after which the rest is on its way. -/
structure Wired (d : Desk) : Prop where
  sent : ∀ e ∈ d.told, e.isBulletin = true → e.controlSignal.isSome = true
  split : ∃ before after, d.told = before ++ after ∧
    d.control.Mirrors (before.foldl Listing.pin []) ∧ d.wire = after.filterMap Event.controlSignal

/-- What holds between the daemon and the shell. -/
structure Inv (d : Desk) : Prop extends d.Wired where
  wf : d.server.Wf
  names : d.server.NamesIdentify
  pointers : d.control.Wf
  old : ∀ a ∈ d.old, a ∈ d.server.loaded
  board : Listing.board d.listings = d.server.board d.old

variable {d d' : Desk} {s : Server} {fs : Fs} {dir : CStr} {i : Input} {t : DeskTurn}

theorem Wired.heard (h : d.Wired) : d.heard.Mirrors d.listings := by
  obtain ⟨before, after, htold, hknown, hwire⟩ := h.split
  unfold Desk.heard listings
  rw [hwire, htold, List.foldl_append]
  apply hknown.hear_all
  intro e he
  apply h.sent
  rw [htold]
  exact List.mem_append_right _ he

theorem Wired.handle (h : d.Wired) (hsend : ∀ s ∈ d.server.step i, ∀ e ∈ d.server.news s,
    e.isBulletin = true → e.controlSignal.isSome = true) (hs : d.handle i = some d') :
    d'.Wired := by
  obtain ⟨s, hstep, rfl⟩ := Option.map_eq_some_iff.mp hs
  obtain ⟨before, after, htold, hknown, hwire⟩ := h.split
  refine ⟨?_, before, after ++ d.server.news s, ?_, hknown, ?_⟩
  · intro e he
    rcases List.mem_append.mp he with he | he
    · exact h.sent e he
    · exact hsend s hstep e he
  · rw [htold, List.append_assoc]
  · rw [hwire, List.filterMap_append]

/-- The shell hears the next signal. -/
theorem Wired.dispatch (h : d.Wired) {x : ControlSignal} {rest : List ControlSignal}
    (hwire : d.wire = x :: rest) :
    Wired { d with wire := rest, control := d.control.hear x.message } := by
  obtain ⟨known, after, htold, hknown, hafter⟩ := h.split
  -- the events up to the one that the shell hears of
  rw [hwire] at hafter
  obtain ⟨before, e, after, rfl, hnone, hx, hrest⟩ := List.filterMap_eq_cons_iff.mp hafter.symm
  have hone : (before ++ [e]).filterMap Event.controlSignal = [x] := by
    rw [List.filterMap_append, List.filterMap_eq_nil_iff.mpr hnone, List.filterMap_cons_some hx]
    rfl
  have hsplit : d.told = known ++ (before ++ [e]) ++ after := by
    rw [htold]
    simp
  have hnews : ∀ e' ∈ before ++ [e],
      e'.isBulletin = true → e'.controlSignal.isSome = true := by
    intro e' he
    apply h.sent
    rw [hsplit]
    exact List.mem_append_left _ (List.mem_append_right _ he)
  have hheard := hknown.hear_all hnews
  rw [hone, ← List.foldl_append] at hheard
  exact ⟨h.sent, known ++ (before ++ [e]), after, hsplit, hheard, hrest.symm⟩

theorem listings_handle (hs : d.handle i = some d') (hstep : d.server.step i = some s)
    {bs : List Event} (hsaid : Says d.server.g s.g bs) :
    Listing.board d'.listings = bs.foldl Board.pin (Listing.board d.listings) := by
  obtain ⟨t, ht, rfl⟩ := Option.map_eq_some_iff.mp hs
  obtain rfl := Option.some.inj (hstep.symm.trans ht)
  obtain ⟨news, hlog, hbs⟩ := hsaid
  have hnews : d.server.news s = news := Server.news_of_log hlog
  unfold listings
  dsimp only
  rw [List.foldl_append, hnews, Listing.board_foldl news, ← hbs, Board.foldl_pin_bulletins]

theorem Inv.start (hw : s.Wf) (hn : s.NamesIdentify) : (start s).Inv where
  sent := fun e he => absurd he List.not_mem_nil
  split := ⟨[], [], rfl, .nil, rfl⟩
  wf := hw
  names := hn
  pointers := LashControl.wf_init
  old := fun a ha => ha
  board := by
    symm
    show s.board s.loaded = []
    rw [Server.board, List.map_eq_nil_iff, List.filter_eq_nil_iff]
    intro a ha
    simpa using ha

theorem Inv.handle (h : d.Inv) (hr : d.server.RestoresApart i) (hi : d.server.RenamesApart i)
    (hsend : ∀ s ∈ d.server.step i, ∀ e ∈ d.server.news s, e.isBulletin = true →
      e.controlSignal.isSome = true) (hs : d.handle i = some d') : d'.Inv := by
  have hwired := h.toWired.handle hsend hs
  have hlistings := fun s => @listings_handle d d' s i hs
  obtain ⟨s, hstep, rfl⟩ := Option.map_eq_some_iff.mp hs
  obtain ⟨bs, hsaid, hboard⟩ := Server.step_pins h.wf h.names hr hstep
  refine ⟨hwired, (h.wf.step_answers hstep).wf h.wf, h.names.step h.wf hi hstep, h.pointers, ?_, ?_⟩
  · intro a ha
    exact of_decide_eq_true (List.mem_filter.mp ha).2
  · rw [hlistings s hstep hsaid, h.board, ← hboard d.old h.old]
    exact (Server.board_filter s d.old).symm

/-- What the shell hears of an input. -/
theorem Inv.heard (h : d.Inv) (hstep : d.server.step i = some s)
    (hsend : ∀ e ∈ d.server.news s, e.isBulletin = true → e.controlSignal.isSome = true)
    {bs : List Event} (hsaid : Says d.server.g s.g bs) (hs : d.handle i = some d') :
    d'.heard.Shows (bs.foldl Board.pin (d.server.board d.old)) := by
  have hwired : d'.Wired := by
    refine h.toWired.handle ?_ hs
    intro t ht
    obtain rfl := Option.some.inj (hstep.symm.trans ht)
    exact hsend
  rw [← h.board, ← listings_handle hs hstep hsaid]
  exact hwired.heard.shows

theorem Inv.step (h : d.Inv) (hc : d.Careful t) (hs : d.step t = some d') : d'.Inv := by
  cases t with
  | daemon i =>
      obtain ⟨hr, hi, hsend⟩ := hc i rfl
      exact h.handle hr hi hsend hs
  | obey =>
      unfold Desk.step at hs
      dsimp only at hs
      split at hs
      · exact absurd hs (by simp)
      · next r rest hreq =>
          have hin : d.input .obey = some r.input := by
            unfold input
            dsimp only
            rw [hreq]
            rfl
          obtain ⟨hr, hi, hsend⟩ := hc r.input hin
          have h' : Inv { d with requests := rest } :=
            ⟨⟨h.sent, h.split⟩, h.wf, h.names, h.pointers, h.old, h.board⟩
          exact h'.handle hr hi hsend hs
  | dispatch =>
      unfold Desk.step at hs
      dsimp only at hs
      split at hs
      · exact absurd hs (by simp)
      · next x rest hwire =>
          rw [← Option.some.inj hs]
          exact ⟨h.toWired.dispatch hwire, h.wf, h.names, h.pointers.hear x.message, h.old,
            h.board⟩
  | line command =>
      obtain ⟨r, hr, rfl⟩ := Option.map_eq_some_iff.mp hs
      obtain ⟨r', hr', hdeals⟩ := h.pointers.dealWithCommand command
      obtain rfl := Option.some.inj (hr.symm.trans hr')
      obtain ⟨before, after, htold, hknown, hwire⟩ := h.split
      refine ⟨⟨h.sent, before, after, htold, ?_, hwire⟩, h.wf, h.names, hdeals.wf, h.old, h.board⟩
      unfold LashControl.Mirrors at *
      rw [hdeals.projects]
      exact hknown

/-- The shell is started beside a daemon that has been running, and then all goes on carefully. -/
def Reachable (fs : Fs) (dir : CStr) (d : Desk) : Prop :=
  ∃ s, Server.Reachable Server.RenamesApart fs dir s ∧ Runs.Reach step Careful (Desk.start s) d

theorem Reachable.inv (h : Reachable fs dir d) : d.Inv := by
  obtain ⟨s, hs, hreach⟩ := h
  exact hreach.invariant (Inv.start hs.wf (Server.names_identify hs))
    (fun _ _ _ _ hinv hc hstep => hinv.step hc hstep)

/-- **The list of the shell agrees with the daemon**: once the shell has heard what is on its way,
it shows the projects that have appeared since it was started, in their order, with their names
and the clients that they have, and where those are that were moved since they appeared. -/
theorem list_agrees (h : Reachable fs dir d) :
    d.heard.Mirrors d.listings ∧ Listing.board d.listings = d.server.board d.old :=
  ⟨h.inv.toWired.heard, h.inv.board⟩

/-- One project is saved and closed, and another one is there when the shell is started. -/
def inputsBefore : List Input := [
  .connect (cstr ":1") 5 (cstr "synth") 0 [] [cstr "synth"] 1, .projectSave (cstr "New Project"),
  .projectClose (cstr "New Project"),
  .connect (cstr ":2") 6 (cstr "synth") 0 [] [cstr "synth"] 2, .projectSave (cstr "New Project 2")]

/-- The user has the first project restored, renamed and moved, and a client joins it. -/
def demoTurns : List DeskTurn := [
  .line (cstr "restore /p/New Project"), .obey, .dispatch,
  .daemon (.connect (cstr ":3") 7 (cstr "synth") 0 [] [cstr "synth"] 3),
  .line (cstr "name foo"), .obey, .dispatch, .dispatch, .dispatch, .dispatch,
  .line (cstr "D /q/"), .obey, .dispatch]

theorem exists_run {is : List Input} {ts : List DeskTurn} {q : Desk → Bool}
    (h : ((Runs.exec Server.step Server.RenamesApart (Server.start Server.emptyDisk (cstr "/p"))
      is).any (fun s => (Runs.exec step Careful (Desk.start s) ts).any q)) = true) :
    ∃ d, Reachable Server.emptyDisk (cstr "/p") d ∧ q d = true := by
  obtain ⟨s, hs, h⟩ := Runs.Reach.exists_of_exec h
  obtain ⟨d, hd, hq⟩ := Runs.Reach.exists_of_exec h
  exact ⟨d, ⟨s, hs, hd⟩, hq⟩

/-- The shell shows the project that it has seen appear, and not the other. -/
theorem list_agrees_restored : ∃ d, Reachable Server.emptyDisk (cstr "/p") d ∧
    d.heard.Mirrors d.listings ∧ Listing.board d.listings = d.server.board d.old ∧
      d.server.loaded.length = 2 ∧
      d.heard.projects.map (fun p => (p.name, p.dir, p.clients.map ShellClient.id))
        = [(cstr "foo", some (cstr "/q"), [3])] := by
  obtain ⟨d, hd, hq⟩ := @exists_run inputsBefore demoTurns
    (fun d => decide (d.server.loaded.length = 2 ∧
      d.heard.projects.map (fun p => (p.name, p.dir, p.clients.map ShellClient.id))
        = [(cstr "foo", some (cstr "/q"), [3])])) (by decide +kernel)
  obtain ⟨hmirrors, hboard⟩ := list_agrees hd
  exact ⟨d, hd, hmirrors, hboard, of_decide_eq_true hq⟩

/-- **A command is about the project that it seems to be about**: no line makes the shell use a
project that is gone, and if nothing is on its way to the shell, the request that a line makes
reaches the daemon as what it asks for, under a name by which the daemon finds the project that the
shell shows as the selected one. -/
theorem request_finds (h : Reachable fs dir d) (line : CStr) :
    ∃ r, dealWithCommand d.control line = some r ∧
      ∀ q ∈ r.request, (∀ env (l : Lashd), l.inputs env q.message = [q.input]) ∧
        (d.wire = [] → ∀ name ∈ q.project, ∃ p a, d.control.curProject = some p.addr ∧
          p ∈ d.control.projects ∧ d.server.findProjectByName name = some a ∧ a ∉ d.old ∧
          p.Shows (d.server.project a).notice) := by
  obtain ⟨r, hr, hdeals⟩ := h.inv.pointers.dealWithCommand line
  refine ⟨r, hr, ?_⟩
  intro q hq
  refine ⟨fun env l => q.inputs env l, ?_⟩
  intro hwire name hname
  obtain ⟨p, hp, hcur, rfl⟩ := hdeals.selected q hq name hname
  have hshows := h.inv.toWired.heard.shows
  unfold heard at hshows
  rw [hwire, h.inv.board] at hshows
  obtain ⟨n, hn, hpn⟩ := hshows.mem hp
  obtain ⟨a, ha, rfl⟩ := List.mem_map.mp hn
  obtain ⟨hloaded, hold⟩ := List.mem_filter.mp ha
  refine ⟨p, a, hcur, hp, ?_, of_decide_eq_true hold, hpn⟩
  exact (h.inv.names.found a hloaded p.name).mp hpn.name.symm

/-- The user saves the project that is renamed. -/
theorem request_finds_renamed : ∃ d r, Reachable Server.emptyDisk (cstr "/p") d ∧
    dealWithCommand d.control (cstr "save") = some r ∧
      ∃ q ∈ r.request, ∃ name ∈ q.project, ∃ p a, d.control.curProject = some p.addr ∧
        p ∈ d.control.projects ∧ d.server.findProjectByName name = some a ∧ a ∉ d.old ∧
        p.Shows (d.server.project a).notice := by
  obtain ⟨d, hd, hq⟩ := @exists_run inputsBefore demoTurns
    (fun d => d.wire.isEmpty && (dealWithCommand d.control (cstr "save")).any
      (fun r => r.request.any (fun q => q.project.isSome))) (by decide +kernel)
  obtain ⟨hwire, hany⟩ := Bool.and_eq_true_iff.mp hq
  obtain ⟨r, hr, hreq⟩ := (Option.any_eq_true _ _).mp hany
  obtain ⟨q, hq, hname⟩ := (Option.any_eq_true _ _).mp hreq
  obtain ⟨name, hname⟩ := Option.isSome_iff_exists.mp hname
  obtain ⟨r', hr', hall⟩ := request_finds hd (cstr "save")
  obtain rfl := Option.some.inj (hr.symm.trans hr')
  exact ⟨d, r, hd, hr, q, hq, name, hname, (hall q hq).2 (List.isEmpty_iff.mp hwire) name hname⟩

end Desk

end Lash
