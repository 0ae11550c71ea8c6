import Lash.Clients.Desk

/-!
# A project that is restored under a name that is taken

`server_project_restore` gives such a project a new name, and announces that a project changes its
name before it announces that the project is there. Whoever listens knows projects by their names,
so he takes it for the project that has the name.
-/

namespace Lash

namespace Server

variable {s t : Server} {a b : Addr} {i : Input} {u : Session}

/-- What becomes of a project that is restored under a name that is taken, and what is announced. -/
structure Clashes (s t : Server) (a : Addr) (taken new : CStr) : Prop where
  name : (t.project a).name = new
  free : ∀ c ∈ s.loaded, (s.project c).name ≠ new
  loaded : t.loaded = s.loaded ++ [a]
  others : ∀ c ∈ s.loaded, t.project c = s.project c
  said : ∃ c dir, Says s.g t.g [.projectNameChanged c taken new, .projectAppeared a new dir] ∧
    ∀ old : List Addr, (∀ c ∈ old, c ∈ s.loaded) → t.board old = s.board old ++ [⟨new, dir, 0⟩]

theorem step_restoring {s' : Server} (hi : s.restoring i = some a) (h : s.step i = some s') :
    ∃ ok, s.projectRestore a = some (ok, s') := by
  have hrestored : ((s.projectRestore a).map (fun r => (r.2, Reply.void))).map Prod.fst = some s' →
      ∃ ok, s.projectRestore a = some (ok, s') := by
    intro hr
    rw [Option.map_map] at hr
    obtain ⟨⟨ok, t⟩, ht, rfl⟩ := Option.map_eq_some_iff.mp hr
    exact ⟨ok, ht⟩
  cases i with
  | projectOpen name =>
      obtain ⟨hfind, -⟩ := Option.filter_eq_some_iff.mp hi
      have hr : (s.dbusRestore (fun p => p.name = name)).map Prod.fst = some s' := h
      rw [dbusRestore, hfind] at hr
      exact hrestored hr
  | loadProjectPath path =>
      obtain ⟨hfind, -⟩ := Option.filter_eq_some_iff.mp hi
      have hr : (s.dbusRestore (fun p => p.directory = path)).map Prod.fst = some s' := h
      rw [dbusRestore, hfind] at hr
      exact hrestored hr
  | _ => exact absurd hi (by simp [restoring])

theorem restore_clashes (hw : s.Wf) (hnot : a ∉ s.loaded)
    (hload : projectLoad (s.session a) = some (true, u))
    (hfind : s.findProjectByName u.p.name = some b) {ok : Bool}
    (h : s.projectRestore a = some (ok, t)) : ∃ name, s.Clashes t a u.p.name name := by
  have hfind' := hfind
  rw [← findProjectByName_setSession hnot u] at hfind'
  have hothers : ∀ (v : Server) (w : Session), ∀ c ∈ s.loaded,
      (v.setSession a w).project c = v.project c :=
    fun v w c hc => setSession_project_ne v w (fun he => hnot (he ▸ hc))
  unfold projectRestore at h
  rw [if_neg hnot, hload] at h
  dsimp only at h
  rw [hfind'] at h
  dsimp only at h
  split at h
  · exact absurd h (by simp)
  · next name hname =>
      obtain ⟨w, hv, he⟩ := Option.map_eq_some_iff.mp h
      obtain ⟨-, rfl⟩ := Prod.mk.inj he
      generalize hm : (s.setSession a u).setSession a (projectRename u name) = m at hv
      have hself : (m.project a).name = name ∧ (m.project a).clients = [] := by
        rw [← hm, setSession_project_self]
        refine ⟨projectRename_name u name, ?_⟩
        unfold Lash.projectRename
        rw [projectSetModifiedStatus_p]
        exact (projectLoad_unplaced (hw.unplaced hnot) hload).1
      have hmloaded : m.loaded = s.loaded := by rw [← hm]; rfl
      have hmothers : ∀ c ∈ s.loaded, m.project c = s.project c := by
        intro c hc
        rw [← hm, hothers _ _ c hc, hothers _ _ c hc]
      have hmsays : Says s.g m.g [.projectNameChanged u.p.addr u.p.name name] := by
        have hread : Quiet s.g u.g := .of_eq (projectLoad_log hload)
        rw [← hm]
        exact hread.after (projectRename_said u name)
      have happ := startRestore_appears (hmloaded ▸ hnot) hself.2 hv
      rw [hself.1] at happ
      obtain ⟨hsaid, hboard⟩ := happ
      refine ⟨name, ?_, ?_, ?_, ?_, u.p.addr, (m.project a).directory, hmsays.trans hsaid, ?_⟩
      · obtain ⟨g, lost, -, rfl⟩ := startRestore_some hv
        rw [setSession_project_self]
        exact hself.1
      · intro c hc
        have hfree := createNewProjectName_free hname (b := c) hc
        rwa [hothers s u c hc] at hfree
      · obtain ⟨g, lost, -, rfl⟩ := startRestore_some hv
        rw [← hmloaded]
        rfl
      · intro c hc
        obtain ⟨g, lost, -, rfl⟩ := startRestore_some hv
        exact (hothers _ _ c hc).trans (hmothers c hc)
      · intro old hold
        rw [hboard old (by rw [hmloaded]; exact hold)]
        congr 1
        unfold board
        rw [hmloaded]
        apply List.map_congr_left
        intro c hc
        rw [hmothers c (List.mem_of_mem_filter hc)]

/-- The listener's board is that of the daemon, but for the name of the project that had it. -/
theorem Clashes.board {taken new : CStr} (h : s.Clashes t a taken new) (hne : new ≠ taken) :
    ∃ bs, Says s.g t.g bs ∧ ∀ old : List Addr, (∀ c ∈ old, c ∈ s.loaded) →
      bs.foldl Board.pin (s.board old)
        = (t.board old).change taken (fun n => { n with name := new }) := by
  obtain ⟨c, dir, hsaid, hboard⟩ := h.said
  refine ⟨_, hsaid, ?_⟩
  intro old hold
  rw [hboard old hold, Board.change, First.modifyFirst_append]
  · rfl
  · intro n hn
    obtain rfl := List.mem_singleton.mp hn
    exact decide_eq_false hne

/-- Nobody can be reached under the name that was taken. -/
theorem change_apart {taken new : CStr} (hn : s.NamesIdentify) (hl : s.loaded.Nodup)
    (hb : s.findProjectByName taken = some b) (hne : new ≠ taken) (old : List Addr) :
    ∀ n ∈ (s.board old).change taken (fun n => { n with name := new }), n.name ≠ taken := by
  have hname := findProjectByName_eq hb
  have hmem := List.mem_of_find?_eq_some hb
  have hiff : ∀ c ∈ s.loaded.filter (fun c => c ∉ old),
      decide ((s.project c).notice.name = taken) = true ↔ c = b := by
    intro c hc
    rw [← hname]
    exact name_iff (fun c hc hcb => hn.unique c hc b hmem hcb) c (List.mem_of_mem_filter hc)
  have hmap : (s.board old).change taken (fun n => { n with name := new })
      = (s.loaded.filter (fun c => c ∉ old)).map (fun c =>
        if c = b then { (s.project c).notice with name := new } else (s.project c).notice) := by
    apply First.modifyFirst_map (hl.filter _) hiff
    · intro _
      rw [if_pos rfl]
    · intro c _ hcb
      rw [if_neg hcb]
  intro n hmemn
  rw [hmap] at hmemn
  obtain ⟨c, hc, rfl⟩ := List.mem_map.mp hmemn
  split
  · exact hne
  · next hcb =>
      intro htaken
      exact hcb ((hiff c hc).mp (decide_eq_true htaken))

end Server

namespace Desk

variable {d d' : Desk} {fs : Fs} {dir : CStr} {a b : Addr} {i : Input} {u : Session}

/-- **A project that is restored under a name that is taken takes the name away from the other**:
it gets a new name and the other one keeps its name, but the shell shows the other one under the
new name. So nothing in its list has the name of the other one, and a command for that entry is
about the restored project. -/
theorem restore_clash (h : Reachable fs dir d) (hi : d.server.restoring i = some a)
    (hload : projectLoad (d.server.session a) = some (true, u))
    (hb : d.server.findProjectByName u.p.name = some b)
    (hsend : ∀ s ∈ d.server.step i, ∀ e ∈ d.server.news s, e.isBulletin = true →
      e.controlSignal.isSome = true) (hs : d.handle i = some d') :
    ∃ new ≠ u.p.name, d'.server.findProjectByName new = some a ∧
      d'.server.findProjectByName u.p.name = some b ∧
      d'.heard.Shows ((d'.server.board d'.old).change u.p.name (fun n => { n with name := new })) ∧
      ∀ p ∈ d'.heard.projects, p.name ≠ u.p.name := by
  have hinv := h.inv
  have hnot := Server.restoring_not_mem hi
  have hmem := List.mem_of_find?_eq_some hb
  have hname := Server.findProjectByName_eq hb
  obtain ⟨s, hstep, hd'⟩ := Option.map_eq_some_iff.mp hs
  obtain ⟨ok, hrestore⟩ := Server.step_restoring hi hstep
  obtain ⟨new, hclash⟩ := Server.restore_clashes hinv.wf hnot hload hb hrestore
  have hne : new ≠ u.p.name := by
    rw [← hname]
    exact (hclash.free b hmem).symm
  -- no other project is renamed
  have hapart : d.server.RenamesApart i := by
    rintro old new' c rfl
    exact absurd hi (by simp [Server.restoring])
  have hnames := hinv.names.step hinv.wf hapart hstep
  have ha : a ∈ s.loaded := by
    rw [hclash.loaded]
    exact List.mem_append_right _ (List.mem_singleton_self a)
  have hbmem : b ∈ s.loaded := by
    rw [hclash.loaded]
    exact List.mem_append_left _ hmem
  have hbname : (s.project b).name = u.p.name := by
    rw [hclash.others b hmem, hname]
  have hfound := (hnames.found b hbmem u.p.name).mp hbname
  obtain ⟨bs, hsaid, hboard⟩ := hclash.board hne
  have hheard := hinv.heard hstep (hsend s hstep) hsaid hs
  rw [hboard d.old hinv.old] at hheard
  subst hd'
  rw [Server.board_filter]
  refine ⟨new, hne, (hnames.found a ha new).mp hclash.name, hfound, hheard, ?_⟩
  intro p hp
  obtain ⟨n, hn, hpn⟩ := hheard.mem hp
  rw [hpn.name]
  have hwf := (hinv.wf.step_answers hstep).wf hinv.wf
  exact Server.change_apart hnames hwf.loaded hfound hne d.old n hn

/-- The user gives a project the name of one that is saved, and has that restored. -/
def clashTurns : List DeskTurn := [
  .daemon (.connect (cstr ":1") 5 (cstr "synth") 0 [] [cstr "synth"] 1), .dispatch, .dispatch,
  .line (cstr "save"), .obey, .line (cstr "close"), .obey,
  .daemon (.connect (cstr ":2") 6 (cstr "synth") 0 [] [cstr "synth"] 2),
  .daemon (.projectRename (cstr "New Project 2") (cstr "New Project"))]

/-- Both projects have one name then. -/
theorem restore_clash_renamed : ∃ d d' new, Reachable Server.emptyDisk (cstr "/p") d ∧
    d.handle (.projectOpen (cstr "New Project")) = some d' ∧
      (∃ b, d'.server.findProjectByName (cstr "New Project") = some b) ∧
      d'.heard.projects.map ShellProject.name = [new, new] ∧
      ∀ p ∈ d'.heard.projects, p.name ≠ cstr "New Project" := by
  obtain ⟨d, hd, hq⟩ := @exists_run [] clashTurns
    (fun d => d.server.restoring (.projectOpen (cstr "New Project")) = some 1 ∧
      ∃ r ∈ projectLoad (d.server.session 1), r.1 = true ∧ r.2.p.name = cstr "New Project" ∧
        ∃ b ∈ d.server.findProjectByName (cstr "New Project"),
        ∃ s ∈ d.server.step (.projectOpen (cstr "New Project")),
          (∀ e ∈ d.server.news s, e.isBulletin = true → e.controlSignal.isSome = true) ∧
          ∃ d' ∈ d.handle (.projectOpen (cstr "New Project")),
            d'.heard.projects.map ShellProject.name
              = [cstr "New Project 2", cstr "New Project 2"]) (by decide +kernel)
  obtain ⟨hi, ⟨ok, u⟩, hload, hok, hname, b, hb, s, hstep, hsend, d', hs, hlist⟩ :=
    of_decide_eq_true hq
  dsimp only at hok hname
  rw [hok] at hload
  rw [← hname] at hb
  obtain ⟨new, -, -, hfound, -, hall⟩ := restore_clash hd hi hload hb (fun t ht => by
    obtain rfl := Option.some.inj (hstep.symm.trans ht)
    exact hsend) hs
  rw [hname] at hfound hall
  exact ⟨d, d', cstr "New Project 2", hd, hs, ⟨b, hfound⟩, hlist, hall⟩

end Desk

end Lash
