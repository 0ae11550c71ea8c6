import Lash.Refine

/-!
# What a step does

`Moves` says what a step means for the tasks of a project. What it means for its files and its data
is a matter of the daemon's own functions, and `Deed` says which of them an input calls, on what:
every step is one deed (`step_deed`). Invariants about data are shown deed by deed.
-/

namespace Lash

namespace Server

/-- What a step does, in terms of the functions of the daemon. Projects and clients are those of the
state before. -/
inductive Deed (s : Server) : Input → Server → Prop
  | nothing {i} : Deed s i s
  /-- The list of children changes. -/
  | children {i} (childs : List Child) : Deed s i { s with g := { s.g with childs := childs } }
  | outside (fs : Fs) (forks : List Int) :
      Deed s (.outside fs forks) { s with g := { s.g with fs := fs, forks := forks } }
  | join {sender pid cls flags wd argv id t a u}
      (hi : s.resuming (.connect sender pid cls flags wd argv id) = none)
      (hborn : getNewbornProject { s with g := { s.g with nextAddr := s.g.nextAddr + 1 } }
        = some (t, a))
      (hu : projectNewClient ((t.session a).emit (.connected a s.g.nextAddr sender))
        (newClient s.g.nextAddr sender pid cls flags wd argv) id = some u) :
      Deed s (.connect sender pid cls flags wd argv id) (t.setSession a u)
  | resume {sender pid cls flags wd argv id a c u}
      (hi : s.resuming (.connect sender pid cls flags wd argv id) = some (a, c))
      (ha : a ∈ s.loaded) (hc : c ∈ (s.project a).lostClients)
      (hu : clientResumeProject ((s.session a).emit (.connected a c.addr sender))
        (c.reconnect sender) = some u) :
      Deed s (.connect sender pid cls flags wd argv id) (s.setSession a u)
  | leave {i a c} (childs : List Child) (hi : s.leaving i = some (a, c)) (ha : a ∈ s.loaded)
      (hc : c ∈ (s.project a).clients) :
      Deed s i ({ s with g := { s.g with childs := childs } }.setSession a
        (clientDisconnected { g := { s.g with childs := childs }, p := s.project a } c))
  | complete {i a u c ok v} (hi : s.reporting i = some (a, u, c, ok)) (ha : a ∈ s.loaded)
      (hv : clientTaskCompleted u c ok = some v) : Deed s i (s.setSession a v)
  | progress {i a c} (n : Nat) (ha : a ∈ s.loaded) (hc : c ∈ (s.project a).clients)
      (hi : s.progressing i = some (a, c, n)) :
      Deed s i (s.setSession a (projectClientProgress (s.session a) c n).1)
  | save {i a} (hi : s.saving i = some a) (ha : a ∈ s.loaded) : Deed s i (s.projectSave a)
  | close {i a} (hi : s.closing i = some a) (ha : a ∈ s.loaded) : Deed s i (s.closeProject a)
  | restore {i a ok t} (ha : a ∈ s.all) (hnot : a ∉ s.loaded) (hi : s.restoring i = some a)
      (ht : s.projectRestore a = some (ok, t)) : Deed s i t
  | depend {i a c id d} (hi : s.adding i = some (a, c, id)) (ha : a ∈ s.loaded)
      (hc : c ∈ (s.project a).clients)
      (hd : clientDependencyAdd (s.project a).clients c id = some d) :
      Deed s i (s.setSession a ((s.session a).put d))
  | undepend {i a c} (id : Uuid)
    (hi : ∃ project client dep, i = .removeDependency project client dep)
      (ha : a ∈ s.loaded) (hc : c ∈ (s.project a).clients) :
      Deed s i (s.setSession a ((s.session a).put
        { c with dependencies := clientDependencyRemove c.dependencies id }))
  | launch {i a c g d} (ha : a ∈ s.loaded) (hc : c ∈ (s.project a).lostClients)
      (hd : projectLaunchClient s.g (s.project a) c = some (g, d)) :
      Deed s i (s.setSession a { g := g
                                 p := { s.project a with
                                   lostClients := putClient d (s.project a).lostClients } })
  | rename {a old new} (ha : a ∈ s.loaded) :
      Deed s (.projectRename old new) (s.setSession a (Lash.projectRename (s.session a) new))
  | describe {a name description} (ha : a ∈ s.loaded) :
      Deed s (.projectSetDescription name description)
        (s.setSession a (Lash.projectSetDescription (s.session a) description))
  | note {a name notes} (ha : a ∈ s.loaded) :
      Deed s (.projectSetNotes name notes)
        (s.setSession a (Lash.projectSetNotes (s.session a) notes))
  | move {a name path} (hi : s.findProjectByName name = some a) (ha : a ∈ s.loaded) :
      Deed s (.projectMove name path) (s.setSession a (Lash.projectMove (s.session a) path))

variable {s s' : Server} {a : Addr} {i : Input}

/-! ## Which input does what -/

theorem addClient_deed {sender : CStr} {pid : Int} {cls : CStr} {flags : Flags} {wd : CStr}
    {argv : List CStr} {id : Uuid} {addr : Addr}
    (h : s.addClient sender pid cls flags wd argv id = some (s', a, addr)) :
    s.Deed (.connect sender pid cls flags wd argv id) s' := by
  unfold addClient at h
  split at h
  · next b c hfind =>
      obtain ⟨u, hu, he⟩ := Option.map_eq_some_iff.mp h
      simp only [Prod.mk.injEq] at he
      obtain ⟨rfl, rfl, rfl⟩ := he
      have hfind' := hfind
      rw [if_neg (by rintro rfl; simp at hfind)] at hfind'
      obtain ⟨hb, hc, -⟩ := findClient_some hfind'
      exact .resume hfind hb hc hu
  · next hfind =>
      dsimp only at h
      split at h
      · exact absurd h (by simp)
      · next t b hborn =>
          obtain ⟨u, hu, he⟩ := Option.map_eq_some_iff.mp h
          simp only [Prod.mk.injEq] at he
          obtain ⟨rfl, rfl, rfl⟩ := he
          exact .join hfind hborn hu

theorem disconnect_deed {r : Option (Addr × Client)} (hi : s.leaving i = r)
    (hr : ∀ a c, r = some (a, c) → a ∈ s.loaded ∧ c ∈ (s.project a).clients) (childs : List Child) :
    s.Deed i (disconnect { s with g := { s.g with childs := childs } } r) := by
  cases r with
  | none => exact .children childs
  | some r =>
      obtain ⟨b, c⟩ := r
      obtain ⟨hb, hc⟩ := hr b c rfl
      exact .leave childs hi hb hc

theorem buryOne_deed : s.Deed .bury s.buryOne := by
  unfold buryOne
  cases hdead : s.g.childs.find? Child.dead with
  | none => exact .nothing
  | some child =>
      refine disconnect_deed ?_ ?_ _
      · show (s.g.childs.find? Child.dead).bind _ = _
        rw [hdead]
        rfl
      · intro b c hfind
        obtain ⟨hb, hc, -⟩ := @findClient_some s _ Project.clients _ _ hfind
        exact ⟨hb, hc⟩

theorem dbusProgress_deed {sender : CStr} {args : List Arg} {r : Reply}
    (h : s.dbusProgress sender args = some (s', r)) : s.Deed (.progress sender args) s' := by
  unfold dbusProgress at h
  split at h
  · obtain ⟨rfl, -⟩ := Prod.mk.inj (Option.some.inj h)
    exact .nothing
  · next b c hfind =>
      obtain ⟨hb, hc⟩ := findClientByDbusName_some hfind
      split at h
      · obtain ⟨rfl, -⟩ := Prod.mk.inj (Option.some.inj h)
        exact .nothing
      · next percentage rest hcheck =>
          obtain ⟨t, ht, he⟩ := Option.map_eq_some_iff.mp h
          obtain ⟨rfl, -⟩ := Prod.mk.inj he
          unfold clientTaskProgressed at ht
          split at ht
          · next h0 =>
              refine .complete ?_ hb ht
              simp only [reporting, hfind, hcheck]
              rw [if_pos h0]
          · next h0 =>
              split at ht
              · next h255 =>
                  refine .complete ?_ hb ht
                  simp only [reporting, hfind, hcheck]
                  rw [if_neg h0, if_pos h255]
              · next h255 =>
                  split at ht
                  · rw [← Option.some.inj ht, setSession_session]
                    exact .nothing
                  · next hle =>
                      rw [← Option.some.inj ht]
                      refine .progress _ hb hc ?_
                      simp only [progressing, hfind, hcheck]
                      rw [if_neg (by omega)]
      · obtain ⟨rfl, -⟩ := Prod.mk.inj (Option.some.inj h)
        exact .nothing

theorem dbusCommitDataSet_deed {sender : CStr} {args : List Arg} {r : Reply}
    (h : s.dbusCommitDataSet sender args = some (s', r)) :
    s.Deed (.commitDataSet sender args) s' := by
  have hnothing : ∀ {r' : Reply}, some (s, r') = some (s', r) →
      s.Deed (.commitDataSet sender args) s' := by
    intro r' he
    obtain ⟨rfl, -⟩ := Prod.mk.inj (Option.some.inj he)
    exact .nothing
  unfold dbusCommitDataSet at h
  split at h
  · exact hnothing h
  · next b c hfind =>
      obtain ⟨hb, hc⟩ := findClientByDbusName_some hfind
      split at h
      · exact hnothing h
      · next rest hcheck =>
          split at h
          · exact hnothing h
          · next st hst =>
              split at h
              · exact hnothing h
              · next elems more hne =>
                  generalize hcom : commitConfigs st elems = rs at h
                  obtain ⟨ok, st'⟩ := rs
                  obtain ⟨t, ht, he⟩ := Option.map_eq_some_iff.mp h
                  obtain ⟨rfl, -⟩ := Prod.mk.inj he
                  refine .complete ?_ hb ht
                  cases elems with
                  | nil => exact (hne rfl).elim
                  | cons elem elems => simp only [reporting, hfind, hcheck, hst, hcom]
              · exact hnothing h

theorem dbusRestore_deed (q : Project → Bool) {r : Reply}
    (hi : s.restoring i = (s.all.find? (fun a => q (s.project a))).filter (fun a => a ∉ s.loaded))
    (h : s.dbusRestore q = some (s', r)) : s.Deed i s' := by
  unfold dbusRestore at h
  split at h
  · obtain ⟨rfl, -⟩ := Prod.mk.inj (Option.some.inj h)
    exact .nothing
  · next b hfind =>
      obtain ⟨⟨ok, t⟩, ht, he⟩ := Option.map_eq_some_iff.mp h
      obtain ⟨rfl, -⟩ := Prod.mk.inj he
      by_cases hb : b ∈ s.loaded
      · unfold projectRestore at ht
        rw [if_pos hb] at ht
        obtain ⟨-, rfl⟩ := Prod.mk.inj (Option.some.inj ht)
        exact .nothing
      · refine .restore (List.mem_of_find?_eq_some hfind) hb ?_ ht
        rw [hi, hfind]
        simp [hb]

theorem onProject_deed {name : CStr} {f : Addr → Server}
    (hf : ∀ a, s.findProjectByName name = some a → s.Deed i (f a)) :
    s.Deed i (s.onProject name f).1 := by
  unfold onProject
  split
  · exact .nothing
  · next a ha => exact hf a ha

theorem dbusLostClientLaunch_deed {project client : CStr} {r : Reply}
    (h : s.dbusLostClientLaunch project client = some (s', r)) :
    s.Deed (.lostClientLaunch project client) s' := by
  have hnothing : ∀ {r' : Reply}, some (s, r') = some (s', r) →
      s.Deed (.lostClientLaunch project client) s' := by
    intro r' he
    obtain ⟨rfl, -⟩ := Prod.mk.inj (Option.some.inj he)
    exact .nothing
  unfold dbusLostClientLaunch at h
  split at h
  · exact hnothing h
  · split at h
    · exact hnothing h
    · next b hfind =>
        split at h
        · exact hnothing h
        · next c hc =>
            obtain ⟨⟨g, d⟩, hlaunch, he⟩ := Option.map_eq_some_iff.mp h
            obtain ⟨rfl, -⟩ := Prod.mk.inj he
            exact .launch (findProjectByName_mem hfind) (List.mem_of_find?_eq_some hc) hlaunch

theorem dbusAddDependency_deed {project client dep : CStr} {r : Reply}
    (h : s.dbusAddDependency project client dep = some (s', r)) :
    s.Deed (.addDependency project client dep) s' := by
  unfold dbusAddDependency at h
  split at h
  · obtain ⟨rfl, -⟩ := Prod.mk.inj (Option.some.inj h)
    exact .nothing
  · next b c id hdata =>
      obtain ⟨d, hd, he⟩ := Option.map_eq_some_iff.mp h
      obtain ⟨rfl, -⟩ := Prod.mk.inj he
      obtain ⟨hb, hc⟩ := dependencyModifyData_ok hdata
      exact .depend (by simp only [adding, hdata]) hb hc hd

/-- **Every step is one deed.** -/
theorem step_deed (h : s.step i = some s') : s.Deed i s' := by
  unfold step at h
  obtain ⟨⟨t, r⟩, hh, rfl⟩ := Option.map_eq_some_iff.mp h
  cases i with
  | connect sender pid cls flags wd argv id =>
      simp only [handle, dbusConnect] at hh
      split at hh
      · exact absurd hh (by simp)
      · next u b addr hadd =>
          have hut : u = t := by
            split at hh
            · exact (Prod.mk.inj (Option.some.inj hh)).1
            · exact (Prod.mk.inj (Option.some.inj hh)).1
          rw [hut] at hadd
          exact addClient_deed hadd
  | nameLost name =>
      obtain ⟨rfl, -⟩ := Prod.mk.inj (Option.some.inj hh)
      exact @disconnect_deed s (.nameLost name) _ rfl (fun _ _ hr => findClientByDbusName_some hr)
        s.g.childs
  | progress sender args => exact dbusProgress_deed hh
  | commitDataSet sender args => exact dbusCommitDataSet_deed hh
  | projectOpen name => exact dbusRestore_deed (fun p => p.name = name) rfl hh
  | loadProjectPath path => exact dbusRestore_deed (fun p => p.directory = path) rfl hh
  | projectSave name =>
      obtain rfl := congrArg Prod.fst (Option.some.inj hh)
      exact onProject_deed (fun b hb => .save hb (findProjectByName_mem hb))
  | saveRound b =>
      obtain ⟨rfl, -⟩ := Prod.mk.inj (Option.some.inj hh)
      split
      · next hb => exact .save (if_pos hb) hb
      · exact .nothing
  | projectClose name =>
      obtain rfl := congrArg Prod.fst (Option.some.inj hh)
      exact onProject_deed (fun b hb => .close hb (findProjectByName_mem hb))
  | closeRound b =>
      obtain ⟨rfl, -⟩ := Prod.mk.inj (Option.some.inj hh)
      split
      · next hb => exact .close (if_pos hb) hb
      · exact .nothing
  | addDependency project client dep => exact dbusAddDependency_deed hh
  | removeDependency project client dep =>
      obtain rfl := congrArg Prod.fst (Option.some.inj hh)
      show s.Deed _ (s.dbusRemoveDependency project client dep).1
      unfold dbusRemoveDependency
      split
      · exact .nothing
      · next b c id hdata =>
          obtain ⟨hb, hc⟩ := dependencyModifyData_ok hdata
          exact .undepend id ⟨project, client, dep, rfl⟩ hb hc
  | lostClientLaunch project client => exact dbusLostClientLaunch_deed hh
  | projectRename old new =>
      obtain rfl := congrArg Prod.fst (Option.some.inj hh)
      exact onProject_deed (fun b hb => .rename (findProjectByName_mem hb))
  | projectSetDescription name d =>
      obtain rfl := congrArg Prod.fst (Option.some.inj hh)
      exact onProject_deed (fun b hb => .describe (findProjectByName_mem hb))
  | projectSetNotes name n =>
      obtain rfl := congrArg Prod.fst (Option.some.inj hh)
      exact onProject_deed (fun b hb => .note (findProjectByName_mem hb))
  | projectMove name path =>
      obtain rfl := congrArg Prod.fst (Option.some.inj hh)
      show s.Deed _ (s.dbusProjectMove name path).1
      unfold dbusProjectMove
      split
      · exact .nothing
      · next b hb => exact .move hb (findProjectByName_mem hb)
  | sigchld pid =>
      obtain ⟨rfl, -⟩ := Prod.mk.inj (Option.some.inj hh)
      exact .children _
  | bury =>
      obtain ⟨rfl, -⟩ := Prod.mk.inj (Option.some.inj hh)
      exact buryOne_deed
  | outside fs forks =>
      obtain ⟨rfl, -⟩ := Prod.mk.inj (Option.some.inj hh)
      exact .outside fs forks

/-! ## Reports -/

/-- A report comes from a live client: it says how its task ended, or delivers a data set, which
is in its store when the task is completed. -/
theorem reporting_cases {u : Session} {c : Client} {ok : Bool}
    (h : s.reporting i = some (a, u, c, ok)) :
    a ∈ s.loaded ∧ ∃ d ∈ (s.project a).clients, d.pendingTask ≠ 0 ∧
      ((u = s.session a ∧ c = d ∧ ∃ sender args, i = .progress sender args) ∨
        ∃ sender args elems more st, i = .commitDataSet sender args ∧
          s.findClientByDbusName sender = some (a, d) ∧
          checkTasks "CommitDataSet" d args = .ok (.array elems :: more) ∧ d.store = some st ∧
          ok = (commitConfigs st elems).1 ∧
          c = { d with store := some (commitConfigs st elems).2 } ∧ u = (s.session a).put c) := by
  cases i with
  | progress sender args =>
      unfold reporting at h
      dsimp only at h
      split at h
      · exact absurd h (by simp)
      · next b d hfind =>
          obtain ⟨hb, hd⟩ := findClientByDbusName_some hfind
          split at h
          · next hcheck =>
              have hp := checkTasks_ok hcheck
              split at h
              · simp only [Option.some.injEq, Prod.mk.injEq] at h
                obtain ⟨rfl, rfl, rfl, -⟩ := h
                exact ⟨hb, d, hd, hp, Or.inl ⟨rfl, rfl, sender, args, rfl⟩⟩
              · split at h
                · simp only [Option.some.injEq, Prod.mk.injEq] at h
                  obtain ⟨rfl, rfl, rfl, -⟩ := h
                  exact ⟨hb, d, hd, hp, Or.inl ⟨rfl, rfl, sender, args, rfl⟩⟩
                · exact absurd h (by simp)
          · exact absurd h (by simp)
  | commitDataSet sender args =>
      unfold reporting at h
      dsimp only at h
      split at h
      · exact absurd h (by simp)
      · next b d hfind =>
          obtain ⟨hb, hd⟩ := findClientByDbusName_some hfind
          split at h
          · next elem elems more st hcheck hst =>
              have hp := checkTasks_ok hcheck
              simp only [Option.some.injEq, Prod.mk.injEq] at h
              obtain ⟨rfl, rfl, rfl, rfl⟩ := h
              exact ⟨hb, d, hd, hp,
                Or.inr ⟨sender, args, elem :: elems, more, st, rfl, hfind, hcheck,
                hst, rfl, rfl, rfl⟩⟩
          · exact absurd h (by simp)
  | _ => exact absurd h (by simp [reporting])

end Server

end Lash
