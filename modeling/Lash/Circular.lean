import Lash.Document
import Lash.Owing

/-!
# Circular dependencies

The daemon refuses a dependency that would close a cycle, but it looks for the cycle among the
live clients only. So the dependencies of a project stay free of cycles through two clients as
long as no dependency is added that leads back to the client by way of a lost one. A client that
depends on itself is no such cycle; the daemon accepts it.
-/

namespace Lash

open Search

/-- Some job depends on an id. -/
def DependsOn (jobs : List Job) (x y : Uuid) : Prop := ∃ c ∈ jobs, c.id = x ∧ y ∈ c.dependencies

theorem dependsOn_map_job (l : List Client) (x y : Uuid) :
    DependsOn (l.map Client.job) x y ↔ DependsIn l x y := by
  constructor
  · rintro ⟨_, hj, hid, hy⟩
    obtain ⟨c, hc, rfl⟩ := List.mem_map.mp hj
    exact ⟨c, hc, hid, hy⟩
  · rintro ⟨c, hc, hid, hy⟩
    exact ⟨c.job, List.mem_map_of_mem hc, hid, hy⟩

/-- The clients of a project have an id each, and no cycle of dependencies. -/
structure View.NoCycle (v : View) : Prop where
  ids : ∀ c ∈ v.jobs, ∀ d ∈ v.jobs, c.id = d.id → c.addr = d.addr
  acyclic : Acyclic (DependsOn v.jobs)

/-! ## One move -/

section

variable {a : Addr} {v v' : View} {act : Act} {evs : List Event}

/-- The same client, with no new dependency. -/
structure Job.Descends (c d : Job) : Prop where
  addr : c.addr = d.addr
  id : c.id = d.id
  dependencies : ∀ x ∈ d.dependencies, x ∈ c.dependencies

theorem Job.Descends.refl (c : Job) : c.Descends c := ⟨rfl, rfl, fun _ h => h⟩

theorem Job.mem_put {c d e : Job} {l : List Job} (hc : c ∈ l) (he : e ∈ Keyed.put Job.addr d l)
    (h : c.Descends d) : ∃ x ∈ l, x.Descends e := by
  rcases Keyed.eq_or_mem_of_mem_put he with rfl | he
  · exact ⟨c, hc, h⟩
  · exact ⟨e, he, .refl e⟩

/-- Every client was there before, unless it is new; only a client that gets a dependency has more
of them than before. -/
theorem Move.descends (h : Move a v act evs v') {d : Job} (hd : d ∈ v'.jobs) :
    (∃ c ∈ v.jobs, c.Descends d) ∨ act = .join d ∨ (∃ cs, act = .restore cs) ∨
      ∃ c ∈ v.live, ∃ id, act = .depend c id ∧
        d = { c with dependencies := id :: c.dependencies } := by
  have hlive : ∀ {e : Job}, e ∈ v.live → e.Descends d → ∃ c ∈ v.jobs, c.Descends d :=
    fun he h => ⟨_, List.mem_append_left _ he, h⟩
  have hlost : ∀ {e : Job}, e ∈ v.lost → e.Descends d → ∃ c ∈ v.jobs, c.Descends d :=
    fun he h => ⟨_, List.mem_append_right _ he, h⟩
  have hput : ∀ {c e : Job}, c ∈ v.live → d ∈ (v.put e).jobs → c.Descends e →
      ∃ c ∈ v.jobs, c.Descends d := by
    intro c e hc hd hce
    rcases List.mem_append.mp hd with hd | hd
    · obtain ⟨x, hx, hxd⟩ := Job.mem_put hc hd hce
      exact hlive hx hxd
    · exact hlost hd (.refl d)
  have hrevive : ∀ {c e : Job}, c ∈ v.lost → d ∈ (v.revive e).jobs → c.Descends e →
      ∃ c ∈ v.jobs, c.Descends d := by
    intro c e hc hd hce
    rcases List.mem_append.mp hd with hd | hd
    · rcases List.mem_cons.mp hd with rfl | hd
      · exact hlost hc hce
      · exact hlive hd (.refl d)
    · exact hlost (Keyed.mem_of_mem_del hd) (.refl d)
  cases h with
  | quiet => exact Or.inl ⟨d, hd, .refl d⟩
  | @join c name =>
      rcases List.mem_cons.mp (show d ∈ c :: v.jobs from hd) with rfl | hd
      · exact Or.inr (Or.inl rfl)
      · exact Or.inl ⟨d, hd, .refl d⟩
  | @leave c hc =>
      refine Or.inl ?_
      rcases List.mem_append.mp hd with hd | hd
      · exact hlive (Keyed.mem_of_mem_del hd) (.refl d)
      · rcases List.mem_cons.mp hd with rfl | hd
        · exact hlive hc ⟨rfl, rfl, fun _ h => h⟩
        · exact hlost hd (.refl d)
  | sent hc => exact Or.inl (hrevive hc hd ⟨rfl, rfl, fun _ h => h⟩)
  | silent hc => exact Or.inl (hrevive hc hd ⟨rfl, rfl, fun _ h => h⟩)
  | stateless hc =>
      rw [View.jobs_count] at hd
      exact Or.inl (hrevive hc hd ⟨rfl, rfl, fun _ h => h⟩)
  | cleared hc => exact Or.inl (hput hc hd ⟨rfl, rfl, fun _ h => h⟩)
  | failed hc | saved hc =>
      rw [View.jobs_count] at hd
      exact Or.inl (hput hc hd ⟨rfl, rfl, fun _ h => h⟩)
  | @restored c lost written modified pname hc hp htype hall =>
      rw [View.jobs_count] at hd
      refine Or.inl ?_
      rcases List.mem_append.mp hd with hd | hd
      · obtain ⟨x, hx, hxd⟩ := Job.mem_put hc hd ⟨rfl, rfl, fun _ h => h⟩
        exact hlive hx hxd
      · obtain ⟨e, he, pid, rfl⟩ := exists_of_forall₂ hall hd
        exact hlost he ⟨rfl, rfl, fun _ h => h⟩
  | skipped =>
      rw [View.jobs, List.append_nil] at hd
      exact Or.inl (hlive hd (.refl d))
  | asked =>
      rw [View.jobs, View.ask, List.append_nil] at hd
      obtain ⟨c, hc, rfl⟩ := List.mem_map.mp hd
      refine Or.inl (hlive hc ?_)
      unfold Job.ask
      split
      · exact ⟨rfl, rfl, fun _ h => h⟩
      · exact .refl c
  | close => exact absurd hd (by simp [View.jobs])
  | restore => exact Or.inr (Or.inr (Or.inl ⟨_, rfl⟩))
  | launch hc =>
      refine Or.inl ?_
      rcases List.mem_append.mp hd with hd | hd
      · exact hlive hd (.refl d)
      · obtain ⟨x, hx, hxd⟩ := Job.mem_put hc hd ⟨rfl, rfl, fun _ h => h⟩
        exact hlost hx hxd
  | @depend c id hc =>
      rcases List.mem_append.mp hd with hd | hd
      · rcases Keyed.eq_or_mem_of_mem_put hd with rfl | hd
        · exact Or.inr (Or.inr (Or.inr ⟨c, hc, id, rfl, rfl⟩))
        · exact Or.inl (hlive hd (.refl d))
      · exact Or.inl (hlost hd (.refl d))
  | undepend hc => exact Or.inl (hput hc hd ⟨rfl, rfl, fun _ h => List.mem_of_mem_erase h⟩)

/-- The act brings no cycle: a new client has an id of its own, a restored project has no cycles,
and a new dependency does not lead back to its client. -/
def Act.KeepsAcyclic (v : View) : Act → Prop
  | .join c => ∀ d ∈ v.jobs, d.id ≠ c.id
  | .restore cs => (∀ c ∈ cs, ∀ d ∈ cs, c.id = d.id → c.addr = d.addr) ∧ Acyclic (DependsOn cs)
  | .depend c id => id ≠ c.id → ¬ Relation.TransGen (DependsOn v.jobs) id c.id
  | _ => True

theorem View.NoCycle.move (h : v.NoCycle) (hmove : Move a v act evs v') (hok : act.KeepsAcyclic v) :
    v'.NoCycle := by
  by_cases hres : ∃ cs, act = .restore cs
  · obtain ⟨cs, rfl⟩ := hres
    cases hmove with
    | @restore _ lost hload hjobs hidle hdist hlost =>
        have hmem : ∀ d ∈ v.live ++ lost, ∃ c ∈ cs, c.Descends d := by
          intro d hd
          rw [(List.append_eq_nil_iff.mp hjobs).1, List.nil_append] at hd
          obtain ⟨c, hc, pid, rfl⟩ := exists_of_forall₂ hlost hd
          exact ⟨c, hc, rfl, rfl, fun x hx => (List.mem_filter.mp hx).1⟩
        constructor
        · intro d hd e he heq
          obtain ⟨c, hc, hcd⟩ := hmem d hd
          obtain ⟨b, hb, hbe⟩ := hmem e he
          rw [← hcd.addr, ← hbe.addr]
          exact hok.1 c hc b hb (hcd.id.trans (heq.trans hbe.id.symm))
        · refine hok.2.mono ?_
          rintro x y ⟨d, hd, hid, hy⟩
          obtain ⟨c, hc, hcd⟩ := hmem d hd
          exact ⟨c, hc, hcd.id.trans hid, hcd.dependencies y hy⟩
  · -- every client but a new one was there before
    have hmem : ∀ d ∈ v'.jobs, (∃ c ∈ v.jobs, c.addr = d.addr ∧ c.id = d.id) ∨ act = .join d := by
      intro d hd
      rcases hmove.descends hd with ⟨c, hc, hcd⟩ | hjoin | hrestore | ⟨c, hc, id, _, rfl⟩
      · exact Or.inl ⟨c, hc, hcd.addr, hcd.id⟩
      · exact Or.inr hjoin
      · exact absurd hrestore hres
      · exact Or.inl ⟨c, List.mem_append_left _ hc, rfl, rfl⟩
    constructor
    · intro d hd e he heq
      rcases hmem d hd with ⟨c, hc, hcaddr, hcid⟩ | hjd <;>
        rcases hmem e he with ⟨b, hb, hbaddr, hbid⟩ | hje
      · rw [← hcaddr, ← hbaddr]
        exact h.ids c hc b hb (hcid.trans (heq.trans hbid.symm))
      · rw [hje] at hok
        exact absurd (hcid.trans heq) (hok c hc)
      · rw [hjd] at hok
        exact absurd (hbid.trans heq.symm) (hok b hb)
      · rw [hjd] at hje
        rw [Act.join.inj hje]
    · by_cases hdep : ∃ c id, act = .depend c id
      · obtain ⟨c, id, rfl⟩ := hdep
        have hins : Acyclic (Insert (DependsOn v.jobs) c.id (· = id)) := by
          apply h.acyclic.insert
          rintro _ rfl hne
          exact hok hne
        refine hins.mono ?_
        rintro x y ⟨d, hd, rfl, hy⟩
        rcases hmove.descends hd with ⟨e, he, hed⟩ | hjoin | hrestore | ⟨e, he, id', hact, rfl⟩
        · exact Or.inl ⟨e, he, hed.id, hed.dependencies y hy⟩
        · exact absurd hjoin (by simp)
        · exact absurd hrestore hres
        · obtain ⟨rfl, rfl⟩ := Act.depend.inj hact
          rcases List.mem_cons.mp hy with rfl | hy
          · exact Or.inr ⟨rfl, rfl⟩
          · exact Or.inl ⟨c, List.mem_append_left _ he, rfl, hy⟩
      · refine h.acyclic.mono ?_
        rintro x y ⟨d, hd, rfl, hy⟩
        rcases hmove.descends hd with ⟨e, he, hed⟩ | rfl | hrestore | ⟨e, he, id', rfl, _⟩
        · exact ⟨e, he, hed.id, hed.dependencies y hy⟩
        · cases hmove with
          | join fresh idle hnew deps =>
              rw [deps.1] at hy
              exact absurd hy (by simp)
        · exact absurd hrestore hres
        · exact absurd ⟨e, id', rfl⟩ hdep

end

/-! ## Runs -/

namespace Server

/-- The input brings no cycle into a project: the uuid of a new client is new, the document of a
project to be restored is one as the daemon writes them, and where a new dependency leads back to
its client it does so through live clients. -/
structure KeepsAcyclic (s : Server) (i : Input) : Prop where
  fresh : s.FreshId i
  doc : ∀ a ∈ s.restoring i, (s.project a).DocOk
  adding : ∀ r ∈ s.adding i, r.2.2 ≠ r.2.1.id →
    Relation.TransGen (DependsIn ((s.project r.1).clients ++ (s.project r.1).lostClients)) r.2.2
      r.2.1.id →
    Relation.TransGen (DependsIn (s.project r.1).clients) r.2.2 r.2.1.id

theorem KeepsAcyclic.act {s : Server} {i : Input} {a : Addr} {act : Act} {evs : List Event}
    {v' : View} (h : s.KeepsAcyclic i) (hw : s.Wf) (hexp : s.Explains i a act)
    (hm : Move a (s.view a) act evs v') (hI : (s.view a).NoCycle) :
    act.KeepsAcyclic (s.view a) := by
  have hjobs : (s.view a).jobs
      = ((s.project a).clients ++ (s.project a).lostClients).map Client.job := by
    rw [List.map_append]
    rfl
  have haddr : ∀ {l : List Client}, ((l.map Client.job).map Job.addr).Nodup →
      ∀ c ∈ l, ∀ d ∈ l, c.addr = d.addr → c = d := by
    intro l hl c hc d hd he
    rw [List.map_map] at hl
    exact List.inj_on_of_nodup_map hl hc hd he
  cases act with
  | join c =>
      obtain ⟨_, sender, pid, cls, flags, wd, argv, rfl⟩ := hexp
      intro d hd hid
      by_cases hload : (s.view a).loaded = true
      · rw [hjobs] at hd
        obtain ⟨x, hx, rfl⟩ := List.mem_map.mp hd
        exact h.fresh ⟨a, by simpa [Server.view, Project.view] using hload, x, hx, hid⟩
      · rw [hw.unloaded a (Bool.eq_false_iff.mpr hload)] at hd
        exact absurd hd (by simp)
  | restore cs =>
      have hload : (s.view a).loaded = false := by
        cases hm with
        | restore hload => exact hload
      have hdist : (cs.map Job.addr).Nodup := by
        cases hm with
        | restore _ _ _ hdist => exact hdist
      obtain ⟨l, hl, rfl⟩ := hexp.restored hw hload
      obtain ⟨hids, hacyclic, _⟩ := (h.doc a hexp.1).clients hl
      constructor
      · intro c hc d hd he
        obtain ⟨x, hx, rfl⟩ := List.mem_map.mp hc
        obtain ⟨y, hy, rfl⟩ := List.mem_map.mp hd
        rw [List.inj_on_of_nodup_map hids hx hy he]
      · exact hacyclic.mono (fun x y hxy => (dependsOn_map_job l x y).mp hxy)
  | depend c id =>
      obtain ⟨x, hx, rfl, hfind⟩ := hexp
      intro hne hpath
      have hpath' := h.adding (a, x, id) hx hne (Relation.TransGen.mono
        (fun y z hyz => (dependsOn_map_job _ y z).mp (hjobs ▸ hyz)) _ _ hpath)
      have hids : ((s.project a).clients.map Client.id).Nodup := by
        have hlive : ((s.project a).clients.map Client.addr).Nodup := by
          have := (hw.distinct a).live
          rwa [Server.view, Project.view, List.map_map] at this
        refine (List.nodup_map_iff_inj_on (List.Nodup.of_map _ hlive)).mpr ?_
        intro y hy z hz hyz
        refine List.inj_on_of_nodup_map hlive hy hz ?_
        refine hI.ids y.job ?_ z.job ?_ hyz
        · exact List.mem_append_left _ (List.mem_map_of_mem hy)
        · exact List.mem_append_left _ (List.mem_map_of_mem hz)
      rw [clientDependencyFindCircular_eq_search] at hfind
      exact search_false hfind (Relation.TransGen.mono
        (fun y z hyz => (dependsIn_iff_depsIn hids y z).mp hyz) _ _ hpath')
  | _ => trivial

/-- Two or more clients of a project each of which depends on the next one, and the last one on the
first. -/
def Circular (s : Server) (a : Addr) : Prop :=
  ∃ c d cs, (∀ x ∈ c :: d :: cs, x ∈ (s.project a).clients ++ (s.project a).lostClients) ∧
    ((c :: d :: cs).map Client.addr).Nodup ∧
    List.IsChain (fun x y : Client => y.id ∈ x.dependencies) (c :: d :: cs ++ [c])

theorem transGen_of_isChain {l cs : List Client} {c d : Client} (hmem : ∀ x ∈ d :: cs, x ∈ l)
    (hchain : List.IsChain (fun x y : Client => y.id ∈ x.dependencies) (d :: cs ++ [c])) :
    Relation.TransGen (DependsIn l) d.id c.id := by
  induction cs generalizing d with
  | nil =>
      rw [List.singleton_append, List.isChain_cons_cons] at hchain
      exact .single ⟨d, hmem d (by simp), rfl, hchain.1⟩
  | cons e cs ih =>
      rw [List.cons_append, List.cons_append, List.isChain_cons_cons] at hchain
      exact .head ⟨d, hmem d (by simp), rfl, hchain.1⟩
        (ih (fun x hx => hmem x (List.mem_cons_of_mem _ hx)) hchain.2)

theorem noCycle_of_reachable {fs : Fs} {dir : CStr} {s : Server}
    (h : Reachable KeepsAcyclic fs dir s)
    (a : Addr) : (s.view a).NoCycle := by
  refine h.induction (I := fun v _ => v.NoCycle) a ?_ ?_
  · have hnil : ((projectNew a).view false).jobs = [] := rfl
    refine ⟨by simp [hnil], ?_⟩
    rw [hnil]
    rintro x y _ hxy
    obtain ⟨z, ⟨c, hc, _⟩, _⟩ := Relation.TransGen.head'_iff.mp hxy
    exact absurd hc (by simp)
  · intro s i v' act evs hw hok hexp hmove hI
    exact hI.move hmove (hok.act hw hexp hmove hI)

/-- **The dependencies of a project contain no cycle** through two or more clients, live or lost, as
long as no dependency is added that leads back to its client by way of lost clients only. -/
theorem never_circular {fs : Fs} {dir : CStr} {s : Server} (h : Reachable KeepsAcyclic fs dir s)
    (a : Addr) : ¬ s.Circular a := by
  rintro ⟨c, d, cs, hmem, hdist, hchain⟩
  have hI := noCycle_of_reachable h a
  have hjobs : (s.view a).jobs
      = ((s.project a).clients ++ (s.project a).lostClients).map Client.job := by
    rw [List.map_append]
    rfl
  have hacyclic : Acyclic (DependsIn ((s.project a).clients ++ (s.project a).lostClients)) := by
    refine hI.acyclic.mono (fun x y hxy => ?_)
    rw [hjobs]
    exact (dependsOn_map_job _ x y).mpr hxy
  have hne : c.id ≠ d.id := by
    intro he
    have hmap : ∀ x ∈ c :: d :: cs, x.job ∈ (s.view a).jobs := by
      intro x hx
      rw [hjobs]
      exact List.mem_map_of_mem (hmem x hx)
    have haddr := hI.ids c.job (hmap c (by simp)) d.job (hmap d (by simp)) he
    rw [List.map_cons, List.map_cons, List.nodup_cons] at hdist
    apply hdist.1
    rw [show c.addr = d.addr from haddr]
    exact List.mem_cons_self
  rw [List.cons_append, List.cons_append, List.isChain_cons_cons] at hchain
  refine hacyclic c.id d.id hne (.single ⟨c, hmem c (by simp), rfl, hchain.1⟩) ?_
  exact transGen_of_isChain (fun x hx => hmem x (List.mem_cons_of_mem _ hx)) hchain.2

/-- The second client depends on the first, and the second is lost when the first is made to
depend on it. -/
theorem circular_through_lost :
    ∃ s, Reachable FreshId emptyDisk (cstr "/p") s ∧ 1 ∈ s.loaded ∧ s.Circular 1 := by
  have hrun : (runFrom FreshId
      [.connect (cstr ":1") 5 (cstr "synth") flagConfigFile [] [cstr "synth"] 1,
        .connect (cstr ":2") 6 (cstr "drums") flagConfigFile [] [cstr "drums"] 2,
        .addDependency (cstr "New Project") (uuidUnparse 2) (uuidUnparse 1),
        .nameLost (cstr ":2"),
        .addDependency (cstr "New Project") (uuidUnparse 1) (uuidUnparse 2)]).any
      (fun s => 1 ∈ s.loaded ∧ ∃ c ∈ (s.project 1).clients, ∃ d ∈ (s.project 1).lostClients,
        c.addr ≠ d.addr ∧ d.id ∈ c.dependencies ∧ c.id ∈ d.dependencies) = true := by
    decide +kernel
  obtain ⟨s, hs, hbad⟩ := exists_of_runFrom hrun
  obtain ⟨hloaded, c, hc, d, hd, hne, hcd, hdc⟩ := of_decide_eq_true hbad
  refine ⟨s, hs, hloaded, c, d, [], ?_, by simpa using hne, by simp [hcd, hdc]⟩
  intro x hx
  rcases List.mem_cons.mp hx with rfl | hx
  · exact List.mem_append_left _ hc
  · rw [List.mem_singleton.mp hx]
    exact List.mem_append_right _ hd

/-- Three clients depend on each other in a row, and the project is saved, closed and opened
again. -/
theorem never_circular_of_three :
    ∃ s, Reachable KeepsAcyclic emptyDisk (cstr "/p") s ∧ (s.project 1).lostClients.length = 3 ∧
      (∃ c ∈ (s.project 1).lostClients, c.dependencies ≠ []) ∧ ¬ s.Circular 1 := by
  have hrun : (runFrom (fun s i => s.FreshId i ∧ (∀ a ∈ s.restoring i, (s.project a).DocOk) ∧
        ∀ r ∈ s.adding i, (s.project r.1).lostClients.isEmpty)
      [.connect (cstr ":1") 5 (cstr "synth") flagConfigFile [] [cstr "synth"] 1,
        .connect (cstr ":2") 6 (cstr "drums") flagConfigFile [] [cstr "drums"] 2,
        .connect (cstr ":3") 7 (cstr "mixer") 0 [] [cstr "mixer"] 3,
        .addDependency (cstr "New Project") (uuidUnparse 2) (uuidUnparse 1),
        .addDependency (cstr "New Project") (uuidUnparse 3) (uuidUnparse 2),
        .addDependency (cstr "New Project") (uuidUnparse 1) (uuidUnparse 3),
        .projectSave (cstr "New Project"),
        .progress (cstr ":1") [.uint64 1, .byte 255],
        .progress (cstr ":2") [.uint64 1, .byte 255],
        .projectClose (cstr "New Project"),
        .projectOpen (cstr "New Project")]).any
      (fun s => (s.project 1).lostClients.length = 3 ∧
        ∃ c ∈ (s.project 1).lostClients, c.dependencies ≠ []) = true := by
    decide +kernel
  obtain ⟨s, hs, hgood⟩ := exists_of_runFrom hrun
  obtain ⟨hlen, hdeps⟩ := of_decide_eq_true hgood
  have hreach : Reachable KeepsAcyclic emptyDisk (cstr "/p") s := by
    refine hs.mono ?_
    rintro t i ⟨hfresh, hdoc, hadd⟩
    refine ⟨hfresh, hdoc, fun r hr _ hpath => ?_⟩
    rwa [List.isEmpty_iff.mp (hadd r hr), List.append_nil] at hpath
  exact ⟨s, hreach, hlen, hdeps, never_circular hreach 1⟩

end Server

end Lash
