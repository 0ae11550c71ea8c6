import Lash.Refine

/-!
# What a project file says about clients

`project_load` goes through the children of the root of a document. `readClients` is that loop, cut
down to what it does to the list of lost clients: every `<client>` element adds one in front.
-/

namespace Lash

/-- The `<client>` elements of a document. -/
def Project.clientNodes (p : Project) : List XmlNode :=
  ((p.doc.bind rootNode).elim [] XmlNode.children).filter (fun n => n.name = cstr "client")

/-- The loop of `project_load` over the `<client>` elements; `lost` are the clients read so far. -/
def readClients (addr : Addr) (lost : List Client) : List XmlNode → Option (List Client)
  | [] => some lost
  | n :: ns =>
    match clientParseXml lost (clientNew addr) n with
    | none => none
    | some c => readClients (addr + 1) (c :: lost) ns

theorem foldlM_loadNode {s t : Session} {ns : List XmlNode} (h : ns.foldlM loadNode s = some t) :
    readClients s.g.nextAddr s.p.lostClients (ns.filter (fun n => n.name = cstr "client"))
      = some t.p.lostClients := by
  induction ns generalizing s with
  | nil =>
      rw [List.foldlM_nil] at h
      rw [← Option.some.inj h]
      rfl
  | cons n ns ih =>
      rw [List.foldlM_cons] at h
      obtain ⟨u, hu, hrest⟩ := Option.bind_eq_some_iff.mp h
      have ih := ih hrest
      unfold loadNode at hu
      split_ifs at hu with hname hclient
      · rw [← Option.some.inj hu] at ih
        rw [List.filter_cons_of_neg (by rw [hname]; decide)]
        exact ih
      · rw [List.filter_cons_of_pos (by simpa using hclient), readClients]
        cases hc : clientParseXml s.p.lostClients (clientNew s.g.nextAddr) n with
        | none =>
            rw [hc] at hu
            exact absurd hu (by simp)
        | some c =>
            rw [hc] at hu
            rw [← Option.some.inj hu] at ih
            exact ih
      · rw [← Option.some.inj hu] at ih
        rw [List.filter_cons_of_neg (by simpa using hclient)]
        exact ih

/-- `project_load` reads the clients of the document. -/
theorem projectLoad_clients {s t : Session} (hnil : s.p.lostClients = [])
    (h : projectLoad s = some (true, t)) :
    readClients s.g.nextAddr [] s.p.clientNodes = some t.p.lostClients := by
  unfold projectLoad at h
  split at h
  · exact absurd h (by simp)
  · next doc hdoc =>
      split at h
      · exact absurd h (by simp)
      · next root hroot =>
          split at h
          · exact absurd h (by simp)
          · next u hu =>
              have hread := foldlM_loadNode hu
              rw [hnil] at hread
              have hnodes : s.p.clientNodes
                  = root.children.filter (fun n => n.name = cstr "client") := by
                rw [Project.clientNodes, hdoc, Option.bind_some, hroot]
                rfl
              have hnotes : (projectLoadNotes u).p.lostClients = u.p.lostClients := by
                unfold projectLoadNotes
                split <;> rfl
              rw [hnodes, hread, ← (Prod.mk.inj (Option.some.inj h)).2]
              exact congrArg some hnotes.symm

theorem length_readClients {addr : Addr} {lost l : List Client} {ns : List XmlNode}
    (h : readClients addr lost ns = some l) : l.length = lost.length + ns.length := by
  induction ns generalizing addr lost with
  | nil =>
      rw [← Option.some.inj h]
      rfl
  | cons n ns ih =>
      rw [readClients] at h
      split at h
      · exact absurd h (by simp)
      · rw [ih h, List.length_cons, List.length_cons]
        omega

/-- The clients of a project that is loaded are those of the document. -/
theorem Server.Explains.restored {s : Server} {i : Input} {a : Addr} {clients : List Job}
    (hw : s.Wf) (hload : (s.view a).loaded = false) (h : s.Explains i a (.restore clients)) :
    ∃ l, readClients s.g.nextAddr [] (s.project a).clientNodes = some l ∧
      clients = l.map Client.job := by
  obtain ⟨_, t, ht, rfl⟩ := h
  refine ⟨_, projectLoad_clients ?_ ht, rfl⟩
  have hjobs := hw.unloaded a hload
  rw [View.jobs, List.append_eq_nil_iff] at hjobs
  exact List.map_eq_nil_iff.mp hjobs.2

/-! ## Ids and dependencies -/

/-- The id of a `<client>` element. -/
def XmlNode.clientId (n : XmlNode) : Uuid :=
  n.children.foldl
    (fun id m => if m.name = cstr "id" then (uuidParse m.getContent).getD id else id) 0

/-- No `<id>` comes after a `<dependencies>` element. -/
def XmlNode.IdFirst (n : XmlNode) : Prop :=
  n.children.Pairwise (fun m k => m.name = cstr "dependencies" → k.name ≠ cstr "id")

instance (n : XmlNode) : Decidable n.IdFirst :=
  inferInstanceAs (Decidable (List.Pairwise _ _))

/-- The clients of the project file are told apart by their ids. -/
def Project.DistinctIds (p : Project) : Prop := (p.clientNodes.map XmlNode.clientId).Nodup

instance (p : Project) : Decidable p.DistinctIds := inferInstanceAs (Decidable (List.Nodup _))

/-- The project file is one as the daemon writes them. -/
structure Project.DocOk (p : Project) : Prop where
  distinct : p.DistinctIds
  idFirst : ∀ n ∈ p.clientNodes, n.IdFirst

instance (p : Project) : Decidable p.DocOk :=
  decidable_of_iff (p.DistinctIds ∧ ∀ n ∈ p.clientNodes, n.IdFirst)
    ⟨fun h => ⟨h.1, h.2⟩, fun h => ⟨h.1, h.2⟩⟩

/-- A listed client depends on an id. -/
def DependsIn (l : List Client) (x y : Uuid) : Prop := ∃ c ∈ l, c.id = x ∧ y ∈ c.dependencies

section

open Search

variable {addr : Addr} {lost l : List Client} {c c' : Client} {n : XmlNode} {ns : List XmlNode}
  {id : Uuid}

theorem dependsIn_iff_depsIn (h : (l.map Client.id).Nodup) (x y : Uuid) :
    DependsIn l x y ↔ y ∈ depsIn l x := by
  unfold depsIn projectGetClientById
  constructor
  · rintro ⟨c, hc, rfl, hy⟩
    cases hfind : l.find? (fun d => d.id = c.id) with
    | none => exact absurd (List.find?_eq_none.mp hfind c hc) (by simp)
    | some d =>
        have hd : d.id = c.id := by simpa using List.find?_some hfind
        rwa [List.inj_on_of_nodup_map h (List.mem_of_find?_eq_some hfind) hc hd]
  · intro hy
    split at hy
    · exact absurd hy (by simp)
    · next c hfind =>
        exact ⟨c, List.mem_of_find?_eq_some hfind, by simpa using List.find?_some hfind, hy⟩

/-- What `client_dependency_add` does to a client: nothing, or a dependency is added that does not
lead back to it. -/
theorem clientDependencyAdd_cases (h : clientDependencyAdd l c id = some c') :
    c' = c ∨ (id ∉ c.dependencies ∧ c' = { c with dependencies := id :: c.dependencies } ∧
      clientDependencyFindCircular l c.id (l.length + 1) id = some false) := by
  unfold clientDependencyAdd at h
  split at h
  · exact Or.inl (Option.some.inj h).symm
  · next hmem =>
      split at h
      · exact absurd h (by simp)
      · exact Or.inl (Option.some.inj h).symm
      · next hfind => exact Or.inr ⟨hmem, (Option.some.inj h).symm, hfind⟩

/-- A client that is being read: no dependency occurs twice or leads back to the client through the
clients read before. -/
structure Client.Sound (lost : List Client) (c : Client) : Prop where
  nodup : c.dependencies.Nodup
  forth : ∀ d ∈ c.dependencies, ¬ Relation.TransGen (fun x y => y ∈ depsIn lost x) d c.id

theorem parseDependency_id (hp : parseDependency lost c n = some c') : c'.id = c.id := by
  unfold parseDependency at hp
  split at hp
  · rcases clientDependencyAdd_cases hp with rfl | ⟨_, rfl, _⟩ <;> rfl
  · rw [← Option.some.inj hp]

theorem parseDependency_sound (h : c.Sound lost) (hp : parseDependency lost c n = some c') :
    c'.Sound lost := by
  unfold parseDependency at hp
  split at hp
  · next id hid =>
      rcases clientDependencyAdd_cases hp with rfl | ⟨hmem, rfl, hfind⟩
      · exact h
      · rw [clientDependencyFindCircular_eq_search] at hfind
        refine ⟨List.nodup_cons.mpr ⟨hmem, h.nodup⟩, ?_⟩
        intro d hd
        rcases List.mem_cons.mp hd with rfl | hd
        · exact search_false hfind
        · exact h.forth d hd
  · rw [← Option.some.inj hp]
    exact h

/-- One child of a `<client>` element: a `<dependencies>` element keeps the id, the others keep the
dependencies. -/
theorem parseClientNode_cases (hp : parseClientNode lost c n = some c') :
    (n.name = cstr "dependencies" ∧ c'.id = c.id ∧ (c.Sound lost → c'.Sound lost)) ∨
      (n.name ≠ cstr "dependencies" ∧ c'.dependencies = c.dependencies ∧
        c'.id = if n.name = cstr "id" then (uuidParse n.getContent).getD c.id else c.id) := by
  unfold parseClientNode at hp
  by_cases hdep : n.name = cstr "dependencies"
  · refine Or.inl ⟨hdep, ?_⟩
    have hne : ∀ s, cstr "dependencies" ≠ cstr s → n.name ≠ cstr s := fun s hs => hdep ▸ hs
    rw [if_neg (hne _ (by decide)), if_neg (hne _ (by decide)), if_neg (hne _ (by decide)),
      if_neg (hne _ (by decide)), if_neg (hne _ (by decide)), if_neg (hne _ (by decide)),
      if_pos hdep] at hp
    constructor
    · refine Runs.foldlM_invariant (I := fun d : Client => d.id = c.id) rfl ?_ hp
      exact fun d m e _ hd he => (parseDependency_id he).trans hd
    · intro h
      refine Runs.foldlM_invariant (I := fun d : Client => d.Sound lost) h ?_ hp
      exact fun d m e _ hd he => parseDependency_sound hd he
  · refine Or.inr ⟨hdep, ?_⟩
    by_cases hid : n.name = cstr "id"
    · rw [if_neg (by rw [hid]; decide), if_pos hid] at hp
      rw [if_pos hid, ← Option.some.inj hp]
      exact ⟨rfl, rfl⟩
    · rw [if_neg hid]
      split_ifs at hp <;> rw [← Option.some.inj hp] <;> exact ⟨rfl, rfl⟩

/-- The children of a `<client>` element that are left; `c` has no dependencies yet, or its id is
known. -/
theorem foldlM_parseClientNode {ms : List XmlNode}
    (hfirst : ms.Pairwise (fun m k => m.name = cstr "dependencies" → k.name ≠ cstr "id"))
    (hc : c.Sound lost) (hdeps : c.dependencies = [] ∨ ∀ m ∈ ms, m.name ≠ cstr "id")
    (h : ms.foldlM (parseClientNode lost) c = some c') : c'.Sound lost := by
  induction ms generalizing c with
  | nil =>
      rw [← Option.some.inj h]
      exact hc
  | cons m ms ih =>
      rw [List.foldlM_cons] at h
      obtain ⟨d, hd, hrest⟩ := Option.bind_eq_some_iff.mp h
      obtain ⟨hm, hfirst⟩ := List.pairwise_cons.mp hfirst
      rcases parseClientNode_cases hd with ⟨hname, hid, hsound⟩ | ⟨hname, hdd, hid⟩
      · exact ih hfirst (hsound hc) (Or.inr (fun k hk => hm k hk hname)) hrest
      · have hsound : d.Sound lost := by
          refine ⟨hdd ▸ hc.nodup, ?_⟩
          rw [hdd]
          rcases hdeps with hnil | hids
          · rw [hnil]
            exact fun x hx => absurd hx (by simp)
          · rw [hid, if_neg (hids m (by simp))]
            exact hc.forth
        refine ih hfirst hsound ?_ hrest
        rw [hdd]
        exact hdeps.imp id (fun hids k hk => hids k (List.mem_cons_of_mem _ hk))

theorem clientParseXml_sound (hfirst : n.IdFirst)
    (h : clientParseXml lost (clientNew addr) n = some c) : c.Sound lost :=
  foldlM_parseClientNode hfirst ⟨List.nodup_nil, fun _ hd => absurd hd (by simp [clientNew])⟩
    (Or.inl rfl) h

theorem clientParseXml_id (h : clientParseXml lost (clientNew addr) n = some c) :
    c.id = n.clientId := by
  have hfold : ∀ (ms : List XmlNode) (d : Client), ms.foldlM (parseClientNode lost) d = some c →
      c.id = ms.foldl (fun id m => if m.name = cstr "id" then (uuidParse m.getContent).getD id
        else id) d.id := by
    intro ms
    induction ms with
    | nil =>
        intro d hd
        rw [← Option.some.inj hd]
        rfl
    | cons m ms ih =>
        intro d hd
        rw [List.foldlM_cons] at hd
        obtain ⟨e, he, hrest⟩ := Option.bind_eq_some_iff.mp hd
        rw [ih e hrest, List.foldl_cons]
        congr 1
        rcases parseClientNode_cases he with ⟨hname, hid, _⟩ | ⟨_, _, hid⟩
        · rw [hid, if_neg (by rw [hname]; decide)]
        · exact hid
  exact hfold n.children (clientNew addr) h

/-- The clients are read with their ids, last one first. -/
theorem readClients_ids (h : readClients addr lost ns = some l) :
    l.map Client.id = (ns.map XmlNode.clientId).reverse ++ lost.map Client.id := by
  induction ns generalizing addr lost with
  | nil =>
      rw [← Option.some.inj h]
      rfl
  | cons n ns ih =>
      rw [readClients] at h
      split at h
      · exact absurd h (by simp)
      · next c hc =>
          rw [ih h, List.map_cons, List.map_cons, clientParseXml_id hc, List.reverse_cons,
            List.append_assoc]
          rfl

/-- The dependencies of the clients that are read contain no cycle through two clients. -/
theorem readClients_acyclic (h : readClients addr lost ns = some l)
    (hfirst : ∀ n ∈ ns, n.IdFirst) (hids : (l.map Client.id).Nodup)
    (hlost : Acyclic (DependsIn lost)) (hnodup : ∀ c ∈ lost, c.dependencies.Nodup) :
    Acyclic (DependsIn l) ∧ ∀ c ∈ l, c.dependencies.Nodup := by
  induction ns generalizing addr lost with
  | nil =>
      rw [← Option.some.inj h]
      exact ⟨hlost, hnodup⟩
  | cons n ns ih =>
      rw [readClients] at h
      split at h
      · exact absurd h (by simp)
      · next c hc =>
          have hsound := clientParseXml_sound (hfirst n (by simp)) hc
          have hdist : ((c :: lost).map Client.id).Nodup := by
            rw [readClients_ids h] at hids
            exact (List.nodup_append.mp hids).2.1
          have hlostids : (lost.map Client.id).Nodup := (List.nodup_cons.mp hdist).2
          refine ih h (fun m hm => hfirst m (List.mem_cons_of_mem _ hm)) ?_ ?_
          · have hins : Acyclic (Insert (DependsIn lost) c.id (· ∈ c.dependencies)) := by
              apply hlost.insert
              intro d hd _ hpath
              refine hsound.forth d hd (Relation.TransGen.mono ?_ _ _ hpath)
              exact fun x y hxy => (dependsIn_iff_depsIn hlostids x y).mp hxy
            refine hins.mono ?_
            rintro x y ⟨e, he, rfl, hy⟩
            rcases List.mem_cons.mp he with rfl | he
            · exact Or.inr ⟨rfl, hy⟩
            · exact Or.inl ⟨e, he, rfl, hy⟩
          · intro e he
            rcases List.mem_cons.mp he with rfl | he
            · exact hsound.nodup
            · exact hnodup e he

/-- The clients of a project that was loaded from a file as the daemon writes them. -/
theorem Project.DocOk.clients {p : Project} (hp : p.DocOk)
    (h : readClients addr [] p.clientNodes = some l) :
    (l.map Client.id).Nodup ∧ Acyclic (DependsIn l) ∧ ∀ c ∈ l, c.dependencies.Nodup := by
  have hids : (l.map Client.id).Nodup := by
    rw [readClients_ids h, List.map_nil, List.append_nil, List.nodup_reverse]
    exact hp.distinct
  refine ⟨hids, readClients_acyclic h hp.idFirst hids ?_ (by simp)⟩
  rintro x y _ hxy
  obtain ⟨z, ⟨c, hc, _⟩, _⟩ := Relation.TransGen.head'_iff.mp hxy
  exact absurd hc (by simp)

end

end Lash
