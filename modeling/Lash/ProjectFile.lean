import Lash.Text
import Lash.Document
import Lash.Frames
import Mathlib.Algebra.Order.BigOperators.Group.Multiset

/-!
# A project is written and read back

`Project.record` is what a project has to say about itself and its clients, with the clients in no
particular order. What a reader of its files makes of it is `ProjectRecord.read`: every string goes
through `xmlText`. So the project comes back as it was if and only if no string of it has an `&` in
it, as long as its notes can be written, which empty notes cannot
(`project_comes_back`).
-/

namespace Lash

open Search

/-! ## What is written -/

/-- What a project file says about a client. A NULL string is written as an empty one. -/
structure ClientRecord where
  cls : CStr
  id : Uuid
  name : CStr
  flags : Flags
  workingDir : CStr
  argv : List CStr
  dependencies : Finset Uuid
  deriving DecidableEq

def Client.record (c : Client) : ClientRecord where
  cls := c.cls.getD []
  id := c.id
  name := c.name.getD []
  flags := c.flags
  workingDir := c.workingDir.getD []
  argv := c.argv.getD []
  dependencies := c.dependencies.toFinset

/-- The record as a reader of the file sees it. -/
def ClientRecord.read (r : ClientRecord) : ClientRecord :=
  { r with
    cls := xmlText r.cls
    name := xmlText r.name
    workingDir := xmlText r.workingDir
    argv := r.argv.map xmlText }

def ClientRecord.strings (r : ClientRecord) : List CStr := r.cls :: r.name :: r.workingDir :: r.argv

theorem ClientRecord.strings_read (r : ClientRecord) : r.read.strings = r.strings.map xmlText := rfl

/-! ## One client -/

section

variable {c d : Client} {lost : List Client} {addr : Addr}

/-- The client that is read from the children of a `<client>` element in front of its
dependencies. -/
def Client.readBack (c : Client) (addr : Addr) : Client :=
  { clientNew addr with
    cls := some (xmlText (c.cls.getD []))
    id := c.id
    idStr := c.idStr
    name := some (xmlText (c.name.getD []))
    flags := c.flags
    workingDir := some (xmlText (c.workingDir.getD []))
    argv := addArgs none ((c.argv.getD []).map xmlText) }

theorem xmlText_plain {s : CStr} (h : ampersand ∉ s) : xmlText s = s := xmlText_eq_self.mpr h

theorem parseClientNode_class (lost : List Client) (d : Client) (s : Option CStr) :
    parseClientNode lost d (.newChild "class" s) =
      some { d with cls := some (xmlText (s.getD [])) } := by
  rw [parseClientNode, if_pos (XmlNode.name_newChild _ _), XmlNode.getContent_newChild]

theorem parseClientNode_id (lost : List Client) (d : Client) (id : Uuid) :
    parseClientNode lost d (.newChild "id" (some (uuidUnparse id)))
      = some { d with id := id, idStr := uuidUnparse id } := by
  have hname := XmlNode.name_newChild "id" (some (uuidUnparse id))
  rw [parseClientNode, if_neg (by rw [hname]; decide), if_pos hname, XmlNode.getContent_newChild,
    Option.getD_some, xmlText_plain (ampersand_not_mem_uuidUnparse id), uuidParse_uuidUnparse]
  rfl

theorem parseClientNode_name (lost : List Client) (d : Client) (s : Option CStr) :
    parseClientNode lost d (.newChild "name" s) =
      some { d with name := some (xmlText (s.getD [])) } := by
  have hname := XmlNode.name_newChild "name" s
  rw [parseClientNode, if_neg (by rw [hname]; decide), if_neg (by rw [hname]; decide), if_pos hname,
    XmlNode.getContent_newChild]

theorem parseClientNode_flags (lost : List Client) (d : Client) (f : Flags) :
    parseClientNode lost d (.newChild "flags" (some (decimalInt f.toInt)))
      = some { d with flags := f } := by
  have hname := XmlNode.name_newChild "flags" (some (decimalInt f.toInt))
  rw [parseClientNode, if_neg (by rw [hname]; decide), if_neg (by rw [hname]; decide),
    if_neg (by rw [hname]; decide), if_pos hname, XmlNode.getContent_newChild, Option.getD_some,
    xmlText_plain (ampersand_not_mem_decimalInt _), parseFlags_decimalInt]

theorem parseClientNode_workingDir (lost : List Client) (d : Client) (s : Option CStr) :
    parseClientNode lost d (.newChild "working_directory" s)
      = some { d with workingDir := some (xmlText (s.getD [])) } := by
  have hname := XmlNode.name_newChild "working_directory" s
  rw [parseClientNode, if_neg (by rw [hname]; decide), if_neg (by rw [hname]; decide),
    if_neg (by rw [hname]; decide), if_neg (by rw [hname]; decide), if_pos hname,
    XmlNode.getContent_newChild]

/-- The children that `xmlNewChild` made under one name. -/
theorem childrenNamed_newChild {β : Type} (n m : String) (f : β → CStr) (l : List β) :
    childrenNamed (.element (cstr n) (l.map (fun b => .newChild m (some (f b))))) m
      = l.map (fun b => .newChild m (some (f b))) := by
  rw [childrenNamed, XmlNode.children, List.filter_eq_self]
  intro x hx
  obtain ⟨b, _, rfl⟩ := List.mem_map.mp hx
  exact decide_eq_true (XmlNode.name_newChild m _)

theorem parseClientNode_argv (lost : List Client) (d : Client) (args : List CStr) :
    parseClientNode lost d
        (.element (cstr "arg_set") (args.map (fun a => .newChild "arg" (some a))))
      = some { d with argv := addArgs d.argv (args.map xmlText) } := by
  rw [parseClientNode, if_neg (by rw [XmlNode.name]; decide), if_neg (by rw [XmlNode.name]; decide),
    if_neg (by rw [XmlNode.name]; decide), if_neg (by rw [XmlNode.name]; decide),
    if_neg (by rw [XmlNode.name]; decide), if_pos (by rw [XmlNode.name]),
    childrenNamed_newChild "arg_set" "arg" (fun a => a) args, List.map_map]
  rfl

/-- Dependencies are taken back one by one as long as none of them leads to the client itself. -/
theorem foldlM_parseDependency {ds : List Uuid}
    (h : ∀ x ∈ ds, clientDependencyFindCircular lost d.id (lost.length + 1) x = some false) :
    ∃ deps, (ds.map (fun x => .newChild "id" (some (uuidUnparse x)))).foldlM
          (parseDependency lost) d
        = some { d with dependencies := deps } ∧
      deps.toFinset = d.dependencies.toFinset ∪ ds.toFinset := by
  induction ds generalizing d with
  | nil => exact ⟨d.dependencies, rfl, by simp⟩
  | cons x ds ih =>
      have hx := h x (by simp)
      have hrest : ∀ y ∈ ds, clientDependencyFindCircular lost d.id (lost.length + 1) y
          = some false := fun y hy => h y (List.mem_cons_of_mem _ hy)
      have hparse : parseDependency lost d (.newChild "id" (some (uuidUnparse x)))
          = clientDependencyAdd lost d x := by
        rw [parseDependency, XmlNode.getContent_newChild, Option.getD_some,
          xmlText_plain (ampersand_not_mem_uuidUnparse x), uuidParse_uuidUnparse]
      rw [List.map_cons, List.foldlM_cons, hparse, clientDependencyAdd]
      split
      · next hmem =>
          obtain ⟨deps, hfold, hdeps⟩ := ih hrest
          refine ⟨deps, hfold, ?_⟩
          rw [hdeps]
          ext y
          simp only [List.toFinset_cons, Finset.mem_union, Finset.mem_insert, List.mem_toFinset]
          constructor
          · tauto
          · rintro (hy | rfl | hy)
            · exact Or.inl hy
            · exact Or.inl hmem
            · exact Or.inr hy
      · rw [hx]
        have := ih (d := { d with dependencies := x :: d.dependencies }) hrest
        obtain ⟨deps, hfold, hdeps⟩ := this
        refine ⟨deps, hfold, ?_⟩
        rw [hdeps]
        ext y
        simp only [List.toFinset_cons, Finset.mem_union, Finset.mem_insert, List.mem_toFinset]
        tauto

/-- **A client is read back** from the element that was written for it. -/
theorem clientParseXml_clientXml (hid : c.idStr = uuidUnparse c.id)
    (h : ∀ x ∈ c.dependencies,
      clientDependencyFindCircular lost c.id (lost.length + 1) x = some false) :
    ∃ d, clientParseXml lost (clientNew addr) (clientXml c) = some d ∧
      d.record = c.record.read := by
  have hfront : ([.newChild "class" c.cls, .newChild "id" (some c.idStr), .newChild "name" c.name,
      .newChild "flags" (some (decimalInt c.flags.toInt)),
      .newChild "working_directory" c.workingDir,
      .element (cstr "arg_set") ((c.argv.getD []).map (fun a => .newChild "arg" (some a)))] :
        List XmlNode).foldlM (parseClientNode lost) (clientNew addr) =
      some (c.readBack addr) := by
    rw [hid]
    simp only [List.foldlM_cons, List.foldlM_nil, parseClientNode_class, parseClientNode_id,
      parseClientNode_name, parseClientNode_flags, parseClientNode_workingDir, parseClientNode_argv,
      Option.bind_eq_bind, Option.bind_some]
    simp [Client.readBack, clientNew, hid]
  rw [clientParseXml, clientXml, XmlNode.children, List.foldlM_append, hfront, Option.bind_eq_bind,
    Option.bind_some]
  split
  · next hnil =>
      refine ⟨_, rfl, ?_⟩
      simp [Client.record, ClientRecord.read, Client.readBack, clientNew, hnil, addArgs_getD]
  · obtain ⟨deps, hfold, hdeps⟩ := foldlM_parseDependency (d := c.readBack addr) h
    refine ⟨{ c.readBack addr with dependencies := deps }, ?_, ?_⟩
    · have hdependencies : parseClientNode lost (c.readBack addr)
          (projectCreateClientDependenciesXml c)
          = some { c.readBack addr with dependencies := deps } := by
        rw [projectCreateClientDependenciesXml, parseClientNode,
          if_neg (by rw [XmlNode.name]; decide), if_neg (by rw [XmlNode.name]; decide),
          if_neg (by rw [XmlNode.name]; decide), if_neg (by rw [XmlNode.name]; decide),
          if_neg (by rw [XmlNode.name]; decide), if_neg (by rw [XmlNode.name]; decide),
          if_pos (by rw [XmlNode.name]), childrenNamed_newChild "dependencies" "id" uuidUnparse,
          hfold]
      rw [List.foldlM_cons, hdependencies]
      rfl
    · have hset : deps.toFinset = c.dependencies.toFinset := by
        rw [hdeps]
        simp [Client.readBack, clientNew]
      simp [Client.record, ClientRecord.read, Client.readBack, hset, addArgs_getD]

end

/-! ## All clients -/

section

variable {r : Uuid → Uuid → Prop} {lost : List Client} {addr : Addr}

theorem dependsIn_of_depsIn {x y : Uuid} (h : y ∈ depsIn lost x) : DependsIn lost x y := by
  unfold depsIn at h
  split at h
  · exact absurd h (by simp)
  · next c hc =>
      refine ⟨c, List.mem_of_find?_eq_some hc, ?_, h⟩
      simpa using List.find?_some hc

/-- As long as no client depends on itself by way of others no dependency is refused, and the search
comes to an end. -/
theorem findCircular_eq_false (hacyclic : ∀ x, ¬ Relation.TransGen r x x)
    (hlost : ∀ x y, DependsIn lost x y → r x y) {orig x : Uuid} (hx : r orig x) :
    clientDependencyFindCircular lost orig (lost.length + 1) x = some false := by
  have hmono : ∀ {y z}, Relation.TransGen (fun a b => b ∈ depsIn lost a) y z →
      Relation.TransGen r y z :=
    fun h => Relation.TransGen.mono (fun a b hab => hlost a b (dependsIn_of_depsIn hab)) _ _ h
  rw [clientDependencyFindCircular_eq_search]
  have hcard : (lost.map Client.id).toFinset.card < lost.length + 1 := by
    have h := (lost.map Client.id).toFinset_card_le
    rw [List.length_map] at h
    omega
  have hends : search (depsIn lost) orig (lost.length + 1) x ≠ none := by
    refine search_ne_none (fun y hy => hacyclic y (hmono hy)) hcard ?_
    intro y _ hy
    obtain ⟨z, hz⟩ := List.exists_mem_of_ne_nil _ hy
    obtain ⟨c, hc, hid, _⟩ := dependsIn_of_depsIn hz
    exact List.mem_toFinset.mpr (List.mem_map.mpr ⟨c, hc, hid⟩)
  cases hs : search (depsIn lost) orig (lost.length + 1) x with
  | none => exact absurd hs hends
  | some b =>
      cases b with
      | false => rfl
      | true => exact absurd (Relation.TransGen.head hx (hmono (search_true hs))) (hacyclic orig)

/-- **The clients are read back**, last one first. -/
theorem readClients_clientXml {cs : List Client} (hacyclic : ∀ x, ¬ Relation.TransGen r x x)
    (hids : ∀ c ∈ cs, c.idStr = uuidUnparse c.id) (hcs : ∀ c ∈ cs, ∀ x ∈ c.dependencies, r c.id x)
    (hlost : ∀ x y, DependsIn lost x y → r x y) :
    ∃ l, readClients addr lost (cs.map clientXml) = some l ∧
      l.map Client.record =
        (cs.map (fun c => c.record.read)).reverse ++ lost.map Client.record := by
  induction cs generalizing addr lost with
  | nil => exact ⟨lost, rfl, rfl⟩
  | cons c cs ih =>
      obtain ⟨d, hd, hrecord⟩ := @clientParseXml_clientXml c lost addr (hids c (by simp))
        (fun x hx => findCircular_eq_false hacyclic hlost (hcs c (by simp) x hx))
      have hid : d.id = c.id := congrArg ClientRecord.id hrecord
      have hdeps : d.dependencies.toFinset = c.dependencies.toFinset :=
        congrArg ClientRecord.dependencies hrecord
      have hmem : ∀ x, x ∈ d.dependencies → x ∈ c.dependencies := by
        intro x hx
        have h := List.mem_toFinset.mpr hx
        rw [hdeps] at h
        exact List.mem_toFinset.mp h
      have hlost' : ∀ x y, DependsIn (d :: lost) x y → r x y := by
        rintro x y ⟨e, he, rfl, hy⟩
        rcases List.mem_cons.mp he with rfl | he
        · rw [hid]
          exact hcs c (by simp) y (hmem y hy)
        · exact hlost _ _ ⟨e, he, rfl, hy⟩
      obtain ⟨l, hl, hrecords⟩ := @ih (d :: lost) (addr + 1)
        (fun e he => hids e (List.mem_cons_of_mem _ he))
        (fun e he => hcs e (List.mem_cons_of_mem _ he)) hlost'
      refine ⟨l, ?_, ?_⟩
      · rw [List.map_cons, readClients, hd]
        exact hl
      · rw [hrecords, List.map_cons, hrecord]
        simp

end

/-! ## The project -/

/-- What the files of a project say, with these clients. -/
structure ProjectRecord where
  name : CStr
  description : CStr
  notes : Option CStr
  clients : Multiset ClientRecord

def Project.record (p : Project) (clients : List Client) : ProjectRecord where
  name := p.name
  description := p.description.getD []
  notes := p.notes
  clients := clients.map Client.record

/-- The record as a reader of the files sees it. -/
def ProjectRecord.read (r : ProjectRecord) : ProjectRecord :=
  { r with
    name := xmlText r.name
    description := xmlText r.description
    clients := r.clients.map ClientRecord.read }

/-- The strings of a project that go into its info file. -/
def ProjectRecord.strings (r : ProjectRecord) : Multiset CStr :=
  r.name ::ₘ r.description ::ₘ r.clients.bind (fun c => c.strings)

theorem ProjectRecord.strings_read (r : ProjectRecord) :
    r.read.strings = r.strings.map xmlText := by
  simp only [strings, read, Multiset.map_cons, Multiset.map_bind, Multiset.bind_map,
    ClientRecord.strings_read, Multiset.map_coe]

/-- Strings that are the same as a whole after they were read have no references in them: together
they would have become shorter. -/
theorem plain_of_map_xmlText {strings : Multiset CStr} (h : strings.map xmlText = strings) :
    ∀ s ∈ strings, ampersand ∉ s := by
  intro s hs hamp
  have hlt : (strings.map (fun s => (xmlText s).length)).sum
      < (strings.map (fun s => s.length)).sum :=
    Multiset.sum_lt_sum (fun s _ => xmlText_length_le s) ⟨s, hs, xmlText_length_lt hamp⟩
  have heq : (strings.map (fun s => (xmlText s).length)).sum
      = (strings.map (fun s => s.length)).sum := by
    conv_rhs => rw [← h, Multiset.map_map]
    rfl
  omega

/-- **A record is read as it was written** if and only if there is no `&` in its strings. -/
theorem ProjectRecord.read_eq_self {r : ProjectRecord} :
    r.read = r ↔ ∀ s ∈ r.strings, ampersand ∉ s := by
  constructor
  · intro h
    apply plain_of_map_xmlText
    rw [← r.strings_read, h]
  · intro h
    have hclient : ∀ c ∈ r.clients, c.read = c := by
      intro c hc
      have hs : ∀ s ∈ c.strings, xmlText s = s := by
        intro s hs
        apply xmlText_plain
        refine h s (Multiset.mem_cons_of_mem (Multiset.mem_cons_of_mem ?_))
        exact Multiset.mem_bind.mpr ⟨c, hc, hs⟩
      simp only [ClientRecord.strings, List.mem_cons, forall_eq_or_imp] at hs
      obtain ⟨hcls, hname, hdir, hargs⟩ := hs
      rw [ClientRecord.read, hcls, hname, hdir, List.map_congr_left hargs, List.map_id']
    have hname : xmlText r.name = r.name := xmlText_plain (h _ (Multiset.mem_cons_self _ _))
    have hdescription : xmlText r.description = r.description :=
      xmlText_plain (h _ (Multiset.mem_cons_of_mem (Multiset.mem_cons_self _ _)))
    rw [read, hname, hdescription, Multiset.map_congr rfl hclient, Multiset.map_id']

/-! ## Reading the document -/

section

variable {s t : Session} {p : Project}

theorem foldlM_loadNode_clients {cs l : List Client}
    (h : readClients s.g.nextAddr s.p.lostClients (cs.map clientXml) = some l) :
    ∃ t, (cs.map clientXml).foldlM loadNode s = some t ∧ t.p = { s.p with lostClients := l } ∧
      t.g.fs = s.g.fs := by
  induction cs generalizing s with
  | nil =>
      rw [← Option.some.inj h]
      exact ⟨s, rfl, rfl, rfl⟩
  | cons c cs ih =>
      have hname : (clientXml c).name = cstr "client" := by rw [clientXml, XmlNode.name]
      rw [List.map_cons, readClients] at h
      split at h
      · exact absurd h (by simp)
      · next d hd =>
          rw [List.map_cons, List.foldlM_cons, loadNode, if_neg (by rw [hname]; decide),
            if_pos hname, hd]
          exact ih (s := { g := { s.g with nextAddr := s.g.nextAddr + 1 }
                           p := { s.p with lostClients := d :: s.p.lostClients } }) h

/-- The children of the root of a project document. -/
def Project.xmlNodes (p : Project) : List XmlNode :=
  [.newChild "version" (some (cstr "1.0")), .newChild "name" (some p.name),
    .newChild "description" p.description] ++ p.clients.map clientXml

theorem rootNode_projectCreateXml (p : Project) :
    rootNode (projectCreateXml p) = some (.element (cstr "lash_project") p.xmlNodes) :=
  List.find?_cons_of_pos (by simp [XmlNode.isElement, XmlNode.name])

/-- The name and the description in a project document. -/
theorem foldl_headerNode (p q : Project) :
    p.xmlNodes.foldl headerNode q
      = { q with
          name := xmlText p.name, description := some (xmlText (p.description.getD [])) } := by
  have hclients : ∀ (cs : List Client) (q : Project),
      (cs.map clientXml).foldl headerNode q = q := by
    intro cs
    induction cs with
    | nil => exact fun _ => rfl
    | cons c cs ih =>
        intro q
        have hname : (clientXml c).name = cstr "client" := by rw [clientXml, XmlNode.name]
        rw [List.map_cons, List.foldl_cons, headerNode, if_neg (by rw [hname]; decide),
          if_neg (by rw [hname]; decide), ih]
  have hversion : ∀ q : Project, headerNode q (.newChild "version" (some (cstr "1.0"))) = q := by
    intro q
    have hname := XmlNode.name_newChild "version" (some (cstr "1.0"))
    rw [headerNode, if_neg (by rw [hname]; decide), if_neg (by rw [hname]; decide)]
  have hname : ∀ q : Project, headerNode q (.newChild "name" (some p.name))
      = { q with name := xmlText p.name } := by
    intro q
    rw [headerNode, if_pos (XmlNode.name_newChild _ _), XmlNode.getContent_newChild]
    rfl
  have hdescription : ∀ q : Project, headerNode q (.newChild "description" p.description)
      = { q with description := some (xmlText (p.description.getD [])) } := by
    intro q
    have hname := XmlNode.name_newChild "description" p.description
    rw [headerNode, if_neg (by rw [hname]; decide), if_pos hname, XmlNode.getContent_newChild]
  rw [Project.xmlNodes, List.foldl_append, List.foldl_cons, List.foldl_cons, List.foldl_cons,
    List.foldl_nil, hversion, hname, hdescription, hclients]

/-- `project_load` on the document of a project: its name and its clients are taken over. -/
theorem foldlM_loadNode_root {l : List Client}
    (h : readClients s.g.nextAddr s.p.lostClients (p.clients.map clientXml) = some l) :
    ∃ t, p.xmlNodes.foldlM loadNode s = some t ∧
      t.p = { s.p with name := xmlText p.name, lostClients := l } ∧ t.g.fs = s.g.fs := by
  have hversion : loadNode s (.newChild "version" (some (cstr "1.0"))) = some s := by
    have hname := XmlNode.name_newChild "version" (some (cstr "1.0"))
    rw [loadNode, if_neg (by rw [hname]; decide), if_neg (by rw [hname]; decide)]
  have hname : loadNode s (.newChild "name" (some p.name))
      = some { s with p := { s.p with name := xmlText p.name } } := by
    rw [loadNode, if_pos (XmlNode.name_newChild _ _), XmlNode.getContent_newChild]
    rfl
  have hdescription : ∀ u : Session,
      loadNode u (.newChild "description" p.description) = some u := by
    intro u
    have hname := XmlNode.name_newChild "description" p.description
    rw [loadNode, if_neg (by rw [hname]; decide), if_neg (by rw [hname]; decide)]
  obtain ⟨t, hfold, hp, hfs⟩ := foldlM_loadNode_clients
    (s := { s with p := { s.p with name := xmlText p.name } }) h
  refine ⟨t, ?_, hp, hfs⟩
  rw [Project.xmlNodes, List.foldlM_append, List.foldlM_cons, hversion, Option.bind_eq_bind,
    Option.bind_some, List.foldlM_cons, hname, Option.bind_eq_bind, Option.bind_some,
    List.foldlM_cons, hdescription, Option.bind_eq_bind, Option.bind_some, List.foldlM_nil]
  exact hfold

/-! ## Writing and reading the files -/

/-- Notes are written wherever the file can be created, unless they are empty. -/
theorem projectSaveNotes_ok (h : s.g.fs.Honest) :
    (projectSaveNotes s).1 = true ↔
      s.g.fs.reaches (lashGetFqn s.p.directory projectNotesFile) = true ∧
        s.g.fs.isDir (resolve (lashGetFqn s.p.directory projectNotesFile)) = false ∧
          s.p.notes ≠ some [] := by
  unfold projectSaveNotes
  dsimp only
  generalize lashGetFqn s.p.directory projectNotesFile = f
  by_cases hcan : s.g.fs.reaches f = true ∧ s.g.fs.isDir (resolve f) = false
  · have hcreat : s.g.fs.creat f = (true, s.g.fs.next.put (resolve f) (.file [])) :=
      if_pos ⟨hcan.1, by simp [hcan.2], h.fault⟩
    have hhonest : (s.g.fs.next.put (resolve f) (.file [])).Honest := h.next
    rw [hcreat]
    cases hnotes : s.p.notes with
    | none => simp [hcan]
    | some notes =>
        by_cases hnil : notes = []
        · simp [hnil]
        · simp [hnil, hcan, (hhonest.write f notes).1]
  · have hcreat : s.g.fs.creat f = (false, s.g.fs.next) :=
      if_neg fun hc => hcan ⟨hc.1, by simpa using hc.2.1⟩
    rw [hcreat]
    constructor
    · intro hfalse
      simp at hfalse
    · exact fun hall => absurd ⟨hall.1, hall.2.1⟩ hcan

/-- The notes on the disk are those that were written. -/
theorem lashReadTextFile_saveNotes {fs : Fs} {dir : CStr} {notes : Option CStr} (h : fs.Honest)
    (hreach : fs.reaches (lashGetFqn dir projectNotesFile) = true)
    (hfile : fs.isDir (resolve (lashGetFqn dir projectNotesFile)) = false)
    (hnotes : notes ≠ some []) (hnul : 0 ∉ notes.getD []) :
    (saveNotes fs dir notes).lashReadTextFile (lashGetFqn dir projectNotesFile) = some notes := by
  have hok := (h.writeFile (lashGetFqn dir projectNotesFile)
    (notes.toList.filter (· ≠ []))).1.mpr ⟨hreach, hfile⟩
  have hread := (fs.writeFile_spec (lashGetFqn dir projectNotesFile)
    (notes.toList.filter (· ≠ []))).2 hok
  rw [Fs.lashReadTextFile, saveNotes_eq, hread, Option.map_some]
  cases notes with
  | none => rfl
  | some notes =>
      have hne : notes ≠ [] := fun he => hnotes (congrArg some he)
      have htake : notes.takeWhile (· ≠ 0) = notes := by
        refine List.takeWhile_eq_self_iff.mpr (fun b hb => ?_)
        have hb0 : b ≠ 0 := fun he => hnul (he ▸ hb)
        exact decide_eq_true hb0
      have hflat : ((some notes).toList.filter (· ≠ [])).flatten = notes := by
        rw [Option.toList_some, List.filter_cons_of_pos (by simpa using hne)]
        simp
      rw [hflat, if_neg hne, htake]

theorem projectInfoFile_plain : PlainName projectInfoFile := by decide

theorem projectNotesFile_plain : PlainName projectNotesFile := by decide

/-- A project whose two files can be written. -/
structure Session.CanWrite (s : Session) : Prop where
  dir : s.g.fs.lashDirExists s.p.directory = true
  info : s.g.fs.isDir (resolve (lashGetFqn s.p.directory projectInfoFile)) = false
  notes : s.g.fs.isDir (resolve (lashGetFqn s.p.directory projectNotesFile)) = false

theorem reaches_of_lashDirExists {fs : Fs} {dir f : CStr} (h : fs.lashDirExists dir = true)
    (hf : slash ∉ f) : fs.reaches (lashGetFqn dir f) = true := by
  rw [Fs.reaches_fqn fs dir hf]
  exact h

/-- **The info file is written**, and nothing else. -/
theorem projectWriteInfo_eq (h : s.g.fs.Honest) (hw : s.CanWrite) :
    ∃ fs, projectWriteInfo s = (true, ({ s with
        p := { s.p with doc := some (projectCreateXml s.p) } }.setFs fs).emit
          (.infoWritten s.p.addr)) ∧
      fs.Honest ∧ s.g.fs.Writes fs (· = resolve (lashGetFqn s.p.directory projectInfoFile)) ∧
        fs.xmlParseFile (lashGetFqn s.p.directory projectInfoFile) =
          some (projectCreateXml s.p) := by
  have hreach := reaches_of_lashDirExists hw.dir projectInfoFile_plain.2.1
  have hwrites := s.g.fs.xmlSaveFile_writes (lashGetFqn s.p.directory projectInfoFile)
    (projectCreateXml s.p)
  have hsave : s.g.fs.xmlSaveFile (lashGetFqn s.p.directory projectInfoFile) (projectCreateXml s.p)
      = (true, s.g.fs.next.put (resolve (lashGetFqn s.p.directory projectInfoFile))
          (.xml (projectCreateXml s.p))) := by
    rw [Fs.xmlSaveFile, if_pos ⟨hreach, by simp [hw.info]⟩, h.fault]
  rw [hsave] at hwrites
  refine ⟨s.g.fs.next.put (resolve (lashGetFqn s.p.directory projectInfoFile))
    (.xml (projectCreateXml s.p)), ?_, h.next, hwrites, ?_⟩
  · rw [projectWriteInfo, hsave]
    rfl
  · have hne : resolve (lashGetFqn s.p.directory projectInfoFile) ≠ [] := by
      rw [resolve_fqn _ projectInfoFile_plain]
      simp
    rw [Fs.xmlParseFile, Fs.lookup, hwrites.reaches, if_pos hreach, Fs.get_put_self _ _ hne]

/-- Write the files of a project and read them again, as a project with another address. -/
def roundTrip (s : Session) (addr : Addr) (parentDir projectDir : CStr) : Option ProjectRecord :=
  let (ok, s) := projectWriteInfo s
  if ¬ ok then none
  else
    let (ok, s) := projectSaveNotes s
    if ¬ ok then none
    else
      match projectNewFromDisk s.g.fs addr parentDir projectDir with
      | none => none
      | some p =>
        match projectLoad { s with p := p } with
        | some (true, t) => some (t.p.record t.p.lostClients)
        | _ => none

/-- What was written is found, with every string read. -/
theorem projectLoad_projectNewFromDisk {r : Uuid → Uuid → Prop} {fs : Fs} {addr : Addr}
    {parentDir projectDir : CStr} (hdir : p.directory = lashGetFqn parentDir projectDir)
    (hexists : fs.lashDirExists p.directory = true)
    (hxml : fs.xmlParseFile (lashGetFqn p.directory projectInfoFile) = some (projectCreateXml p))
    (hnotes : fs.lashReadTextFile (lashGetFqn p.directory projectNotesFile) = some p.notes)
    (hids : ∀ c ∈ p.clients, c.idStr = uuidUnparse c.id)
    (hdeps : ∀ c ∈ p.clients, ∀ x ∈ c.dependencies, r c.id x)
    (hacyclic : ∀ x, ¬ Relation.TransGen r x x) (g : Globals) (hfs : g.fs = fs) :
    ∃ q t, projectNewFromDisk fs addr parentDir projectDir = some q ∧
      projectLoad { g := g, p := q } = some (true, t) ∧
        t.p.record t.p.lostClients = (p.record p.clients).read := by
  have hdirLookup : fs.lashFileExists p.directory = true := by
    obtain ⟨hreach, hisDir⟩ := Bool.and_eq_true_iff.mp hexists
    rw [Fs.lashFileExists, Fs.lookup, if_pos hreach]
    cases hget : fs.get (resolve p.directory) with
    | none => simp [Fs.isDir, hget] at hisDir
    | some n => rfl
  have hinfoLookup : fs.lashFileExists (lashGetFqn p.directory projectInfoFile) = true := by
    unfold Fs.xmlParseFile at hxml
    split at hxml
    · next hlookup => rw [Fs.lashFileExists, hlookup]; rfl
    · exact absurd hxml (by simp)
  let q : Project :=
    { projectNew addr with
      name := xmlText p.name
      description := some (xmlText (p.description.getD []))
      directory := p.directory
      doc := some (projectCreateXml p) }
  have hq : projectNewFromDisk fs addr parentDir projectDir = some q := by
    rw [projectNewFromDisk]
    dsimp only
    rw [← hdir, if_neg (by simpa using hdirLookup), if_neg (by simpa using hinfoLookup), hxml]
    dsimp only
    rw [rootNode_projectCreateXml]
    dsimp only
    rw [XmlNode.children, foldl_headerNode]
  obtain ⟨l, hl, hrecords⟩ := @readClients_clientXml r [] g.nextAddr p.clients hacyclic hids hdeps
    (by rintro x y ⟨c, hc, _⟩; exact absurd hc (by simp))
  obtain ⟨t, ht, htp, htfs⟩ := @foldlM_loadNode_root { g := g, p := q } p l hl
  have hload : projectLoadNotes t = { t with p := { t.p with notes := p.notes } } := by
    rw [projectLoadNotes, htfs, htp]
    dsimp only
    rw [hfs, hnotes]
  refine ⟨q, { t with p := { t.p with notes := p.notes, modifiedStatus := false } }, hq, ?_, ?_⟩
  · rw [projectLoad]
    dsimp only [q]
    rw [rootNode_projectCreateXml]
    dsimp only
    rw [XmlNode.children, ht]
    dsimp only
    rw [hload]
  · rw [htp]
    simp only [Project.record, ProjectRecord.read, q, hrecords, Option.getD_some, List.map_nil,
      List.append_nil, Multiset.map_coe, List.map_map]
    congr 1
    exact Multiset.coe_eq_coe.mpr (List.reverse_perm _)

/-- The hypotheses under which the files of a project are written: they can be, every operation of
the disk succeeds, and the project is one that the daemon can have in memory. -/
structure Session.Writable (s : Session) : Prop where
  honest : s.g.fs.Honest
  can : s.CanWrite
  nul : 0 ∉ s.p.notes.getD []
  ids : ∀ c ∈ s.p.clients, c.idStr = uuidUnparse c.id
  acyclic : ∀ x, ¬ Relation.TransGen (DependsIn s.p.clients) x x

/-- Empty notes are not written. -/
theorem roundTrip_empty_notes (hw : s.Writable) (hnotes : s.p.notes = some []) (addr : Addr)
    (parentDir projectDir : CStr) : roundTrip s addr parentDir projectDir = none := by
  obtain ⟨fs, hinfo, hhonest, -, -⟩ := projectWriteInfo_eq hw.honest hw.can
  rw [roundTrip, hinfo]
  dsimp only
  generalize hu : (({ s with
    p := { s.p with doc := some (projectCreateXml s.p) } } : Session).setFs fs).emit
      (.infoWritten s.p.addr) = u
  have huhonest : u.g.fs.Honest := by
    rw [← hu]
    exact hhonest
  have hunotes : u.p.notes = some [] := by
    rw [← hu]
    exact hnotes
  have hfails : (projectSaveNotes u).1 = false := by
    rw [← Bool.not_eq_true, projectSaveNotes_ok huhonest]
    exact fun h => h.2.2 hunotes
  obtain ⟨v, hsave⟩ : ∃ v, projectSaveNotes u = (false, v) := ⟨_, Prod.ext hfails rfl⟩
  rw [hsave]
  simp

/-- Other notes are, and the project is read with every string as `xmlText` makes it. -/
theorem roundTrip_eq (hw : s.Writable) (hnotes : s.p.notes ≠ some []) (addr : Addr)
    {parentDir projectDir : CStr} (hdir : s.p.directory = lashGetFqn parentDir projectDir) :
    roundTrip s addr parentDir projectDir = some (s.p.record s.p.clients).read := by
  obtain ⟨fs, hinfo, hhonest, hwrites, hxml⟩ := projectWriteInfo_eq hw.honest hw.can
  rw [roundTrip, hinfo]
  dsimp only
  generalize hu : (({ s with
    p := { s.p with doc := some (projectCreateXml s.p) } } : Session).setFs fs).emit
      (.infoWritten s.p.addr) = u
  have hufs : u.g.fs = fs := by rw [← hu]; rfl
  have hudir : u.p.directory = s.p.directory := by rw [← hu]; rfl
  have hunotes : u.p.notes = s.p.notes := by rw [← hu]; rfl
  have hreach : fs.reaches (lashGetFqn s.p.directory projectNotesFile) = true :=
    (hwrites.reaches _).trans (reaches_of_lashDirExists hw.can.dir projectNotesFile_plain.2.1)
  have hfile : fs.isDir (resolve (lashGetFqn s.p.directory projectNotesFile)) = false :=
    (hwrites.dirs _).trans hw.can.notes
  have hsaves : (projectSaveNotes u).1 = true := by
    rw [projectSaveNotes_ok (hufs ▸ hhonest), hufs, hudir, hunotes]
    exact ⟨hreach, hfile, hnotes⟩
  have hsave : projectSaveNotes u
      = (true, u.setFs (saveNotes fs s.p.directory s.p.notes)) := by
    rw [← hufs, ← hudir, ← hunotes]
    exact Prod.ext hsaves (projectSaveNotes_eq u)
  generalize hfs' : saveNotes fs s.p.directory s.p.notes = fs' at hsave
  have hnotesWrites : fs.Writes fs' (· = resolve (lashGetFqn s.p.directory projectNotesFile)) := by
    rw [← hfs', saveNotes_eq]
    exact (fs.writeFile_spec _ _).1
  -- the two files are different ones
  have hne : resolve (lashGetFqn s.p.directory projectInfoFile)
      ≠ resolve (lashGetFqn s.p.directory projectNotesFile) := by
    rw [resolve_fqn _ projectInfoFile_plain, resolve_fqn _ projectNotesFile_plain]
    intro h
    exact absurd (List.append_cancel_left h) (by decide)
  have hxml' : fs'.xmlParseFile (lashGetFqn s.p.directory projectInfoFile)
      = some (projectCreateXml s.p) := by
    rw [← hxml, Fs.xmlParseFile, Fs.xmlParseFile, Fs.lookup, Fs.lookup, hnotesWrites.reaches,
      hnotesWrites.frame _ hne]
  have hexists : fs'.lashDirExists s.p.directory = true :=
    (hnotesWrites.lashDirExists _).trans ((hwrites.lashDirExists _).trans hw.can.dir)
  have hread : fs'.lashReadTextFile (lashGetFqn s.p.directory projectNotesFile) =
      some s.p.notes := by
    rw [← hfs']
    exact lashReadTextFile_saveNotes hhonest hreach hfile hnotes hw.nul
  obtain ⟨q, t, hq, ht, hrecord⟩ := @projectLoad_projectNewFromDisk s.p (DependsIn s.p.clients) fs'
    addr parentDir projectDir hdir hexists hxml' hread hw.ids (fun c hc x hx => ⟨c, hc, rfl, hx⟩)
    hw.acyclic (u.setFs fs').g rfl
  rw [hsave]
  dsimp only
  rw [if_neg (by simp), if_neg (by simp)]
  change (match projectNewFromDisk fs' addr parentDir projectDir with
    | none => none
    | some p => _) = _
  rw [hq]
  dsimp only
  rw [ht]
  exact congrArg some hrecord

/-- **Project file round trip.** A project whose files can be written comes back as it was, with its
clients in some order, if and only if no string of its info file has an `&` in it and its notes are
not the empty string. -/
theorem project_comes_back (s : Session) (addr : Addr) (parentDir projectDir : CStr)
    (hw : s.Writable) (hdir : s.p.directory = lashGetFqn parentDir projectDir) :
    roundTrip s addr parentDir projectDir = some (s.p.record s.p.clients) ↔
      (∀ str ∈ (s.p.record s.p.clients).strings, ampersand ∉ str) ∧ s.p.notes ≠ some [] := by
  by_cases hnotes : s.p.notes = some []
  · rw [roundTrip_empty_notes hw hnotes]
    constructor
    · exact fun h => absurd h (by simp)
    · exact fun h => absurd hnotes h.2
  · rw [roundTrip_eq hw hnotes addr hdir, Option.some.injEq, ProjectRecord.read_eq_self]
    exact ⟨fun h => ⟨h, hnotes⟩, fun h => h.1⟩

end

/-- A synthesizer that depends on a mixer, in a project with notes. -/
def studio (arg notes : CStr) : Session where
  g :=
    { taskIter := 0, projectsDir := cstr "/p", forks := [], childs := [], nextAddr := 3, log := []
      fs := { entries := [([cstr "p"], .dir), ([cstr "p", cstr "studio"], .dir)], faults := [] } }
  p := { projectNew 0 with
    name := cstr "studio"
    directory := cstr "/p/studio"
    description := some (cstr "two clients")
    notes := some notes
    clients :=
      [{ clientNew 1 with
          id := 1, idStr := uuidUnparse 1, cls := some (cstr "synth")
          name := some (cstr "synth 01")
          flags := flagConfigFile ||| flagSaved, workingDir := some (cstr "/home")
          argv := some [cstr "synth", arg], dependencies := [2] },
        { clientNew 2 with
          id := 2, idStr := uuidUnparse 2, cls := some (cstr "mixer"), name := some (cstr "mixer")
          workingDir := some (cstr "/home"), argv := some [cstr "mixer"] }] }

theorem studio_writable {arg notes : CStr} (h : 0 ∉ notes) : (studio arg notes).Writable where
  honest := rfl
  can := ⟨by rfl, by rfl, by rfl⟩
  nul := h
  ids c hc := by
    rcases List.mem_cons.mp hc with rfl | hc
    · rfl
    · rw [List.mem_singleton.mp hc]
  acyclic x hx := by
    have hedge : ∀ {x y}, DependsIn (studio arg notes).p.clients x y → x = 1 ∧ y = 2 := by
      rintro x y ⟨c, hc, rfl, hy⟩
      rcases List.mem_cons.mp hc with rfl | hc
      · exact ⟨rfl, List.mem_singleton.mp hy⟩
      · rw [List.mem_singleton.mp hc] at hy
        exact absurd hy (by simp [clientNew])
    obtain ⟨y, hxy, hyx⟩ := Relation.TransGen.head'_iff.mp hx
    obtain ⟨rfl, rfl⟩ := hedge hxy
    rcases Relation.ReflTransGen.cases_head hyx with h | ⟨z, hz, _⟩
    · exact absurd h (by decide)
    · exact absurd (hedge hz).1 (by decide)

/-- A project with two clients comes back. -/
theorem studio_comes_back :
    roundTrip (studio (cstr "--volume=7") (cstr "tune the bass")) 9 (cstr "/p") (cstr "studio")
      = some ((studio (cstr "--volume=7") (cstr "tune the bass")).p.record
          (studio (cstr "--volume=7") (cstr "tune the bass")).p.clients) :=
  (project_comes_back _ 9 (cstr "/p") (cstr "studio") (studio_writable (by decide)) (by decide)).mpr
    ⟨by decide, by decide⟩

/-- An argument with an `&` in it is read as another one, and empty notes are not saved. -/
theorem studio_differs :
    roundTrip (studio (cstr "--title=R&B") (cstr "tune the bass")) 9 (cstr "/p") (cstr "studio")
        ≠ some ((studio (cstr "--title=R&B") (cstr "tune the bass")).p.record
          (studio (cstr "--title=R&B") (cstr "tune the bass")).p.clients) ∧
      roundTrip (studio (cstr "--volume=7") []) 9 (cstr "/p") (cstr "studio") = none := by
  constructor
  · rw [roundTrip_eq (studio_writable (by decide)) (by decide) 9 (by decide), Ne, Option.some.injEq,
      ProjectRecord.read_eq_self]
    decide
  · exact roundTrip_empty_notes (studio_writable (by decide)) rfl 9 _ _

end Lash
