import Lash.Places

/-!
# Names of clients

The daemon makes up the name of a client from its class: the class itself, or the class and a
number below 100, whichever no client of the project has. A client that is lost keeps its name, and
one that is resumed gets a name only if it has none. So names stay apart whatever the clients do,
if they were apart in the file of the project (`Server.client_names_apart`).
-/

namespace Lash

/-! ## The names that are tried -/

/-- The clients of a project, live or lost. -/
def Project.members (p : Project) : List Client := p.clients ++ p.lostClients

variable {p p' : Project} {c d e : Client} {cls name : CStr}

theorem clientFindByName_eq_none {l : List Client} :
    clientFindByName l name = none ↔ ∀ c ∈ l, c.name ≠ some name := by
  unfold clientFindByName
  rw [List.find?_eq_none]
  simp only [decide_eq_true_eq, ne_eq]

theorem projectGetClientByName_eq_none :
    projectGetClientByName p name = none ↔ ∀ c ∈ p.members, c.name ≠ some name := by
  unfold projectGetClientByName Project.members
  rw [Option.or_eq_none_iff, clientFindByName_eq_none, clientFindByName_eq_none,
    List.forall_mem_append]

/-- The `i`-th name with a number. -/
def numberedName (cls : CStr) (i : Nat) : CStr := cls ++ cstr " " ++ twoDigits i

/-- What `project_get_unique_client_name` tries, in this order. -/
def nameCandidates (cls : CStr) : List CStr := cls :: (List.range' 1 99).map (numberedName cls)

theorem numberedClientName_eq (p : Project) (cls : CStr) (n i : Nat) :
    numberedClientName p cls n i = ((List.range' i n).map (numberedName cls)).find?
      (fun name => projectGetClientByName p name = none) := by
  induction n generalizing i with
  | zero => rfl
  | succ n ih =>
      rw [numberedClientName, List.range'_succ, List.map_cons, List.find?_cons, ih]
      by_cases hfree : projectGetClientByName p (numberedName cls i) = none
      · rw [decide_eq_true hfree]
        exact if_pos hfree
      · rw [decide_eq_false hfree]
        exact if_neg hfree

/-- The function finds the first candidate that no client has. -/
theorem projectGetUniqueClientName_eq (p : Project) (cls : CStr) :
    projectGetUniqueClientName p cls = (nameCandidates cls).find?
      (fun name => projectGetClientByName p name = none) := by
  unfold projectGetUniqueClientName nameCandidates
  rw [List.find?_cons, numberedClientName_eq]
  by_cases hfree : projectGetClientByName p cls = none
  · rw [if_pos hfree, decide_eq_true hfree]
  · rw [if_neg hfree, decide_eq_false hfree]

theorem digitsValue_twoDigits (i : Nat) : digitsValue (twoDigits i) = i := by
  unfold twoDigits
  split
  · exact digitsValue_decimal i
  · exact digitsValue_decimal i

theorem length_twoDigits {i : Nat} (h : i < 100) : (twoDigits i).length ≤ 2 := by
  unfold twoDigits
  split
  · next hi =>
      have hone : (decimal i).length ≤ 1 := length_decimal_le (by omega) (by omega)
      rw [List.length_cons]
      omega
  · exact length_decimal_le (by omega) (by omega)

/-- Every candidate fits into the memory that is allocated, with its NUL. -/
theorem length_candidate (h : name ∈ nameCandidates cls) : name.length + 1 ≤ cls.length + 4 := by
  rcases List.mem_cons.mp h with rfl | h
  · omega
  · obtain ⟨i, hi, rfl⟩ := List.mem_map.mp h
    have hdigits : (twoDigits i).length ≤ 2 := by
      apply length_twoDigits
      have hrange := List.mem_range'_1.mp hi
      omega
    have hblank : (cstr " ").length = 1 := rfl
    unfold numberedName
    rw [List.length_append, List.length_append, hblank]
    omega

theorem numberedName_injective (cls : CStr) : Function.Injective (numberedName cls) := by
  intro i j h
  have hdigits := List.append_cancel_left h
  rw [← digitsValue_twoDigits i, ← digitsValue_twoDigits j, hdigits]

/-- The candidates are a hundred different names. -/
theorem nodup_nameCandidates (cls : CStr) : (nameCandidates cls).Nodup := by
  refine List.nodup_cons.mpr ⟨?_, (List.nodup_range').map (numberedName_injective cls)⟩
  intro h
  obtain ⟨i, -, hi⟩ := List.mem_map.mp h
  have hlen := congrArg List.length hi
  unfold numberedName at hlen
  have hblank : (cstr " ").length = 1 := rfl
  rw [List.length_append, List.length_append, hblank] at hlen
  omega

theorem length_nameCandidates (cls : CStr) : (nameCandidates cls).length = 100 := by
  rw [nameCandidates, List.length_cons, List.length_map, List.length_range']

/-- If every candidate is taken, at least a hundred clients have one. -/
theorem hundred_taken (h : projectGetUniqueClientName p cls = none) :
    100 ≤ p.members.countP (fun c => c.name.any (fun name => name ∈ nameCandidates cls)) := by
  rw [projectGetUniqueClientName_eq, List.find?_eq_none] at h
  have hcovered : nameCandidates cls ⊆
      (p.members.filter (fun c => c.name.any (fun name => name ∈ nameCandidates cls))).map
        (fun c => c.name.getD []) := by
    intro name hname
    have htaken := h name hname
    rw [decide_eq_true_eq, projectGetClientByName_eq_none] at htaken
    push Not at htaken
    obtain ⟨c, hc, hcname⟩ := htaken
    refine List.mem_map.mpr ⟨c, List.mem_filter.mpr ⟨hc, ?_⟩, ?_⟩
    · rw [hcname]
      exact decide_eq_true hname
    · rw [hcname]
      rfl
  have hlen := (List.subperm_of_subset (nodup_nameCandidates cls) hcovered).length_le
  rw [length_nameCandidates, List.length_map] at hlen
  rw [List.countP_eq_length_filter]
  exact hlen

/-- What is found is one of the candidates, and nobody has it. -/
theorem projectGetUniqueClientName_some (h : projectGetUniqueClientName p cls = some name) :
    name ∈ nameCandidates cls ∧ ∀ c ∈ p.members, c.name ≠ some name := by
  rw [projectGetUniqueClientName_eq] at h
  have hfree := List.find?_some h
  rw [decide_eq_true_eq] at hfree
  exact ⟨List.mem_of_find?_eq_some h, projectGetClientByName_eq_none.mp hfree⟩

/-- Fewer than a hundred clients have names; empty ones do not matter to a class that is not. -/
def Project.FewNames (p : Project) (cls : CStr) : Prop :=
  p.members.countP (fun c => c.name.isSome) < 100 ∨
    cls ≠ [] ∧ p.members.countP (fun c => c.name.getD [] ≠ []) < 100

/-- **A free name is found**, and it fits. -/
theorem Project.FewNames.exists_name (h : p.FewNames cls) :
    ∃ name, projectGetUniqueClientName p cls = some name ∧
      (∀ c ∈ p.members, c.name ≠ some name) ∧ name.length + 1 ≤ cls.length + 4 := by
  cases hname : projectGetUniqueClientName p cls with
  | some name =>
      obtain ⟨hcandidate, hfree⟩ := projectGetUniqueClientName_some hname
      exact ⟨name, rfl, hfree, length_candidate hcandidate⟩
  | none =>
      have htaken := hundred_taken hname
      rcases h with hfew | ⟨hcls, hfew⟩
      · have hle : p.members.countP (fun c => c.name.any (fun n => n ∈ nameCandidates cls)) ≤
            p.members.countP (fun c => c.name.isSome) := by
          apply List.countP_mono_left
          intro c _ hc
          obtain ⟨n, hn, -⟩ := (Option.any_eq_true _ _).mp hc
          rw [hn]
          rfl
        omega
      · have hle : p.members.countP (fun c => c.name.any (fun n => n ∈ nameCandidates cls)) ≤
            p.members.countP (fun c => c.name.getD [] ≠ []) := by
          apply List.countP_mono_left
          intro c _ hc
          obtain ⟨n, hn, hcandidate⟩ := (Option.any_eq_true _ _).mp hc
          rw [hn]
          -- no candidate is empty
          have hne : n ≠ [] := by
            rcases List.mem_cons.mp (of_decide_eq_true hcandidate) with rfl | hnumber
            · exact hcls
            · obtain ⟨i, -, rfl⟩ := List.mem_map.mp hnumber
              exact List.append_ne_nil_of_left_ne_nil
                (List.append_ne_nil_of_left_ne_nil hcls _) _
          exact decide_eq_true hne
        omega

/-! ## Names that are apart -/

/-- The same client under the same name. -/
structure Client.SameSelf (c d : Client) : Prop where
  addr : d.addr = c.addr
  name : d.name = c.name
  cls : d.cls = c.cls

theorem Client.SameSelf.refl (c : Client) : c.SameSelf c := ⟨rfl, rfl, rfl⟩

theorem Client.SameSelf.trans (h : c.SameSelf d) (h' : d.SameSelf e) : c.SameSelf e :=
  ⟨h'.addr.trans h.addr, h'.name.trans h.name, h'.cls.trans h.cls⟩

theorem Client.Same.self (h : c.Same d) : c.SameSelf d := ⟨h.addr, h.name, h.cls⟩

theorem ClientsFrom.selves {l l' : List Client} (h : ClientsFrom l l') :
    Keyed.From Client.SameSelf l l' :=
  Keyed.From.mono Client.Same.self h

/-- Two clients do not have the same name, unless it is empty. -/
def Client.NameApart (c d : Client) : Prop := c.name = d.name → c.name.getD [] = []

theorem Client.NameApart.symm (h : c.NameApart d) : d.NameApart c := by
  intro heq
  rw [heq]
  exact h heq.symm

instance (c d : Client) : Decidable (c.NameApart d) := inferInstanceAs (Decidable (_ → _))

instance : Std.Symm Client.NameApart := ⟨fun _ _ h => h.symm⟩

/-- Clients have classes, and different ones have different names. -/
structure NamesApart (l : List Client) : Prop where
  classes : ∀ c ∈ l, c.cls.isSome
  apart : ∀ c ∈ l, ∀ d ∈ l, c.addr ≠ d.addr → c.NameApart d

namespace NamesApart

variable {l l' : List Client}

theorem nil : NamesApart [] := ⟨by simp, by simp⟩

theorem of_from (h : NamesApart l) (hl : Keyed.From Client.SameSelf l l') : NamesApart l' where
  classes := by
    intro d hd
    obtain ⟨c, hc, hsame⟩ := hl d hd
    rw [hsame.cls]
    exact h.classes c hc
  apart := by
    intro d hd d' hd' hne
    obtain ⟨c, hc, hsame⟩ := hl d hd
    obtain ⟨c', hc', hsame'⟩ := hl d' hd'
    unfold Client.NameApart
    rw [hsame.name, hsame'.name]
    rw [hsame.addr, hsame'.addr] at hne
    exact h.apart c hc c' hc' hne

theorem cons (h : NamesApart l) (hcls : c.cls.isSome) (hc : ∀ d ∈ l, c.NameApart d) :
    NamesApart (c :: l) where
  classes := List.forall_mem_cons.mpr ⟨hcls, h.classes⟩
  apart := by
    intro d hd e he hne
    rcases List.mem_cons.mp hd with rfl | hold
    · rcases List.mem_cons.mp he with rfl | heold
      · exact absurd rfl hne
      · exact hc e heold
    · rcases List.mem_cons.mp he with rfl | heold
      · exact (hc d hold).symm
      · exact h.apart d hold e heold hne

/-- The client that is in front of the live ones is written back. -/
theorem put {m : List Client} (h : NamesApart (c :: (l ++ m))) (haddr : c.addr = d.addr) :
    NamesApart (putClient c (d :: l) ++ m) := by
  refine h.of_from (Keyed.From.of_subset .refl ?_)
  intro b hb
  rw [← List.cons_append]
  rcases List.mem_append.mp hb with hb | hb
  · exact List.mem_append_left _ (Keyed.put_cons_subset haddr.symm hb)
  · exact List.mem_append_right _ hb

theorem of_pairwise (hcls : ∀ c ∈ l, c.cls.isSome) (h : l.Pairwise Client.NameApart) :
    NamesApart l where
  classes := hcls
  apart := by
    intro c hc d hd hne
    refine h.forall hc hd ?_
    rintro rfl
    exact hne rfl

theorem pairwise (h : NamesApart l) (hn : (l.map Client.addr).Nodup) :
    l.Pairwise Client.NameApart := by
  refine (List.pairwise_map.mp hn).imp_of_mem ?_
  intro c d hc hd hne
  exact h.apart c hc d hd hne

end NamesApart

/-! ## Naming a client -/

/-- The name is empty or new. -/
theorem projectNameClient_spec (h : projectNameClient p c = some d) :
    d.addr = c.addr ∧ d.cls = c.cls ∧ ∀ b ∈ p.members, d.NameApart b := by
  unfold projectNameClient at h
  split at h
  · exact absurd h (by simp)
  · next cls hcls =>
      rw [← Option.some.inj h]
      refine ⟨rfl, rfl, ?_⟩
      intro b hb heq
      cases hname : projectGetUniqueClientName p cls with
      | none => rfl
      | some name =>
          dsimp only at heq
          rw [hname] at heq
          exact absurd heq.symm ((projectGetUniqueClientName_some hname).2 b hb)

theorem nameIfUnnamed_spec (h : nameIfUnnamed p c = some d) :
    d.addr = c.addr ∧ d.cls = c.cls ∧ (d = c ∨ ∀ b ∈ p.members, d.NameApart b) := by
  unfold nameIfUnnamed at h
  split at h
  · obtain ⟨haddr, hcls, hfree⟩ := projectNameClient_spec h
    exact ⟨haddr, hcls, Or.inr hfree⟩
  · rw [← Option.some.inj h]
    exact ⟨rfl, rfl, Or.inl rfl⟩

/-- A client that has a class can be named. -/
theorem projectNameClient_isSome (p : Project) (h : c.cls.isSome) :
    (projectNameClient p c).isSome := by
  unfold projectNameClient
  obtain ⟨cls, hcls⟩ := Option.isSome_iff_exists.mp h
  rw [hcls]
  rfl

/-- A client that joins gets a name of its own. -/
theorem NamesApart.join {s t : Session} {id : Uuid} (h : NamesApart s.p.members)
    (hcls : c.cls.isSome) (ht : projectNewClient s c id = some t) : NamesApart t.p.members := by
  obtain ⟨-, hlost, d, e, -, -, hdcls, hname, hlive⟩ := projectNewClient_spec ht
  obtain ⟨haddr, hecls, hfree⟩ := projectNameClient_spec hname
  have hcons : NamesApart (e :: s.p.members) := by
    refine h.cons ?_ ?_
    · rw [hecls, hdcls]
      exact hcls
    · intro b hb
      exact hfree b (List.mem_cons_of_mem _ hb)
  unfold Project.members
  rw [hlive, hlost]
  exact hcons.put haddr

/-- A client that is back keeps its name or gets one of its own. -/
theorem NamesApart.resume {s t : Session} {b : Client} (h : NamesApart s.p.members)
    (hb : b ∈ s.p.lostClients) (hc : b.SameSelf c) (hlive : ∀ d ∈ s.p.clients, d.addr ≠ c.addr)
    (ht : clientResumeProject s c = some t) : NamesApart t.p.members := by
  obtain ⟨-, -, d, e, hback, hdname, hdcls, hname, hfrom, hfromlost⟩ := clientResumeProject_spec ht
  obtain ⟨haddr, hecls, hcase⟩ := nameIfUnnamed_spec hname
  have hothers : NamesApart (s.p.clients ++ delClient c.addr s.p.lostClients) := by
    refine h.of_from (Keyed.From.append ?_ (ClientsFrom.del _ _).selves)
    exact (ClientsFrom.refl _).selves
  have hcons : NamesApart (e :: (s.p.clients ++ delClient c.addr s.p.lostClients)) := by
    have hmember : b ∈ s.p.members := List.mem_append_right _ hb
    refine hothers.cons ?_ ?_
    · rw [hecls, hdcls, hc.cls]
      exact h.classes b hmember
    · intro x hx
      rcases hcase with rfl | hfree
      · -- it has the name that it had as a lost client
        have hxne : x ∈ s.p.members ∧ x.addr ≠ c.addr := by
          rcases List.mem_append.mp hx with hx | hx
          · exact ⟨List.mem_append_left _ hx, hlive x hx⟩
          · obtain ⟨hx, hne⟩ := Keyed.mem_del.mp hx
            exact ⟨List.mem_append_right _ hx, hne⟩
        have hapart : b.NameApart x := by
          apply h.apart b hmember x hxne.1
          rw [← hc.addr]
          exact hxne.2.symm
        unfold Client.NameApart
        rw [hdname, hc.name]
        exact hapart
      · exact hfree x (List.mem_cons_of_mem _ hx)
  have hfrom' := Keyed.From.append hfrom.selves hfromlost.selves
  exact (hcons.put haddr).of_from hfrom'

theorem Project.Same.names (h : p.Same p') (hp : NamesApart p.members) : NamesApart p'.members :=
  hp.of_from (Keyed.From.append h.live.selves h.lost.selves)

theorem NamesApart.leave {s : Session} (h : NamesApart s.p.members) (hc : c ∈ s.p.clients) :
    NamesApart (clientDisconnected s c).p.members := by
  obtain ⟨-, hlive, hlost⟩ := clientDisconnected_keeps s c
  refine h.of_from (Keyed.From.trans .trans ?_ (Keyed.From.append hlive.selves hlost.selves))
  apply Keyed.From.of_subset .refl
  intro x hx
  rcases List.mem_append.mp hx with hx | hx
  · exact List.mem_append_left _ hx
  · rcases List.mem_cons.mp hx with rfl | hx
    · exact List.mem_append_left _ hc
    · exact List.mem_append_right _ hx

theorem NamesApart.move {s : Session} (h : NamesApart s.p.members) (dir : CStr) :
    NamesApart (projectMove s dir).p.members := by
  have hclosed : Keyed.From Client.SameSelf s.p.clients
      (s.p.clients.map (fun c => { c with store := none })) := by
    apply Keyed.From.map
    exact fun _ => ⟨rfl, rfl, rfl⟩
  rcases projectMove_places s dir with ⟨-, hp⟩ | ⟨-, -, hp⟩ | ⟨-, -, -, hlost, hlive⟩
  · rw [hp]
    exact h
  · rw [hp]
    exact h.of_from (Keyed.From.append hclosed (ClientsFrom.refl _).selves)
  · unfold Project.members
    rw [hlost]
    refine h.of_from (Keyed.From.append ?_ (ClientsFrom.refl _).selves)
    intro d hd
    obtain ⟨i, hi, rfl⟩ := List.mem_iff_getElem.mp hd
    have hi' : i < s.p.clients.length := by
      rw [hlive.length_eq]
      exact hi
    obtain ⟨st, -, hst⟩ := hlive.get hi' hi
    refine ⟨s.p.clients[i], List.getElem_mem hi', ?_⟩
    rw [List.get_eq_getElem, List.get_eq_getElem] at hst
    rw [hst]
    exact ⟨rfl, rfl, rfl⟩

/-! ## Runs -/

namespace Server

variable {s s' : Server} {a : Addr} {i : Input}

/-- If the input loads a project, the clients stored in it have classes and different names. -/
def StoredNamed (s : Server) (i : Input) : Prop :=
  ∀ a ∈ s.restoring i, ∀ r ∈ projectLoad (s.session a), r.1 = true →
    (∀ c ∈ r.2.p.lostClients, c.cls.isSome) ∧ r.2.p.lostClients.Pairwise Client.NameApart

/-- The names of a project that was just loaded are those of its file. -/
theorem StoredNamed.loaded (hok : s.StoredNamed i) (hw : s.Wf) (hnot : a ∉ s.loaded)
    (hi : s.restoring i = some a) {u : Session}
    (hload : projectLoad (s.session a) = some (true, u)) : NamesApart u.p.members := by
  obtain ⟨hcls, hapart⟩ := hok a hi (true, u) hload rfl
  have hlive : u.p.clients = [] := (projectLoad_unplaced (hw.unplaced hnot) hload).live
  unfold Project.members
  rw [hlive]
  exact .of_pairwise hcls hapart

/-- What a step preserves. -/
theorem step_clientNames (hw : s.Wf) (hok : s.StoredNamed i) (h : s.step i = some s')
    (hs : NamesApart (s.project a).members) : NamesApart (s'.project a).members := by
  rcases step_changes h a with hsame | hchange
  · rw [hsame]
    exact hs
  · generalize s'.project a = p' at hchange
    cases hchange with
    | join hi ht hu =>
        refine NamesApart.join ?_ rfl hu
        rcases ht with ⟨-, hp⟩ | ⟨-, name, hp⟩
        · rw [hp]
          exact hs
        · rw [hp]
          exact .nil
    | @resume sender pid cls flags wd argv id c u hi ha hc hu =>
        have hself : c.SameSelf (c.reconnect sender) := ⟨rfl, rfl, rfl⟩
        refine NamesApart.resume (s := (s.session a).emit (.connected a c.addr sender)) hs hc hself
          ?_ hu
        intro d hd
        exact (hw.distinct a).ne (Project.mem_live _ hd) (Project.mem_lost _ hc)
    | @leave i c g hi ha hc => exact NamesApart.leave (s := { g := g, p := s.project a }) hs hc
    | complete hi ha hv => exact (complete_keeps hi hv).names hs
    | @progress i c n ha hc =>
        exact (@projectClientProgress_keeps (s.session a) c ⟨c, hc, .refl c⟩ n).1.names hs
    | save hi ha => exact (projectSave_keeps (s.session a)).names hs
    | close hi ha =>
        obtain ⟨hlive, hlost⟩ := projectUnload_clients (s.session a)
        unfold Project.members
        rw [hlive, hlost]
        exact .nil
    | @restore i u v g g' lost ha hnot hi hload hv hlost =>
        have hu : NamesApart u.p.members := hok.loaded hw hnot hi hload
        have hvn : NamesApart v.p.members := by
          rcases hv with rfl | ⟨name, rfl⟩
          · exact hu
          · exact (projectRename_keeps u name).1.names hu
        refine hvn.of_from (Keyed.From.append ?_ (restoreClients_keeps hlost).selves)
        exact (ClientsFrom.refl _).selves
    | @depend i c id d hi ha hc hd =>
        have hsame := clientDependencyAdd_keeps hd
        exact (Project.Same.put (.refl _) ⟨c, hc, hsame⟩).names hs
    | @undepend i c id ha hc =>
        have hsame := clientDependencyRemove_keeps c id
        exact (Project.Same.put (.refl _) ⟨c, hc, hsame⟩).names hs
    | @launch i c g d ha hc hd =>
        have hlost := (ClientsFrom.refl _).put ⟨c, hc, projectLaunchClient_keeps hd⟩
        exact hs.of_from (Keyed.From.append (ClientsFrom.refl _).selves hlost.selves)
    | rename ha => exact (projectRename_keeps (s.session a) _).1.names hs
    | describe ha => exact (projectSetDescription_keeps (s.session a) _).names hs
    | note ha => exact (projectSetNotes_keeps (s.session a) _).names hs
    | move hi ha => exact NamesApart.move (s := s.session a) hs _

/-- What a run preserves. -/
theorem reachable_clientNames {fs : Fs} {dir : CStr} (h : Reachable StoredNamed fs dir s) :
    ∀ a, NamesApart (s.project a).members := by
  have hstart : ∀ a, NamesApart ((start fs dir).project a).members := by
    intro a
    have hs := start_starting fs dir
    have hnot : a ∉ (start fs dir).loaded := by
      rw [hs.loaded]
      exact List.not_mem_nil
    obtain ⟨hlive, hlost⟩ := hs.wf.clients_unloaded hnot
    unfold Project.members
    rw [hlive, hlost]
    exact .nil
  refine (h.invariant (I := fun s => s.Wf ∧ ∀ a, NamesApart (s.project a).members)
    ⟨(start_starting fs dir).wf, hstart⟩ ?_).2
  rintro t i u - ⟨hw, ht⟩ hok hstep
  exact ⟨(hw.step_answers hstep).wf hw, fun a => step_clientNames hw hok hstep (ht a)⟩

/-- **The names of clients are unique.** In every state of a run in which the clients stored in
projects have classes and different names, no two clients of a project, live or lost, have the same
name unless it is empty, and every client can be named. A free name is found as long as fewer than
100 clients have one, and it and all names that are tried fit into the memory for it. -/
theorem client_names_apart {fs : Fs} {dir : CStr} (h : Reachable StoredNamed fs dir s) (a : Addr) :
    (s.project a).members.Pairwise Client.NameApart ∧
      (∀ c ∈ (s.project a).members, (projectNameClient (s.project a) c).isSome) ∧
      ∀ (p : Project) (cls : CStr),
        (∀ name ∈ nameCandidates cls, name.length + 1 ≤ cls.length + 4) ∧
        (p.FewNames cls → ∃ name, projectGetUniqueClientName p cls = some name ∧
          (∀ c ∈ p.members, c.name ≠ some name) ∧ name.length + 1 ≤ cls.length + 4) := by
  have hnames := reachable_clientNames h a
  have hdistinct : ((s.project a).members.map Client.addr).Nodup := by
    have hview := h.wf.distinct a
    unfold View.Distinct View.jobs at hview
    rw [List.map_append] at hview
    unfold Project.members
    rw [List.map_append]
    simpa [view, Project.view, Function.comp_def, Client.job] using hview
  refine ⟨hnames.pairwise hdistinct, ?_, ?_⟩
  · intro c hc
    exact projectNameClient_isSome _ (hnames.classes c hc)
  · intro p cls
    exact ⟨fun name hname => length_candidate hname, fun hfew => hfew.exists_name⟩

instance (s : Server) (i : Input) : Decidable (s.StoredNamed i) :=
  inferInstanceAs (Decidable (∀ a ∈ _, ∀ r ∈ _, _ → _))

/-- Two clients of a class join; one leaves and a third joins; the project is saved, closed and
opened again; one of its clients is resumed, and another one joins. -/
theorem client_names_apart_synths :
    ∃ s, Reachable StoredNamed emptyDisk (cstr "/p") s ∧
      (s.project 1).members.map Client.name =
        [some (cstr "synth"), some (cstr "synth 01"), some (cstr "synth 02")] ∧
      (s.project 1).members.Pairwise Client.NameApart ∧
      (∀ c ∈ (s.project 1).members, (projectNameClient (s.project 1) c).isSome) ∧
      ∀ (p : Project) (cls : CStr),
        (∀ name ∈ nameCandidates cls, name.length + 1 ≤ cls.length + 4) ∧
        (p.FewNames cls → ∃ name, projectGetUniqueClientName p cls = some name ∧
          (∀ c ∈ p.members, c.name ≠ some name) ∧ name.length + 1 ≤ cls.length + 4) := by
  have hrun : (runFrom StoredNamed
      [.outside emptyDisk [7, 8],
        .connect (cstr ":1") 5 (cstr "synth") 0 [] [cstr "synth"] 1,
        .connect (cstr ":2") 6 (cstr "synth") 0 [] [cstr "synth"] 2,
        .nameLost (cstr ":1"),
        .connect (cstr ":3") 9 (cstr "synth") 0 [] [cstr "synth"] 3,
        .projectSave (cstr "New Project"),
        .projectClose (cstr "New Project"),
        .projectOpen (cstr "New Project"),
        .connect (cstr ":4") 7 (cstr "synth") 0 [] [cstr "synth"] 4,
        .connect (cstr ":5") 10 (cstr "synth") 0 [] [cstr "synth"] 5]).any
      (fun s => (s.project 1).members.map Client.name =
        [some (cstr "synth"), some (cstr "synth 01"), some (cstr "synth 02")]) = true := by
    decide +kernel
  obtain ⟨s, hs, hnames⟩ := exists_of_runFrom hrun
  exact ⟨s, hs, of_decide_eq_true hnames, client_names_apart hs 1⟩

end Server

end Lash
