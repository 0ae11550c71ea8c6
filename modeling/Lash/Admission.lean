import Lash.Document

/-!
# Which dependencies are admitted

`client_dependency_find_circular` follows dependencies without a mark on where it has been. As
long as the listed clients do not depend on each other in a circle it comes to an end, and tells
whether the clients that it looks up lead from one id to another (`findCircular_decides`). So
`client_dependency_add` refuses exactly the dependencies that would close a circle — but for the
smallest one, of a client that depends on itself (`admits_iff`).
-/

namespace Lash

open Search Relation

variable {l : List Client} {c d : Client} {x y id orig new : Uuid} {n : Nat}

/-! ## The check -/

/-- A listed client depends on a listed client. -/
def Needs (l : List Client) (c d : Client) : Prop := c ∈ l ∧ d ∈ l ∧ d.id ∈ c.dependencies

/-- No listed client depends on itself, directly or by way of others. -/
def Unlooped (l : List Client) : Prop := ∀ c, ¬ TransGen (Needs l) c c

/-- The client that is found under `x` depends on `y`. -/
def Leads (l : List Client) (x y : Uuid) : Prop :=
  ∃ c, projectGetClientById l x = some c ∧ y ∈ c.dependencies

theorem leads_iff_depsIn : Leads l x y ↔ y ∈ depsIn l x := by
  unfold Leads depsIn
  cases projectGetClientById l x with
  | none => simp
  | some c => simp

theorem Leads.dependsIn (h : Leads l x y) : DependsIn l x y := by
  obtain ⟨c, hc, hy⟩ := h
  exact ⟨c, List.mem_of_find?_eq_some hc, by simpa using List.find?_some hc, hy⟩

/-- A way from one id to another that leads on is one from the client found under the first to the
client found under the second. -/
theorem needs_of_leads (h : TransGen (Leads l) x y) (hc : projectGetClientById l x = some c)
    (hd : projectGetClientById l y = some d) : TransGen (Needs l) c d := by
  have hstep : ∀ {x y c d}, Leads l x y → projectGetClientById l x = some c →
      projectGetClientById l y = some d → Needs l c d := by
    rintro x y c d ⟨e, he, hy⟩ hc hd
    obtain rfl : e = c := Option.some.inj (he.symm.trans hc)
    have hid : d.id = y := by simpa using List.find?_some hd
    exact ⟨List.mem_of_find?_eq_some he, List.mem_of_find?_eq_some hd, hid ▸ hy⟩
  induction h using TransGen.head_induction_on generalizing c with
  | single he => exact .single (hstep he hc hd)
  | @head x z he hrest ih =>
      -- the client in between is found, for it leads on
      obtain ⟨w, ⟨e, hz, -⟩, -⟩ := TransGen.head'_iff.mp hrest
      exact .head (hstep he hc hz) (ih hz)

theorem Unlooped.leads (h : Unlooped l) (x : Uuid) : ¬ TransGen (Leads l) x x := by
  intro hx
  obtain ⟨y, ⟨c, hc, -⟩, -⟩ := TransGen.head'_iff.mp hx
  exact h c (needs_of_leads hx hc hc)

/-- No more ids lead on than there are clients. -/
theorem card_listed_lt : (l.map Client.id).toFinset.card < l.length + 1 := by
  have h := List.toFinset_card_le (l.map Client.id)
  rw [List.length_map] at h
  omega

/-- **The check comes to an end and decides**: with more levels of calls than there are clients it
answers whether the clients it finds lead from `new` to `orig`. -/
theorem findCircular_decides (h : Unlooped l) (hn : l.length < n) :
    ∃ b, clientDependencyFindCircular l orig n new = some b ∧
      (b = true ↔ TransGen (Leads l) new orig) := by
  have hleads : ∀ x y, Leads l x y ↔ y ∈ depsIn l x := fun x y => leads_iff_depsIn
  have hpath : ∀ x y, TransGen (Leads l) x y ↔ TransGen (fun a b => b ∈ depsIn l a) x y := by
    intro x y
    have heq : Leads l = fun a b => b ∈ depsIn l a := by
      funext a b
      exact propext (hleads a b)
    rw [heq]
  have hsome : search (depsIn l) orig n new ≠ none := by
    refine search_ne_none ?_ (lt_of_lt_of_le card_listed_lt hn) ?_
    · exact fun x hx => h.leads x ((hpath x x).mpr hx)
    · intro y _ hy
      obtain ⟨z, hz⟩ := List.exists_mem_of_ne_nil _ hy
      obtain ⟨c, hc, hid, -⟩ := ((hleads y z).mpr hz).dependsIn
      rw [List.mem_toFinset, ← hid]
      exact List.mem_map_of_mem hc
  rw [clientDependencyFindCircular_eq_search, hpath]
  cases hb : search (depsIn l) orig n new with
  | none => exact absurd hb hsome
  | some b =>
      refine ⟨b, rfl, ?_⟩
      cases b with
      | false => exact ⟨fun hf => absurd hf (by simp), fun hp => absurd hp (search_false hb)⟩
      | true => exact ⟨fun _ => search_true hb, fun _ => rfl⟩

/-- A client with an id and some dependencies. -/
def clientOf (addr : Addr) (id : Uuid) (deps : List Uuid) : Client :=
  { clientNew addr with id := id, dependencies := deps }

theorem unlooped_of_deps_lt (h : ∀ c ∈ l, ∀ y ∈ c.dependencies, y.toNat < c.id.toNat) :
    Unlooped l := by
  intro c hc
  have hlt : ∀ {c d}, TransGen (Needs l) c d → d.id.toNat < c.id.toNat := by
    intro c d hcd
    induction hcd with
    | single he => exact h _ he.1 _ he.2.2
    | tail _ he ih => exact lt_trans (h _ he.1 _ he.2.2) ih
  exact absurd (hlt hc) (lt_irrefl _)

/-- Two clients have the id 5; the one that is not found depends on 3. -/
theorem findCircular_overlooks :
    ∃ (l : List Client) (orig new : Uuid), Unlooped l ∧ TransGen (DependsIn l) new orig ∧
      ∀ n, l.length < n → clientDependencyFindCircular l orig n new = some false := by
  refine ⟨[clientOf 0 5 [], clientOf 1 5 [3]], 3, 5, ?_, ?_, ?_⟩
  · apply unlooped_of_deps_lt
    simp [clientOf]
  · exact .single ⟨clientOf 1 5 [3], by simp, rfl, by simp [clientOf]⟩
  · intro n hn
    obtain ⟨m, rfl⟩ : ∃ m, n = m + 1 := ⟨n - 1, by omega⟩
    rfl

/-- A chain of three clients, the last of which depends on an id that is not listed. -/
theorem findCircular_decides_chain :
    ∃ b, clientDependencyFindCircular
        [clientOf 0 5 [4], clientOf 1 4 [3], clientOf 2 3 [1]] 1 4 5 = some b ∧
      (b = true ↔ TransGen (Leads [clientOf 0 5 [4], clientOf 1 4 [3], clientOf 2 3 [1]]) 5 1) :=
  findCircular_decides (unlooped_of_deps_lt (by simp [clientOf])) (by decide)

/-! ## Admission -/

/-- No chain of dependencies leads from a listed client back to itself. -/
def CycleFree (l : List Client) : Prop := ∀ x, ¬ TransGen (DependsIn l) x x

/-- The client with one dependency more. -/
def Client.needing (c : Client) (id : Uuid) : Client :=
  { c with dependencies := id :: c.dependencies }

/-- The list after a client in it was changed. -/
def withClient (l : List Client) (c : Client) : List Client := Keyed.put Client.id c l

/-- What `client_dependency_add` should do with a client of a list: it comes to an end, changes
nothing but the dependencies of this client, to which `id` is added exactly if it is new there and
closes no circle, and leaves no circle. -/
def AdmitsSafe (l : List Client) (c : Client) (id : Uuid) : Prop :=
  ∃ c', clientDependencyAdd l c id = some c' ∧
    c' = { c with dependencies := c'.dependencies } ∧
    (∀ d ∈ withClient l c', d.id ≠ c.id → d ∈ l) ∧
    (c'.dependencies = id :: c.dependencies ∨ c'.dependencies = c.dependencies) ∧
    (c'.dependencies = id :: c.dependencies ↔ id ∉ c.dependencies ∧
      CycleFree (withClient l (c.needing id))) ∧
    CycleFree (withClient l c')

theorem mem_withClient (hc : c ∈ l) (hid : d.id = c.id) {e : Client} :
    e ∈ withClient l d ↔ e = d ∨ e ∈ l ∧ e.id ≠ d.id := by
  unfold withClient
  rw [Keyed.mem_put]
  constructor
  · exact fun h => h.imp And.left (fun he => he)
  · exact fun h => h.imp (fun he => ⟨he, c, hc, hid.symm⟩) (fun he => he)

/-- The dependencies after one was added. -/
theorem dependsIn_withClient (hids : (l.map Client.id).Nodup) (hc : c ∈ l) :
    DependsIn (withClient l (c.needing id)) x y ↔
      Insert (DependsIn l) c.id (· = id) x y := by
  have hmem := fun e => @mem_withClient l c (c.needing id) hc rfl e
  constructor
  · rintro ⟨e, he, rfl, hy⟩
    rcases (hmem e).mp he with rfl | ⟨he, -⟩
    · rcases List.mem_cons.mp hy with rfl | hy
      · exact Or.inr ⟨rfl, rfl⟩
      · exact Or.inl ⟨c, hc, rfl, hy⟩
    · exact Or.inl ⟨e, he, rfl, hy⟩
  · rintro (⟨e, he, rfl, hy⟩ | ⟨rfl, rfl⟩)
    · by_cases hec : e.id = c.id
      · obtain rfl := List.inj_on_of_nodup_map hids he hc hec
        exact ⟨e.needing id, (hmem _).mpr (Or.inl rfl), rfl, List.mem_cons_of_mem _ hy⟩
      · exact ⟨e, (hmem e).mpr (Or.inr ⟨he, hec⟩), rfl, hy⟩
    · exact ⟨c.needing y, (hmem _).mpr (Or.inl rfl), rfl, List.mem_cons_self⟩

/-- Writing a client back as it is. -/
theorem withClient_self (hids : (l.map Client.id).Nodup) (hc : c ∈ l) : withClient l c = l :=
  Keyed.put_eq_self hids hc

theorem CycleFree.unlooped (h : CycleFree l) : Unlooped l := by
  intro c hc
  refine h c.id ?_
  have hmono : ∀ {c d}, TransGen (Needs l) c d → TransGen (DependsIn l) c.id d.id := by
    intro c d hcd
    induction hcd with
    | single he => exact .single ⟨c, he.1, rfl, he.2.2⟩
    | tail _ he ih => exact ih.tail ⟨_, he.1, rfl, he.2.2⟩
  exact hmono hc

/-- Adding a dependency closes a circle if it leads back to the client, and only then. -/
theorem cycleFree_add_iff (hids : (l.map Client.id).Nodup) (h : CycleFree l) (hc : c ∈ l)
    (hne : id ≠ c.id) :
    CycleFree (withClient l (c.needing id)) ↔
      ¬ TransGen (DependsIn l) id c.id := by
  constructor
  · intro hfree hpath
    refine hfree c.id (.head ((dependsIn_withClient hids hc).mpr (Or.inr ⟨rfl, rfl⟩)) ?_)
    exact TransGen.mono (fun a b hab => (dependsIn_withClient hids hc).mpr (Or.inl hab)) _ _ hpath
  · intro hpath
    have hacyclic : Acyclic (DependsIn l) := fun x y _ hxy hyx => h x (hxy.trans hyx)
    have hins : Acyclic (Insert (DependsIn l) c.id (· = id)) := by
      apply hacyclic.insert
      rintro _ rfl _
      exact hpath
    have hself : ∀ x, ¬ Insert (DependsIn l) c.id (· = id) x x := by
      rintro x (hx | ⟨rfl, hx⟩)
      · exact h x (.single hx)
      · exact hne hx.symm
    intro x hx
    refine hins.irrefl hself x (TransGen.mono ?_ _ _ hx)
    exact fun a b hab => (dependsIn_withClient hids hc).mp hab

/-- **`client_dependency_add` admits exactly the safe dependencies**, apart from those of a client
on itself, which it admits. -/
theorem admits_iff (hids : (l.map Client.id).Nodup) (hfree : CycleFree l) (hc : c ∈ l) (id : Uuid) :
    AdmitsSafe l c id ↔ id ≠ c.id := by
  have hleads : ∀ {x y}, TransGen (Leads l) x y ↔ TransGen (DependsIn l) x y := by
    intro x y
    have heq : Leads l = DependsIn l := by
      funext a b
      exact propext (leads_iff_depsIn.trans (dependsIn_iff_depsIn hids a b).symm)
    rw [heq]
  obtain ⟨b, hb, hbiff⟩ := @findCircular_decides l c.id id _ hfree.unlooped (Nat.lt_succ_self _)
  rw [hleads] at hbiff
  have hothers : ∀ {c' : Client}, c'.id = c.id → ∀ d ∈ withClient l c', d.id ≠ c.id → d ∈ l := by
    intro c' hid d hd hne
    rcases (mem_withClient hc hid).mp hd with rfl | ⟨hd, -⟩
    · exact absurd hid hne
    · exact hd
  have hcons : ∀ xs : List Uuid, xs ≠ id :: xs := fun xs he =>
      by simpa using congrArg List.length he
  constructor
  · rintro ⟨c', hadd, -, -, -, hiff, hfree'⟩ rfl
    -- a client that depends on itself: nothing leads back to it, so it is admitted
    have hself : c.id ∉ c.dependencies := fun hm => hfree c.id (.single ⟨c, hc, rfl, hm⟩)
    have hfalse : b = false := by
      cases b with
      | false => rfl
      | true => exact absurd (hbiff.mp rfl) (hfree c.id)
    unfold clientDependencyAdd at hadd
    rw [if_neg hself, hb, hfalse] at hadd
    rw [← Option.some.inj hadd] at hfree'
    exact hfree' c.id (.single ((dependsIn_withClient hids hc).mpr (Or.inr ⟨rfl, rfl⟩)))
  · intro hne
    unfold AdmitsSafe clientDependencyAdd
    rw [hb]
    by_cases hm : id ∈ c.dependencies
    · rw [if_pos hm]
      refine ⟨c, rfl, rfl, hothers rfl, Or.inr rfl, ?_, ?_⟩
      · exact ⟨fun he => absurd he (hcons _), fun h => absurd hm h.1⟩
      · rwa [withClient_self hids hc]
    · rw [if_neg hm]
      cases b with
      | true =>
          refine ⟨c, rfl, rfl, hothers rfl, Or.inr rfl, ?_, ?_⟩
          · refine ⟨fun he => absurd he (hcons _), fun h => ?_⟩
            exact absurd (hbiff.mp rfl) ((cycleFree_add_iff hids hfree hc hne).mp h.2)
          · rwa [withClient_self hids hc]
      | false =>
          have hsafe := (cycleFree_add_iff hids hfree hc hne).mpr
            (fun hp => absurd (hbiff.mpr hp) (by simp))
          exact ⟨_, rfl, rfl, hothers rfl, Or.inl rfl, ⟨fun _ => ⟨hm, hsafe⟩, fun _ => rfl⟩, hsafe⟩

/-- A client is made to depend on itself. -/
theorem admits_self : ¬ AdmitsSafe [clientOf 0 5 []] (clientOf 0 5 []) 5 := by
  rintro ⟨c', hadd, -, -, -, -, hfree⟩
  obtain rfl : (clientOf 0 5 []).needing 5 = c' := Option.some.inj hadd
  exact hfree 5 (.single ⟨_, List.mem_singleton_self _, rfl, List.mem_singleton_self _⟩)

theorem cycleFree_of_deps_lt (h : ∀ c ∈ l, ∀ y ∈ c.dependencies, y.toNat < c.id.toNat) :
    CycleFree l := by
  have hlt : ∀ {x y}, TransGen (DependsIn l) x y → y.toNat < x.toNat := by
    intro x y hxy
    induction hxy with
    | single he =>
        obtain ⟨c, hc, rfl, hy⟩ := he
        exact h c hc _ hy
    | tail _ he ih =>
        obtain ⟨c, hc, rfl, hy⟩ := he
        exact lt_trans (h c hc _ hy) ih
  exact fun x hx => absurd (hlt hx) (lt_irrefl _)

/-- Of two clients the second depends on the first. -/
theorem admits_iff_pair :
    AdmitsSafe [clientOf 0 3 [], clientOf 1 5 [3]] (clientOf 0 3 []) 5 ↔ (5 : Uuid) ≠ 3 :=
  admits_iff (by decide) (cycleFree_of_deps_lt (by simp [clientOf])) (by simp) 5

end Lash
