import Mathlib.Data.List.Nodup
import Mathlib.Logic.Function.Basic

/-!
# Circular lists in memory

Nodes are linked in both directions, and a list is a ring of nodes that begins and ends at its
head. A path is what a walk along one direction sees, and a ring is a path along each of the two
directions. The lemmas say what survives when the link of a node is set: everything that does not
lead over this node.
-/

/-! ## Paths -/

/-- From `a`, the links `f` lead over the nodes of the list to `b`. -/
def LeadsOver {P : Type*} (f : P → P) : P → List P → P → Prop
  | a, [], b => f a = b
  | a, x :: l, b => f a = x ∧ LeadsOver f x l b

namespace LeadsOver

variable {P : Type*} {f g : P → P} {a b x p q : P} {l l' : List P}

/-- A path over a node is one to the node and one from there. -/
theorem append : LeadsOver f a (l ++ x :: l') b ↔ LeadsOver f a l x ∧ LeadsOver f x l' b := by
  induction l generalizing a with
  | nil => rfl
  | cons y l ih =>
      rw [List.cons_append, LeadsOver, LeadsOver, ih, and_assoc]

/-- Only the links of the nodes that are left matter. -/
theorem congr (h : ∀ p ∈ a :: l, f p = g p) (hf : LeadsOver f a l b) : LeadsOver g a l b := by
  induction l generalizing a with
  | nil => exact (h a List.mem_cons_self).symm.trans hf
  | cons x l ih =>
      refine ⟨(h a List.mem_cons_self).symm.trans hf.1, ?_⟩
      exact ih (fun p hp => h p (List.mem_cons_of_mem _ hp)) hf.2

/-- Where a path from `a` that is not empty begins. -/
theorem head_eq (h : LeadsOver f a l b) : f a = l.head?.getD b := by
  cases l with
  | nil => exact h
  | cons x l => exact h.1

/-- The links of the nodes that are left lead to the nodes behind. -/
theorem mem (h : LeadsOver f a l b) : ∀ p ∈ a :: l, f p ∈ l ++ [b] := by
  induction l generalizing a with
  | nil =>
      intro p hp
      rw [List.mem_singleton.mp hp]
      exact List.mem_singleton.mpr h
  | cons x l ih =>
      intro p hp
      rcases List.mem_cons.mp hp with rfl | hp
      · rw [h.1]
        exact List.mem_cons_self
      · exact List.mem_cons_of_mem _ (ih h.2 p hp)

/-- A path that begins at another node and goes on to the same one. -/
theorem restart {c : P} (hc : g c = f a) (hl : ∀ p ∈ l, g p = f p) (h : LeadsOver f a l b) :
    LeadsOver g c l b := by
  cases l with
  | nil => exact hc.trans h
  | cons x l =>
      refine ⟨hc.trans h.1, ?_⟩
      exact LeadsOver.congr (fun p hp => (hl p hp).symm) h.2

variable [DecidableEq P]

/-- The link of a node that is not left may be set. -/
theorem update (hp : p ∉ a :: l)
    (h : LeadsOver f a l b) : LeadsOver (Function.update f p q) a l b := by
  refine h.congr fun x hx => (Function.update_of_ne ?_ q f).symm
  rintro rfl
  exact hp hx

/-- Setting the link of the last node leads the path to another end. -/
theorem update_last (hx : x ∉ a :: l) (h : LeadsOver f a (l ++ [x]) b) :
    LeadsOver (Function.update f x q) a (l ++ [x]) q := by
  refine append.mpr ⟨(append.mp h).1.update hx, ?_⟩
  rw [LeadsOver, Function.update_self]

/-- The node in front of `x` is linked to the one behind it. -/
theorem bypass (hn : (a :: (l ++ x :: l')).Nodup) (h : LeadsOver f a (l ++ x :: l') b) :
    LeadsOver (Function.update f (l.getLast?.getD a) (f x)) a (l ++ l') b := by
  obtain ⟨hfirst, hrest⟩ := append.mp h
  have hdisj := (List.nodup_append.mp (List.nodup_cons.mp hn).2).2.2
  have hnotin := (List.nodup_cons.mp hn).1
  rcases List.eq_nil_or_concat l with rfl | ⟨l₀, y, rfl⟩
  · refine hrest.restart (Function.update_self _ _ _) fun p hp => Function.update_of_ne ?_ _ _
    rintro rfl
    exact hnotin (List.mem_cons_of_mem _ hp)
  · rw [List.concat_eq_append] at *
    have hlast : (l₀ ++ [y]).getLast?.getD a = y := by simp
    rw [hlast, List.append_assoc, List.singleton_append]
    obtain ⟨hto, -⟩ := append.mp hfirst
    refine append.mpr ⟨hto.update ?_, ?_⟩
    · intro hy
      rcases List.mem_cons.mp hy with rfl | hy
      · exact hnotin (by simp)
      · exact (List.nodup_append.mp (List.nodup_append.mp (List.nodup_cons.mp hn).2).1).2.2 y hy y
          List.mem_cons_self rfl
    · refine hrest.restart (Function.update_self _ _ _) fun p hp => Function.update_of_ne ?_ _ _
      rintro rfl
      exact hdisj p (by simp) p (List.mem_cons_of_mem _ hp) rfl

end LeadsOver

/-! ## Rings -/

/-- The links of all nodes. -/
structure Links (P : Type*) where
  next : P → P
  prev : P → P

namespace Links

variable {P : Type*}

/-- A ring that begins and ends at `head`, and goes over different nodes. -/
structure Ring (m : Links P) (head : P) (l : List P) : Prop where
  next : LeadsOver m.next head l head
  prev : LeadsOver m.prev head l.reverse head
  nodup : (head :: l).Nodup

variable {m m' : Links P} {head head' x : P} {l l' l₁ l₂ : List P}

theorem Ring.congr (h : m.Ring head l) (hnext : ∀ p ∈ head :: l, m.next p = m'.next p)
    (hprev : ∀ p ∈ head :: l, m.prev p = m'.prev p) : m'.Ring head l where
  next := h.next.congr hnext
  prev := h.prev.congr (fun p hp => hprev p (by simpa using hp))
  nodup := h.nodup

/-- The ring of an empty list. -/
theorem ring_nil : m.Ring head [] ↔ m.next head = head ∧ m.prev head = head :=
  ⟨fun h => ⟨h.next, h.prev⟩, fun h => ⟨h.1, h.2, List.nodup_singleton head⟩⟩

/-- The head is linked to itself only if the list is empty. -/
theorem Ring.next_head_eq_iff (h : m.Ring head l) : m.next head = head ↔ l = [] := by
  cases l with
  | nil => exact ⟨fun _ => rfl, fun _ => h.next⟩
  | cons x l =>
      constructor
      · intro heq
        have hx : head = x := heq.symm.trans h.next.1
        exact absurd (hx ▸ List.mem_cons_self) (List.nodup_cons.mp h.nodup).1
      · intro hnil
        exact absurd hnil (List.cons_ne_nil x l)

/-- The links of a ring stay in it. -/
theorem Ring.next_mem (h : m.Ring head l) (hx : x ∈ head :: l) : m.next x ∈ head :: l := by
  rcases List.mem_append.mp (h.next.mem x hx) with hmem | hmem
  · exact List.mem_cons_of_mem _ hmem
  · rw [List.mem_singleton.mp hmem]
    exact List.mem_cons_self

theorem Ring.prev_mem (h : m.Ring head l) (hx : x ∈ head :: l) : m.prev x ∈ head :: l := by
  rcases List.mem_append.mp (h.prev.mem x (by simpa using hx)) with hmem | hmem
  · exact List.mem_cons_of_mem _ (List.mem_reverse.mp hmem)
  · rw [List.mem_singleton.mp hmem]
    exact List.mem_cons_self

/-- The first node of a ring. -/
theorem Ring.next_head (h : m.Ring head l) : m.next head = l.head?.getD head := h.next.head_eq

/-- The links of a node are the same. -/
def Alike (m m' : Links P) (p : P) : Prop := m.next p = m'.next p ∧ m.prev p = m'.prev p

theorem Alike.trans {m'' : Links P} {p : P} (h : m.Alike m' p) (h' : m'.Alike m'' p) :
    m.Alike m'' p := ⟨h.1.trans h'.1, h.2.trans h'.2⟩

theorem Ring.alike (h : m.Ring head l) (hsame : ∀ p ∈ head :: l, m.Alike m' p) : m'.Ring head l :=
  h.congr (fun p hp => (hsame p hp).1) (fun p hp => (hsame p hp).2)

/-- The last node of a ring is the one that the head is linked back to. -/
theorem Ring.prev_head (h : m.Ring head l) : m.prev head = l.getLast?.getD head := by
  rw [h.prev.head_eq, List.head?_reverse]

variable [DecidableEq P]

def setNext (m : Links P) (p q : P) : Links P := { m with next := Function.update m.next p q }

def setPrev (m : Links P) (p q : P) : Links P := { m with prev := Function.update m.prev p q }

@[simp] theorem setNext_prev (m : Links P) (p q : P) : (m.setNext p q).prev = m.prev := rfl

@[simp] theorem setPrev_next (m : Links P) (p q : P) : (m.setPrev p q).next = m.next := rfl

@[simp] theorem setNext_next (m : Links P) (p q : P) :
    (m.setNext p q).next = Function.update m.next p q := rfl

@[simp] theorem setPrev_prev (m : Links P) (p q : P) :
    (m.setPrev p q).prev = Function.update m.prev p q := rfl

theorem alike_setNext {p q r : P} (h : p ≠ q) (hm : m.Alike m' p) : m.Alike (m'.setNext q r) p :=
  ⟨hm.1.trans (Function.update_of_ne h _ _).symm, hm.2⟩

theorem alike_setPrev {p q r : P} (h : p ≠ q) (hm : m.Alike m' p) : m.Alike (m'.setPrev q r) p :=
  ⟨hm.1, hm.2.trans (Function.update_of_ne h _ _).symm⟩

/-- Link a node in between two others. -/
def insert (m : Links P) (x prev next : P) : Links P :=
  (((m.setPrev next x).setNext x next).setPrev x prev).setNext prev x

theorem alike_insert {p q r : P} (hx : p ≠ x) (hq : p ≠ q) (hr : p ≠ r) :
    m.Alike (m.insert x q r) p := by
  refine alike_setNext hq (alike_setPrev hx (alike_setNext hx (alike_setPrev hr ?_)))
  exact ⟨rfl, rfl⟩

/-- Link two nodes over what is between them. -/
def bypass (m : Links P) (prev next : P) : Links P := (m.setPrev next prev).setNext prev next

/-- A node that is in no ring becomes the last one of this. -/
theorem Ring.insert_last (h : m.Ring head l) (hx : x ∉ head :: l) :
    (m.insert x (m.prev head) head).Ring head (l ++ [x]) := by
  have hne : x ≠ head := fun heq => hx (heq ▸ List.mem_cons_self)
  have hnot : x ∉ l := fun hmem => hx (List.mem_cons_of_mem _ hmem)
  have hnodup : (head :: (l ++ [x])).Nodup := by
    rw [← List.cons_append]
    exact List.Nodup.append h.nodup (List.nodup_singleton x) (by simpa using hx)
  refine ⟨?_, ?_, hnodup⟩
  · show LeadsOver (Function.update (Function.update m.next x head) (m.prev head) x) head
      (l ++ [x]) head
    refine LeadsOver.append.mpr ⟨?_, ?_⟩
    · -- the last node before is led to the new one
      rcases List.eq_nil_or_concat l with rfl | ⟨l₀, y, rfl⟩
      · have hprev : m.prev head = head := h.prev
        rw [hprev, LeadsOver, Function.update_self]
      · rw [List.concat_eq_append] at *
        have hprev : m.prev head = y := by
          rw [h.prev_head]
          simp
        rw [hprev]
        refine LeadsOver.update_last ?_ (h.next.update hx)
        intro hy
        have hn : (head :: l₀ ++ [y]).Nodup := h.nodup
        exact (List.nodup_append.mp hn).2.2 y hy y List.mem_cons_self rfl
    · have hneprev : x ≠ m.prev head := by
        rw [h.prev_head]
        intro heq
        apply hx
        rw [heq]
        cases hlast : l.getLast? with
        | none => exact List.mem_cons_self
        | some y => exact List.mem_cons_of_mem _ (List.mem_of_getLast? hlast)
      show Function.update (Function.update m.next x head) (m.prev head) x x = head
      rw [Function.update_of_ne hneprev, Function.update_self]
  · show LeadsOver (Function.update (Function.update m.prev head x) x (m.prev head)) head
      (l ++ [x]).reverse head
    rw [List.reverse_append, List.reverse_singleton, List.singleton_append]
    refine ⟨?_, ?_⟩
    · rw [Function.update_of_ne hne.symm, Function.update_self]
    · -- from the new node on, the way back is the one from the head before
      have hnodup' := List.nodup_cons.mp h.nodup
      cases hrev : l.reverse with
      | nil =>
          have hprev : m.prev head = head := by
            have hp := h.prev
            rwa [hrev] at hp
          rw [LeadsOver, Function.update_self, hprev]
      | cons y r =>
          have hp := h.prev
          rw [hrev] at hp
          have hmem : ∀ z ∈ y :: r, z ∈ l := by
            intro z hz
            rw [← hrev] at hz
            exact List.mem_reverse.mp hz
          refine ⟨?_, ?_⟩
          · rw [Function.update_self]
            exact hp.1
          · refine LeadsOver.update (fun hz => hnot (hmem x hz)) ?_
            exact LeadsOver.update (fun hz => hnodup'.1 (hmem head hz)) hp.2

/-- A node is taken out. -/
theorem Ring.bypass (h : m.Ring head (l₁ ++ x :: l₂)) :
    (m.bypass (m.prev x) (m.next x)).Ring head (l₁ ++ l₂) := by
  have hback : (l₁ ++ x :: l₂).reverse = l₂.reverse ++ x :: l₁.reverse := by simp
  have hprev := h.prev
  rw [hback] at hprev
  have hprevx : m.prev x = l₁.getLast?.getD head := by
    rw [(LeadsOver.append.mp hprev).2.head_eq, List.head?_reverse]
  have hnextx : m.next x = l₂.reverse.getLast?.getD head := by
    rw [(LeadsOver.append.mp h.next).2.head_eq, List.getLast?_reverse]
  refine ⟨?_, ?_, ?_⟩
  · show LeadsOver (Function.update m.next (m.prev x) (m.next x)) head (l₁ ++ l₂) head
    rw [hprevx]
    exact h.next.bypass h.nodup
  · show LeadsOver (Function.update m.prev (m.next x) (m.prev x)) head (l₁ ++ l₂).reverse head
    rw [hnextx, List.reverse_append]
    refine hprev.bypass ?_
    rw [← hback]
    exact List.nodup_cons.mpr
      ⟨fun hmem => (List.nodup_cons.mp h.nodup).1 (List.mem_reverse.mp hmem),
      List.nodup_reverse.mpr (List.nodup_cons.mp h.nodup).2⟩
  · refine h.nodup.sublist (List.Sublist.cons_cons head ?_)
    exact List.Sublist.append_left (List.sublist_cons_self x l₂) l₁

/-- Lead a list over to another head, in front of what is behind this. -/
def splice (m : Links P) (list head : P) : Links P :=
  let first := m.next list
  let last := m.prev list
  let behind := m.next head
  (((m.setPrev first head).setNext head first).setNext last behind).setPrev behind last

/-- A splice leaves the links of the other nodes alone. -/
theorem alike_splice {p list : P} (hfirst : p ≠ m.next list) (hlast : p ≠ m.prev list)
    (hhead : p ≠ head) (hbehind : p ≠ m.next head) : m.Alike (m.splice list head) p := by
  refine alike_setPrev hbehind (alike_setNext hlast (alike_setNext hhead (alike_setPrev hfirst ?_)))
  exact ⟨rfl, rfl⟩

/-- The list of a ring moves to an empty one; its own head still leads to the nodes. -/
theorem Ring.splice (h : m.Ring head l) (hne : l ≠ []) (hempty : m.Ring head' [])
    (hnot : head' ∉ head :: l) :
    (m.splice head head').Ring head' l ∧ (m.splice head head').next head = m.next head := by
  have hnotl : head' ∉ l := fun hmem => hnot (List.mem_cons_of_mem _ hmem)
  have hneh : head ≠ head' := fun heq => hnot (heq ▸ List.mem_cons_self)
  have hhead := (List.nodup_cons.mp h.nodup).1
  have hnodup := (List.nodup_cons.mp h.nodup).2
  have hbehind : m.next head' = head' := hempty.next
  obtain ⟨l₀, y, rfl⟩ := (List.eq_nil_or_concat l).resolve_left hne
  obtain ⟨x, l₁, hl⟩ := List.exists_cons_of_ne_nil hne
  rw [List.concat_eq_append] at *
  have hlast : m.prev head = y := by
    rw [h.prev_head]
    simp
  have hfirst : m.next head = x := by
    rw [h.next_head, hl]
    rfl
  have hnext : (m.splice head head').next =
      Function.update (Function.update m.next head' x) y head' := by
    show Function.update (Function.update m.next head' (m.next head)) (m.prev head)
      (m.next head') = _
    rw [hlast, hfirst, hbehind]
  have hprev : (m.splice head head').prev =
      Function.update (Function.update m.prev x head') head' y := by
    show Function.update (Function.update m.prev (m.next head) head') (m.next head')
      (m.prev head) = _
    rw [hlast, hfirst, hbehind]
  have hyl : y ∈ l₀ ++ [y] := by simp
  have hxl : x ∈ l₀ ++ [y] := by
    rw [hl]
    exact List.mem_cons_self
  have hney : head ≠ y := by
    rintro rfl
    exact hhead hyl
  have hnex : head ≠ x := by
    rintro rfl
    exact hhead hxl
  refine ⟨⟨?_, ?_, List.nodup_cons.mpr ⟨hnotl, hnodup⟩⟩, ?_⟩
  · rw [hnext]
    refine LeadsOver.update_last ?_ (h.next.restart ?_ ?_)
    · intro hy
      rcases List.mem_cons.mp hy with rfl | hy
      · exact hnotl hyl
      · exact (List.nodup_append.mp hnodup).2.2 y hy y List.mem_cons_self rfl
    · rw [Function.update_self, hfirst]
    · intro p hp
      refine Function.update_of_ne ?_ _ _
      rintro rfl
      exact hnotl hp
  · rw [hprev]
    have hrev : (l₀ ++ [y]).reverse = l₁.reverse ++ [x] := by
      rw [hl, List.reverse_cons]
    have hback := h.prev
    rw [hrev] at hback
    rw [hl] at hnodup
    have hx : x ∉ head :: l₁.reverse := by
      intro hx
      rcases List.mem_cons.mp hx with rfl | hx
      · exact hhead hxl
      · exact (List.nodup_cons.mp hnodup).1 (List.mem_reverse.mp hx)
    rw [hrev]
    refine (hback.update_last hx).restart ?_ ?_
    · rw [Function.update_self, Function.update_of_ne hnex, hlast]
    · intro p hp
      refine Function.update_of_ne ?_ _ _
      rintro rfl
      rw [← hrev] at hp
      exact hnotl (List.mem_reverse.mp hp)
  · rw [hnext, Function.update_of_ne hney, Function.update_of_ne hneh, hfirst]

end Links
