import Lash.RemoveTree
import Mathlib.Data.Fintype.EquivFin
import Mathlib.Data.Set.Finite.Lemmas
import Mathlib.Logic.Relation

/-!
# Links to directories

`lash_remove_dir` goes where a link leads to, and cannot remove the link then. Without links to
directories it removes a tree, whatever calls are permitted and in whatever order `readdir` gives
the names. With one from which there is no way back to the link it does not: there is an order of
the names in which the link is come to before anything was removed, and nothing removes it
afterwards (`remove_dir_stays_inside`). If the links lead out of the tree for good, the order does
not matter.

A link with a way back to itself may be removed, because the kernel follows `maxLinks` links only:
the innermost of the nested calls takes it for something else (`self_link_removed`).
-/

namespace Lash

namespace LinkFs

/-! ## Where the links of a tree lead -/

/-- A link in a directory leads to a directory, by the path that goes through it. -/
structure LinkedDir (fs : LinkFs) (d : CStr) (parent : Path) (name : CStr) (names : List CStr)
    (x : Path) : Prop where
  link : ∃ target, fs.kind (parent ++ name :: names) = some (.link target)
  leads : fs.resolve (pathBelow d (name :: names)) = some x
  dir : fs.kind x = some .dir

/-- From a directory to one in it, or to one that a link in it leads to. -/
def Onward (fs : LinkFs) (p q : Path) : Prop :=
  fs.kind q = some .dir ∧ ∃ n, q = p ++ [n] ∨
    (∃ target, fs.kind (p ++ [n]) = some (.link target)) ∧ fs.walkLinks maxLinks p [n] = some q

/-- There is a way from one directory to another. -/
def Reaches (fs : LinkFs) : Path → Path → Prop := Relation.ReflTransGen fs.Onward

/-- From where a link leads to there is no way back to the directory that it is in. -/
def NoWayBack (fs : LinkFs) (d : CStr) (parent : Path) (name : CStr) : Prop :=
  ∀ names x, fs.LinkedDir d parent name names x →
    ¬ fs.Reaches x (parent ++ name :: names).dropLast

section

variable {fs fs' low : LinkFs} {d name : CStr} {parent : Path} {names : List CStr} {x : Path}

theorem noLinkedDirs_of_forall (h : ∀ names x, ¬ fs.LinkedDir d parent name names x) :
    fs.NoLinkedDirs d parent name := by
  intro names target hlink hlinked
  obtain ⟨x, hx, hdir⟩ := Option.bind_eq_some_iff.mp hlinked
  exact h names x ⟨⟨target, hlink⟩, hx, hdir⟩

theorem LinkedDir.mono (h : fs'.LinkedDir d parent name names x) (hle : fs' ≤ fs) :
    fs.LinkedDir d parent name names x := by
  obtain ⟨⟨target, hlink⟩, hx, hdir⟩ := h
  exact ⟨⟨target, hle _ _ hlink⟩, resolve_mono hle hx, hle _ _ hdir⟩

theorem Reaches.mono {p q : Path} (h : fs'.Reaches p q) (hle : fs' ≤ fs) : fs.Reaches p q := by
  refine Relation.ReflTransGen.mono ?_ _ _ h
  rintro p q ⟨hdir, n, hq | ⟨⟨target, hlink⟩, hwalk⟩⟩
  · exact ⟨hle _ _ hdir, n, .inl hq⟩
  · have hwalk := walkLinks_mono hle (Nat.le_refl _) hwalk
    exact ⟨hle _ _ hdir, n, .inr ⟨⟨target, hle _ _ hlink⟩, hwalk⟩⟩

/-- The path that goes down to a directory of the tree leads to it. -/
theorem Leads.treeVisit (h : fs.Leads d parent name) (hwf : fs.Wf)
    (hdir : fs.kind (parent ++ name :: names) = some .dir) :
    fs.TreeVisit d parent name (pathBelow d (name :: names)) (parent ++ name :: names) := by
  refine ⟨names, ?_, rfl, rfl, ?_⟩
  · intro n hn
    exact hwf.plain _ (mem_entries_of_kind (by simp) hdir) n (List.mem_append_right _ hn)
  · have hlink : ∀ t, FileKind.dir ≠ .link t := fun t ht => by cases ht
    induction names using List.reverseRecOn with
    | nil =>
        exact resolve_entry h.1 (h.2 fs fun _ _ => rfl) (hwf.dir_of_kind hdir) hdir hlink
    | append_singleton names n ih =>
        have hsplit : parent ++ name :: (names ++ [n]) = parent ++ name :: names ++ [n] := by simp
        rw [hsplit] at hdir ⊢
        have hn : PlainName n :=
          hwf.plain _ (mem_entries_of_kind (by simp) hdir) n (List.mem_append_right _ (by simp))
        have hup := hwf.dir_of_kind hdir
        rw [← List.cons_append, pathBelow_concat]
        exact resolve_entry hn (ih hup) hup hdir hlink

/-- The link is in a directory of the tree, and leads on from there. -/
theorem LinkedDir.onward (h : fs.LinkedDir d parent name names x) (hwf : fs.Wf)
    (hleads : fs.Leads d parent name) (hdir : fs.kind (parent ++ [name]) = some .dir) :
    fs.Onward (parent ++ name :: names).dropLast x := by
  obtain ⟨⟨target, hlink⟩, hx, hxdir⟩ := h
  rcases List.eq_nil_or_concat names with rfl | ⟨names, n, rfl⟩
  · rw [hdir] at hlink
    cases hlink
  · have hsplit : parent ++ name :: names.concat n = parent ++ name :: names ++ [n] := by simp
    rw [hsplit] at hlink ⊢
    rw [List.dropLast_concat]
    refine ⟨hxdir, n, .inr ⟨⟨target, hlink⟩, ?_⟩⟩
    obtain ⟨-, -, -, -, hres⟩ := hleads.treeVisit hwf (hwf.dir_of_kind hlink)
    rw [List.concat_eq_append, ← List.cons_append, pathBelow_concat] at hx
    have hn : PlainName n :=
      hwf.plain _ (mem_entries_of_kind (by simp) hlink) n (List.mem_append_right _ (by simp))
    obtain ⟨q, hq, -, hwalk⟩ := resolve_fqn hn hx
    obtain rfl := Option.some.inj (hq.symm.trans hres)
    exact hwalk

/-- Where `stat` finds a directory a run goes on to one. -/
theorem enter_onward {dir n : CStr} {p : Path} (hp : fs.resolve dir = some p) (hle : fs' ≤ fs)
    (hn : PlainName n) (hstat : (fs'.stat (lashGetFqn dir n)).1 = some .dir) :
    ∃ y, fs.resolve (lashGetFqn dir n) = some y ∧ fs.Onward p y := by
  obtain ⟨y, hy, hkind⟩ := of_stat hstat
  have hy := resolve_mono hle hy
  obtain ⟨q, hq, -, hwalk⟩ := resolve_fqn hn hy
  obtain rfl := Option.some.inj (hq.symm.trans hp)
  refine ⟨y, hy, hle _ _ hkind, n, ?_⟩
  exact (walkLinks_one hn hwalk).imp And.left (fun hlink => ⟨hlink, hwalk⟩)

/-! ## What is on the way to a link -/

end

/-- What is between the top of the tree and a link, these two included. -/
def OnWay (parent : Path) (name : CStr) (names : List CStr) (y : Path) : Prop :=
  parent ++ [name] <+: y ∧ y <+: parent ++ name :: names

section

variable {fs fs' low : LinkFs} {name : CStr} {parent : Path} {names : List CStr} {target : CStr}
  {y : Path}

/-- A directory on the way to a link that is there is not empty. -/
theorem Midway.way_not_empty (hwf : fs.Wf)
    (hlink : fs.kind (parent ++ name :: names) = some (.link target))
    (hmid : Midway fs low (OnWay parent name names) fs') (hy : OnWay parent name names y)
    (hdir : fs'.kind y = some .dir) : fs'.names y ≠ [] := by
  intro hempty
  obtain ⟨hbelow, rest, hrest⟩ := hy
  cases rest with
  | nil =>
      rw [List.append_nil] at hrest
      have hlinked := hmid.le _ _ hdir
      rw [hrest, hlink] at hlinked
      cases hlinked
  | cons m rest =>
      -- the name that leads on to the link is still there
      have hthere : fs'.kind (y ++ [m]) ≠ none := by
        have hon : OnWay parent name names (y ++ [m]) :=
          ⟨hbelow.trans (List.prefix_append y [m]), rest, by simpa using hrest⟩
        rw [hmid.kept (y ++ [m]) hon]
        have hway : fs.kind (y ++ m :: rest) ≠ none := by
          rw [hrest, hlink]
          simp
        exact hwf.kind_of_below hway
      obtain ⟨k, hk⟩ := Option.ne_none_iff_exists'.mp hthere
      have hmem := mem_names_of_kind hk
      rw [hempty] at hmem
      exact absurd hmem List.not_mem_nil

/-- What is unlinked on the way to a link is the link. -/
theorem Midway.way_unlinked (hwf : fs.Wf)
    (hlink : fs.kind (parent ++ name :: names) = some (.link target))
    (hmid : Midway fs low (OnWay parent name names) fs') (hy : OnWay parent name names y)
    (hfile : fs'.kind y ≠ some .dir) : y = parent ++ name :: names := by
  by_contra hne
  obtain ⟨rest, hrest⟩ := hy.2
  have hnil : rest ≠ [] := by
    rintro rfl
    exact hne (by simpa using hrest)
  rw [hmid.kept y hy] at hfile
  refine hfile (hwf.dir_of_below hnil ?_)
  rw [hrest, hlink]
  simp

end

/-! ## Links that lead out -/

/-- The links of a tree that lead to directories lead to `Out`, whatever else of the tree is
removed, and there is no way back from there. -/
structure LeadsOut (fs : LinkFs) (d : CStr) (parent : Path) (name : CStr) (Out : Path → Prop) :
    Prop where
  outside : ∀ {p}, Out p → ¬ parent ++ [name] <+: p
  down : ∀ {p n}, Out p → fs.kind (p ++ [n]) = some .dir → Out (p ++ [n])
  follow : ∀ {p n target x}, Out p → fs.kind (p ++ [n]) = some (.link target) →
    fs.walkLinks maxLinks p [n] = some x → fs.kind x = some .dir → Out x
  links : ∀ {names target x}, fs.kind (parent ++ name :: names) = some (.link target) →
    fs.resolve (pathBelow d (name :: names)) = some x → fs.kind x = some .dir →
    Out x ∧ ∀ fs' : LinkFs, fs' ≤ fs →
      (∀ y, ¬ parent ++ [name] <+: y ∨ y <+: parent ++ name :: names → fs'.kind y = fs.kind y) →
      fs'.resolve (pathBelow d (name :: names)) = some x

section

variable {fs low : LinkFs} {d name : CStr} {parent : Path} {Out : Path → Prop}

/-- A directory of the tree, or one that a link leads to. -/
def WideVisit (fs : LinkFs) (d : CStr) (parent : Path) (name : CStr) (Out : Path → Prop)
    (dir : CStr) (p : Path) : Prop :=
  fs.TreeVisit d parent name dir p ∨ Out p ∧ fs.resolve dir = some p

theorem WideVisit.resolves {dir : CStr} {p : Path} (h : fs.WideVisit d parent name Out dir p) :
    fs.resolve dir = some p := by
  rcases h with ⟨_, _, _, _, hp⟩ | ⟨-, hp⟩
  · exact hp
  · exact hp

theorem LeadsOut.onward (h : fs.LeadsOut d parent name Out) {p q : Path} (hp : Out p)
    (hpq : fs.Onward p q) : Out q := by
  obtain ⟨hdir, n, rfl | ⟨⟨target, hlink⟩, hwalk⟩⟩ := hpq
  · exact h.down hp hdir
  · exact h.follow hp hlink hwalk hdir

/-- A link that leads out is spared, and so are the directories that it is in. -/
theorem LeadsOut.spares (h : fs.LeadsOut d parent name Out) (hwf : fs.Wf) (hfs : fs.faults = [])
    (hdir : fs.kind (parent ++ [name]) = some .dir) {names : List CStr} {target : CStr} {x : Path}
    (hlink : fs.kind (parent ++ name :: names) = some (.link target))
    (hx : fs.resolve (pathBelow d (name :: names)) = some x) (hxdir : fs.kind x = some .dir)
    (hlow : ∀ y, ¬ parent ++ [name] <+: y → low.kind y = fs.kind y) :
    Spares fs low (fs.WideVisit d parent name Out) (OnWay parent name names) where
  resolves := WideVisit.resolves
  enters := by
    intro fs' dir p n hmid hvisit hn hstat
    rcases hvisit with htree | ⟨hout, hp⟩
    · rcases htree.enter hmid.le hn hstat with hdown | ⟨ms, t, y, hpath, ht, hy, hkind⟩
      · exact ⟨_, .inl hdown⟩
      · exact ⟨y, .inr ⟨(h.links ht (hpath ▸ hy) hkind).1, hy⟩⟩
    · obtain ⟨y, hy, honward⟩ := enter_onward hp hmid.le hn hstat
      exact ⟨y, .inr ⟨h.onward hout honward, hy⟩⟩
  unlinks := by
    intro fs' dir p n hmid hvisit hn hstat _ hfile hon
    have hself := Midway.way_unlinked hwf hlink hmid hon hfile
    rcases hvisit with ⟨ms, -, rfl, rfl, -⟩ | ⟨hout, -⟩
    · -- it is the link, and `stat` follows it
      have hnames : ms ++ [n] = names := by
        rw [List.append_assoc] at hself
        have hcons := List.append_cancel_left hself
        rw [List.cons_append] at hcons
        exact (List.cons.inj hcons).2
      subst hnames
      obtain ⟨hout, hstays⟩ := h.links hlink hx hxdir
      have hsame : ∀ y, ¬ parent ++ [name] <+: y → fs'.kind y = fs.kind y := by
        intro y hy
        cases hk : fs.kind y with
        | none =>
            cases hk' : fs'.kind y with
            | none => rfl
            | some k =>
                rw [hmid.le y k hk'] at hk
                cases hk
        | some k => exact hmid.low_le y k ((hlow y hy).trans hk)
      have hres := hstays fs' hmid.le fun y hy => by
        by_cases hin : parent ++ [name] <+: y
        · exact hmid.kept y ⟨hin, hy.resolve_left (not_not_intro hin)⟩
        · exact hsame y hin
      refine hstat ?_
      rw [← List.cons_append, pathBelow_concat] at hres
      rw [stat_permitted (hmid.permitted hfs), hres, Option.bind_some, hsame x (h.outside hout)]
      exact hxdir
    · -- a directory outside of the tree is not in front of the link
      refine h.outside hout ?_
      rcases List.prefix_concat_iff.mp hon.1 with heq | hpre
      · rw [heq, hself, hlink] at hdir
        cases hdir
      · exact hpre
  empties := by
    exact fun hmid _ _ hydir hempty hon => Midway.way_not_empty hwf hlink hmid hon hydir hempty

end

/-! ## A link that no other link leads to -/

/-- A directory that is reached through a link of the tree. -/
def Beyond (fs : LinkFs) (d : CStr) (parent : Path) (name : CStr) (p : Path) : Prop :=
  ∃ names x, fs.LinkedDir d parent name names x ∧ fs.Reaches x p

/-- A link that leads to a directory, in one that no link of the tree leads to. -/
structure FirstLink (fs : LinkFs) (d : CStr) (parent : Path) (name : CStr) (names : List CStr)
    (x : Path) : Prop extends fs.LinkedDir d parent name names x where
  first : ¬ fs.Beyond d parent name (parent ++ name :: names).dropLast

/-- A directory of the tree beside the way to a link, or one that a link leads to. -/
def AsideVisit (fs : LinkFs) (d : CStr) (parent : Path) (name : CStr) (names : List CStr)
    (dir : CStr) (p : Path) : Prop :=
  fs.TreeVisit d parent name dir p ∧ ¬ p <+: parent ++ name :: names ∨
    fs.Beyond d parent name p ∧ fs.resolve dir = some p

section

variable {fs fs' low : LinkFs} {d name : CStr} {parent : Path} {names : List CStr} {x : Path}

/-- If there is no way back from where the links lead to, one of them is the first. -/
theorem NoWayBack.exists_first (h : fs.NoWayBack d parent name) (hwf : fs.Wf)
    (hleads : fs.Leads d parent name) (hdir : fs.kind (parent ++ [name]) = some .dir)
    (hlink : fs.LinkedDir d parent name names x) :
    ∃ names x, fs.FirstLink d parent name names x := by
  let Link := { names : List CStr // ∃ x, fs.LinkedDir d parent name names x }
  -- one link leads to a directory from which there is a way to the other
  let before : Link → Link → Prop := fun m l =>
    ∃ x, fs.LinkedDir d parent name m.1 x ∧ fs.Reaches x (parent ++ name :: l.1).dropLast
  have hfinite : Finite Link := by
    have hentry : ∀ l : Link, parent ++ name :: l.1 ∈ fs.entries.map Prod.fst := by
      rintro ⟨ms, y, ⟨target, hlink⟩, -, -⟩
      exact List.mem_map_of_mem (mem_entries_of_kind (by simp) hlink)
    apply Finite.of_injective
      (fun l : Link => (⟨_, hentry l⟩ : { p // p ∈ fs.entries.map Prod.fst }))
    intro l m hlm
    have hpaths := List.append_cancel_left (Subtype.mk.inj hlm)
    exact Subtype.ext (List.cons.inj hpaths).2
  have htrans : IsTrans Link before := by
    constructor
    rintro m l k ⟨y, hy, hreach⟩ ⟨z, hz, hreach'⟩
    exact ⟨y, hy, hreach.trans (.head (hz.onward hwf hleads hdir) hreach')⟩
  have hirrefl : Std.Irrefl before := by
    constructor
    rintro ⟨ms, hms⟩ ⟨y, hy, hreach⟩
    exact h ms y hy hreach
  obtain ⟨⟨ms, y, hy⟩, -, hmin⟩ := (Finite.wellFounded_of_trans_of_irrefl before).has_min
    Set.univ ⟨⟨names, x, hlink⟩, trivial⟩
  refine ⟨ms, y, hy, ?_⟩
  rintro ⟨ks, z, hz, hreach⟩
  exact hmin ⟨ks, z, hz⟩ trivial ⟨z, hz, hreach⟩

/-- Beside the way to the first link nothing touches it. -/
theorem FirstLink.spares (h : fs.FirstLink d parent name names x) (hwf : fs.Wf) :
    Spares fs low (fs.AsideVisit d parent name names) (OnWay parent name names) where
  resolves := by
    rintro dir p (⟨⟨_, _, _, _, hp⟩, -⟩ | ⟨-, hp⟩)
    · exact hp
    · exact hp
  enters := by
    intro fs' dir p n hmid hvisit hn hstat
    rcases hvisit with ⟨htree, hnot⟩ | ⟨⟨ms, z, hz, hreach⟩, hp⟩
    · rcases htree.enter hmid.le hn hstat with hdown | ⟨ms, t, y, hpath, ht, hy, hkind⟩
      · exact ⟨_, .inl ⟨hdown, fun hpre => hnot ((List.prefix_append p [n]).trans hpre)⟩⟩
      · exact ⟨y, .inr ⟨⟨ms, y, ⟨⟨t, ht⟩, hpath ▸ hy, hkind⟩, .refl⟩, hy⟩⟩
    · obtain ⟨y, hy, honward⟩ := enter_onward hp hmid.le hn hstat
      exact ⟨y, .inr ⟨⟨ms, z, hz, hreach.tail honward⟩, hy⟩⟩
  unlinks := by
    intro fs' dir p n hmid hvisit _ _ _ hfile hon
    obtain ⟨target, hlink⟩ := h.link
    have hself := Midway.way_unlinked hwf hlink hmid hon hfile
    rcases hvisit with ⟨-, hnot⟩ | ⟨hbeyond, -⟩
    · exact hnot ((List.prefix_append p [n]).trans hon.2)
    · apply h.first
      rw [← hself, List.dropLast_concat]
      exact hbeyond
  empties := by
    obtain ⟨target, hlink⟩ := h.link
    exact fun hmid _ _ hydir hempty hon => Midway.way_not_empty hwf hlink hmid hon hydir hempty

end

/-! ## An order in which the first link stays -/

/-- What leads to an entry is given first, and everything is permitted. -/
def wayFirst (fs : LinkFs) (p : Path) : LinkFs where
  entries := fs.entries.filter (fun e => e.1 <+: p) ++ fs.entries.filter (fun e => !(e.1 <+: p))
  faults := []

section

variable {fs fs' : LinkFs} {d name : CStr} {parent : Path} {names : List CStr} {x : Path}

theorem wayFirst_perm (fs : LinkFs) (p : Path) : (fs.wayFirst p).entries.Perm fs.entries :=
  List.filter_append_perm _ fs.entries

/-- Only one name in a directory leads on to an entry below it. -/
theorem prefix_concat_unique {p q : Path} {n m : CStr} (hn : p ++ [n] <+: q) (hm : p ++ [m] <+: q) :
    n = m := by
  have hpre := List.prefix_of_prefix_length_le hn hm (by simp)
  simpa using (List.prefix_append_right_inj p).mp hpre

/-- The name that leads on comes first. -/
theorem names_wayFirst {p q : Path} {n : CStr} (hn : fs.kind (p ++ [n]) ≠ none)
    (hpre : p ++ [n] <+: q) : ∃ others, (fs.wayFirst q).names p = n :: others := by
  let way : LinkFs := ⟨fs.entries.filter (fun e => e.1 <+: q), []⟩
  let rest : LinkFs := ⟨fs.entries.filter (fun e => !(e.1 <+: q)), []⟩
  have hsplit : (fs.wayFirst q).names p = way.names p ++ rest.names p := List.filterMap_append
  obtain ⟨k, hk⟩ := Option.ne_none_iff_exists'.mp hn
  have hmem : n ∈ way.names p := mem_names.mpr
    ⟨k, List.mem_filter.mpr ⟨mem_entries_of_kind (by simp) hk, by simpa using hpre⟩⟩
  have honly : ∀ m ∈ way.names p, m = n := by
    intro m hm
    obtain ⟨k, hk⟩ := mem_names.mp hm
    have hm : p ++ [m] <+: q := by simpa using (List.mem_filter.mp hk).2
    exact prefix_concat_unique hm hpre
  rw [hsplit]
  cases hway : way.names p with
  | nil =>
      rw [hway] at hmem
      exact absurd hmem List.not_mem_nil
  | cons m others =>
      rw [honly m (by rw [hway]; exact List.mem_cons_self)]
      exact ⟨others ++ rest.names p, rfl⟩

/-- A name on the way to the link leads to a directory: the next one, or the one that the link leads
to. -/
theorem FirstLink.leads_on (h : fs.FirstLink d parent name names x) (hwf : fs.Wf)
    (hleads : fs.Leads d parent name) {ms rest : List CStr} {n : CStr}
    (hms : names = ms ++ n :: rest) :
    (fs.resolve (pathBelow d (name :: (ms ++ [n])))).bind fs.kind = some .dir := by
  cases rest with
  | nil =>
      rw [← hms, h.leads]
      exact h.dir
  | cons m rest =>
      have hsplit : parent ++ name :: names = parent ++ name :: (ms ++ [n]) ++ m :: rest := by
        rw [hms]
        simp
      obtain ⟨target, hlink⟩ := h.link
      have hdir : fs.kind (parent ++ name :: (ms ++ [n])) = some .dir := by
        apply hwf.dir_of_below (List.cons_ne_nil m rest)
        rw [← hsplit, hlink]
        simp
      obtain ⟨-, -, -, -, hres⟩ := hleads.treeVisit hwf hdir
      rw [hres]
      exact hdir

/-- The names beside the way to the link do not matter. -/
theorem FirstLink.midway_beside (h : fs.FirstLink d parent name names x) (hwf : fs.Wf)
    {dir : CStr} {p : Path} (hvisit : fs.TreeVisit d parent name dir p) {others : List CStr}
    (hplain : ∀ m ∈ others, PlainName m)
    (hbeside : ∀ m ∈ others, ¬ p ++ [m] <+: parent ++ name :: names) {depth : Nat}
    {r : Bool × LinkFs} (hmid : Midway fs empty (OnWay parent name names) fs')
    (hrun : removeEntries (lashRemoveDir depth) dir fs' others = some r) :
    Midway fs empty (OnWay parent name names) r.2 := by
  have hres : fs.resolve dir = some p := hvisit.choose_spec.2.2.2
  refine @Midway.removeEntries _ _ (fs.AsideVisit d parent name names) _ _ ?_
    (fun _ _ _ => lashRemoveDir_shrinks) _ _ hres _ hplain ?_ ?_ _ hmid _ hrun (empty_le r.2)
  · exact fun haside hmid hgo hlow => Midway.lashRemoveDir (h.spares hwf) haside hmid hgo hlow
  · intro m hm fs₁ hmid₁ hstat
    rcases hvisit.enter hmid₁.le (hplain m hm) hstat with hdown | ⟨ks, t, y, hky, ht, hy, hkind⟩
    · exact ⟨_, .inl ⟨hdown, hbeside m hm⟩⟩
    · exact ⟨y, .inr ⟨⟨ks, y, ⟨⟨t, ht⟩, hky ▸ hy, hkind⟩, .refl⟩, hy⟩⟩
  · exact fun m hm _ _ _ _ _ hon => hbeside m hm hon.2

/-- **The first link stays** if the names that lead to it are given first: at that time it leads to
a directory, and whatever is removed there or afterwards is beside the way to it. -/
theorem FirstLink.midway (h : fs.FirstLink d parent name names x) (hwf : fs.Wf)
    (hleads : fs.Leads d parent name) (hfs : fs.faults = [])
    (hway : ∀ p n, p ++ [n] <+: parent ++ name :: names → fs.kind (p ++ [n]) ≠ none →
      ∃ others, fs.names p = n :: others)
    {depth : Nat} {ms rest : List CStr} {n : CStr} (hms : names = ms ++ n :: rest)
    (hrun : lashRemoveDir depth fs (pathBelow d (name :: ms)) = some fs') :
    Midway fs empty (OnWay parent name names) fs' := by
  obtain ⟨target, hlink⟩ := h.link
  induction depth generalizing ms n rest fs' with
  | zero => cases hrun
  | succ depth ih =>
      have hthere : fs.kind (parent ++ name :: ms ++ n :: rest) ≠ none := by
        rw [show parent ++ name :: ms ++ n :: rest = parent ++ name :: names by simp [hms], hlink]
        simp
      have hnpre : parent ++ name :: ms ++ [n] <+: parent ++ name :: names := ⟨rest, by simp [hms]⟩
      have hdir := hwf.dir_of_below (List.cons_ne_nil n rest) hthere
      have htree := hleads.treeVisit hwf hdir
      have hres : fs.resolve (pathBelow d (name :: ms)) = some (parent ++ name :: ms) :=
        htree.choose_spec.2.2.2
      obtain ⟨others, hnames⟩ := hway _ n hnpre (hwf.kind_of_below hthere)
      have hopen : fs.opendir (pathBelow d (name :: ms)) = (some (n :: others), fs) := by
        rw [opendir, hres]
        dsimp only
        rw [if_neg (by simp [fault_of_permitted hfs, hdir]), next_of_permitted hfs, hnames]
      have hpath : lashGetFqn (pathBelow d (name :: ms)) n = pathBelow d (name :: (ms ++ [n])) := by
        rw [← List.cons_append, pathBelow_concat]
      rw [lashRemoveDir, hopen] at hrun
      obtain ⟨⟨ok, fs₁⟩, hloop, hlast⟩ := Option.map_eq_some_iff.mp hrun
      rw [removeEntries, stat_permitted hfs, hpath] at hloop
      dsimp only at hloop hlast
      rw [if_pos (h.leads_on hwf hleads hms)] at hloop
      obtain ⟨fs₂, hsub, hrest⟩ := Option.bind_eq_some_iff.mp hloop
      have hdown : Midway fs empty (OnWay parent name names) fs₂ := by
        cases rest with
        | nil =>
            -- behind the link
            rw [← hms] at hsub
            refine Midway.lashRemoveDir (h.spares hwf) (.inr ⟨?_, h.leads⟩) ?_ hsub (empty_le fs₂)
            · exact ⟨names, x, h.toLinkedDir, .refl⟩
            · exact ⟨empty_le fs, le_refl fs, hwf, id, fun _ _ => rfl⟩
        | cons m rest => exact ih (show names = ms ++ [n] ++ m :: rest by simp [hms]) hsub
      have hnodup := hwf.names_nodup (parent ++ name :: ms)
      have hplain : ∀ m ∈ fs.names (parent ++ name :: ms), PlainName m :=
        fun m hm => hwf.plainName hm
      rw [hnames] at hnodup hplain
      have hmid := h.midway_beside hwf htree (fun m hm => hplain m (List.mem_cons_of_mem n hm))
        (fun m hm hpre => (List.nodup_cons.mp hnodup).1 (prefix_concat_unique hnpre hpre ▸ hm))
        hdown hrest
      split_ifs at hlast with hok
      · subst hlast
        refine hmid.of_shrinks (shrinks_rmdir _ _) (empty_le _) (fun y hy => ?_)
        rcases rmdir_cases fs₁ (pathBelow d (name :: ms)) with he | ⟨z, -, hzdir, hempty, he⟩
        · rw [he]
          rfl
        · rw [he]
          refine kind_del_ne _ ?_
          rintro rfl
          exact Midway.way_not_empty hwf hlink hmid hy hzdir hempty
      · subst hlast
        exact hmid

end

/-! ## When it stays inside -/

section

variable {fs fs' : LinkFs} {d name : CStr} {parent : Path} {names : List CStr} {x : Path}

theorem FirstLink.congr (h : fs.FirstLink d parent name names x) (hle : fs' ≤ fs) (hge : fs ≤ fs') :
    fs'.FirstLink d parent name names x where
  toLinkedDir := h.toLinkedDir.mono hge
  first := by
    rintro ⟨ms, y, hy, hreach⟩
    exact h.first ⟨ms, y, hy.mono hle, hreach.mono hle⟩

theorem Leads.congr (h : fs.Leads d parent name) (hkind : ∀ p, fs'.kind p = fs.kind p) :
    fs'.Leads d parent name :=
  ⟨h.1, fun fs₁ hfs₁ => h.2 fs₁ (fun x hx => (hfs₁ x hx).trans (hkind x))⟩

/-- A link that leads to a directory from which there is no way back keeps the tree. -/
theorem NoWayBack.noLinkedDirs (h : fs.NoWayBack d parent name) (hwf : fs.Wf)
    (hleads : fs.Leads d parent name) (hdir : fs.kind (parent ++ [name]) = some .dir)
    (hremoves : fs.RemovesTree d parent name) : fs.NoLinkedDirs d parent name := by
  apply noLinkedDirs_of_forall
  intro names x hlinked
  obtain ⟨names, x, hfirst⟩ := h.exists_first hwf hleads hdir hlinked
  -- the run in which the first link is come to at once
  let fs₀ := fs.wayFirst (parent ++ name :: names)
  have hperm : fs₀.entries.Perm fs.entries := wayFirst_perm fs _
  have hkind : ∀ p, fs₀.kind p = fs.kind p := hwf.kind_perm hperm
  have hfirst₀ : fs₀.FirstLink d parent name names x := by
    apply hfirst.congr
    · exact fun p k hk => (hkind p).symm.trans hk
    · exact fun p k hk => (hkind p).trans hk
  obtain ⟨depth, fs', hrun, -, hgone⟩ := hremoves fs₀ hperm
  obtain ⟨target, hlink⟩ := hfirst.link
  obtain ⟨n, rest, rfl⟩ : ∃ n rest, names = n :: rest := by
    cases names with
    | nil =>
        rw [hdir] at hlink
        cases hlink
    | cons n rest => exact ⟨n, rest, rfl⟩
  have hmid := hfirst₀.midway (hwf.perm hperm) (hleads.congr hkind) rfl
    (fun p m hpre hm => names_wayFirst (by rwa [hkind] at hm) hpre) (List.nil_append _).symm
    (hrun depth (Nat.le_refl _))
  have hkept := hmid.kept (parent ++ [name]) ⟨List.prefix_refl _, n :: rest, by simp⟩
  rw [hgone rfl, hkind, hdir] at hkept
  cases hkept

/-- A link that leads out for good keeps the tree in every order. -/
theorem LeadsOut.noLinkedDirs {Out : Path → Prop} (h : fs.LeadsOut d parent name Out)
    (hwf : fs.Wf) (hleads : fs.Leads d parent name) (hdir : fs.kind (parent ++ [name]) = some .dir)
    (hfs : fs.faults = []) (hruns : fs.RunsInside d parent name) :
    fs.NoLinkedDirs d parent name := by
  have hway := resolve_entry hleads.1 (hleads.2 fs fun _ _ => rfl) (hwf.dir_of_kind hdir) hdir
    (fun t ht => by cases ht)
  obtain ⟨depth, fs', hrun, hframe, hgone⟩ := hruns
  intro names target hlink hlinked
  obtain ⟨x, hx, hxdir⟩ := Option.bind_eq_some_iff.mp hlinked
  have hshrinks := lashRemoveDir_shrinks (hrun depth (Nat.le_refl _))
  -- nothing outside was removed, so the link led out all the time
  have hlow : ∀ y, ¬ parent ++ [name] <+: y → fs'.kind y = fs.kind y := by
    intro y hy
    cases hk : fs.kind y with
    | none =>
        cases hk' : fs'.kind y with
        | none => rfl
        | some k =>
            rw [hshrinks.le y k hk'] at hk
            cases hk
    | some k =>
        cases hk' : fs'.kind y with
        | none => exact absurd (hframe y (by rw [hk]; simp) hk') hy
        | some k' => rw [← hk, hshrinks.le y k' hk']
  have hspares := h.spares hwf hfs hdir hlink hx hxdir hlow
  have hvisit : fs.WideVisit d parent name Out (lashGetFqn d name) (parent ++ [name]) :=
    .inl ⟨[], by simpa using hleads.1, rfl, rfl, hway⟩
  have hstart : Midway fs fs' (OnWay parent name names) fs :=
    ⟨hshrinks.le, le_refl fs, hwf, id, fun _ _ => rfl⟩
  have hend := Midway.lashRemoveDir hspares hvisit hstart (hrun depth (Nat.le_refl _))
      (le_refl fs')
  have hkept := hend.kept (parent ++ name :: names) ⟨⟨names, by simp⟩, List.prefix_refl _⟩
  have hthere : fs'.kind (parent ++ name :: names) ≠ none := by
    rw [hkept, hlink]
    simp
  exact hend.wf.kind_of_below hthere (hgone hfs)

end

/-- **`lash_remove_dir` removes a tree and nothing else if no link in it leads to a directory**,
whatever calls are permitted and in whatever order the names are given. If from where the links
lead to there is no way back to them, it does so only then; and if they lead out of the tree for
good, no run that is permitted everything does so otherwise. -/
theorem remove_dir_stays_inside {fs : LinkFs} (hwf : fs.Wf) {d name : CStr} {parent : Path}
    (hleads : fs.Leads d parent name) (hdir : fs.kind (parent ++ [name]) = some .dir) :
    (fs.NoLinkedDirs d parent name → fs.RemovesTree d parent name) ∧
    (fs.NoWayBack d parent name → fs.RemovesTree d parent name → fs.NoLinkedDirs d parent name) ∧
    (fs.faults = [] → (∃ Out, fs.LeadsOut d parent name Out) → fs.RunsInside d parent name →
      fs.NoLinkedDirs d parent name) := by
  refine ⟨?_, ?_, ?_⟩
  · intro hlinks fs₀ hperm
    have hkind := hwf.kind_perm hperm
    have hle : fs₀ ≤ fs := fun p k hk => (hkind p).symm.trans hk
    exact (hlinks.mono hle).runsInside (hwf.perm hperm) (hleads.congr hkind)
      ((hkind _).trans hdir)
  · exact fun hback hremoves => hback.noLinkedDirs hwf hleads hdir hremoves
  · rintro hfs ⟨Out, hout⟩ hruns
    exact hout.noLinkedDirs hwf hleads hdir hfs hruns

/-! ## Paths of directories -/

/-- **Every directory has a path**: the names of the directories that it is in. -/
theorem Wf.leads {fs : LinkFs} (h : fs.Wf) {parent : Path} {name : CStr}
    (hdir : fs.kind (parent ++ [name]) = some .dir) :
    fs.Leads (pathBelow [] parent) parent name := by
  have hplain : ∀ n ∈ parent ++ [name], PlainName n :=
    h.plain _ (mem_entries_of_kind (by simp) hdir)
  refine ⟨hplain name (by simp), fun fs' hfs' => ?_⟩
  -- each directory on the way is found in the one before it
  have hway : ∀ p, p <+: parent → fs'.resolve (pathBelow [] p) = some p := by
    intro p
    induction p using List.reverseRecOn with
    | nil => exact fun _ => rfl
    | append_singleton p n ih =>
        intro hp
        have hkeep : ∀ q, q <+: parent → fs'.kind q = some .dir := by
          rintro q ⟨rest, rfl⟩
          rw [hfs' q]
          · have hbelow : fs.kind (q ++ (rest ++ [name])) ≠ none := by
              rw [← List.append_assoc, hdir]
              simp
            exact h.dir_of_below (by simp) hbelow
          · intro hpre
            have hlen := hpre.length_le
            simp only [List.length_append, List.length_singleton] at hlen
            omega
        have hn : PlainName n := hplain n (List.mem_append_left _ (hp.subset (by simp)))
        have hprev := (List.prefix_append p [n]).trans hp
        rw [pathBelow_concat]
        exact resolve_entry hn (ih hprev) (hkeep p hprev) (hkeep _ hp) (fun t ht => by cases ht)
  exact hway parent (List.prefix_refl parent)

/-- A directory with a link to another one, and a file in that. -/
def linkedFs : LinkFs where
  entries := [([cstr "d"], .dir), ([cstr "d", cstr "l"], .link (cstr "/x")), ([cstr "x"], .dir),
    ([cstr "x", cstr "f"], .file)]
  faults := []

/-- The file behind the link is removed. -/
theorem file_behind_link_removed : ¬ linkedFs.RemovesTree [] [] (cstr "d") := by
  intro hremoves
  obtain ⟨depth, fs', hrun, hframe, -⟩ := hremoves linkedFs (List.Perm.refl _)
  have hthree : (lashRemoveDir 3 linkedFs (lashGetFqn [] (cstr "d"))).map (fun fs => fs.entries)
      = some [([cstr "d"], .dir), ([cstr "d", cstr "l"], .link (cstr "/x")),
        ([cstr "x"], .dir)] := by
    decide +kernel
  obtain ⟨fs₁, hrun₁, hentries⟩ := Option.map_eq_some_iff.mp hthree
  have hmore := lashRemoveDir_mono (Nat.le_max_right depth 3) hrun₁
  rw [hrun _ (Nat.le_max_left depth 3)] at hmore
  obtain rfl := Option.some.inj hmore
  refine absurd (hframe [cstr "x", cstr "f"] (by decide +kernel) ?_) (by decide +kernel)
  rw [kind, hentries]
  decide +kernel

/-- A directory with a link to itself. -/
def loopFs : LinkFs where
  entries := [([cstr "d"], .dir), ([cstr "d", cstr "l"], .link (cstr "/d"))]
  faults := []

/-- It is removed: where the kernel follows the link no more, the link is unlinked. -/
theorem self_link_removed :
    loopFs.RunsInside [] [] (cstr "d") ∧ ¬ loopFs.NoLinkedDirs [] [] (cstr "d") := by
  constructor
  · have hrun : (lashRemoveDir 42 loopFs (lashGetFqn [] (cstr "d"))).map (fun fs => fs.entries)
        = some [] := by
      decide +kernel
    obtain ⟨fs', hfs', hentries⟩ := Option.map_eq_some_iff.mp hrun
    have hgone : ∀ x, x ≠ [] → fs'.kind x = none := by
      intro x hx
      rw [kind, if_neg hx, hentries]
      rfl
    refine ⟨42, fs', fun n hn => lashRemoveDir_mono hn hfs', fun x hx hnone => ?_, fun _ => ?_⟩
    · have hall : ∀ e ∈ loopFs.entries, [cstr "d"] <+: e.1 := by decide +kernel
      obtain ⟨k, hk⟩ := Option.ne_none_iff_exists'.mp hx
      refine hall _ (mem_entries_of_kind ?_ hk)
      rintro rfl
      rw [kind_root] at hnone
      cases hnone
    · exact hgone _ (by simp)
  · intro h
    exact h [cstr "l"] (cstr "/d") (by decide +kernel) (by decide +kernel)

/-- A directory with a file and a link to a file outside. -/
def tidyFs : LinkFs where
  entries := [([cstr "d"], .dir), ([cstr "d", cstr "a"], .file),
    ([cstr "d", cstr "l"], .link (cstr "/f")), ([cstr "f"], .file)]
  faults := []

theorem tidyFs_wf : tidyFs.Wf where
  nodup := by decide +kernel
  ne_nil := by decide +kernel
  plain := by decide +kernel
  inDir := by decide +kernel

/-- It is removed, and the file outside is not. -/
theorem remove_dir_stays_inside_tidy : tidyFs.RemovesTree [] [] (cstr "d") := by
  have hdir : tidyFs.kind ([] ++ [cstr "d"]) = some .dir := by decide +kernel
  refine (remove_dir_stays_inside tidyFs_wf (tidyFs_wf.leads hdir) hdir).1 ?_
  intro names target hlink
  have hmem := mem_entries_of_kind (by simp) hlink
  have hall : ∀ e ∈ tidyFs.entries, e.2 = .dir ∨ e.2 = .file ∨ e.1 = [cstr "d", cstr "l"] := by
    decide +kernel
  rcases hall _ hmem with h | h | h
  · cases h
  · cases h
  · have hnames : names = [cstr "l"] := by simpa using h
    rw [hnames]
    decide +kernel

end LinkFs

end Lash
