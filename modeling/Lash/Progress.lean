import Mathlib.Algebra.Order.BigOperators.Group.List
import Mathlib.Algebra.Order.Ring.Nat
import Lash.Gauge
import Lash.Lib.Runs

/-!
# The accounts of a task

`client_tasks_progress` is to be the sum over the clients that a task counts of how far each of
them is. It is kept by adding and subtracting readings, and a client's own reading
(`task_progress`) is reset elsewhere. `Ledger` is what the sum is to be taken over: the counted
clients with the progress each has reached, written down beside the run. The theorem says which
steps keep the two together.
-/

namespace Lash

/-- The clients that a task counts, with the progress each has reached. -/
abbrev Ledger := List (Addr × Nat)

namespace Ledger

/-- No client has done anything yet. -/
def fresh (cs : List Client) : Ledger := cs.map (fun c => (c.addr, 0))

def total (l : Ledger) : Nat := (l.map Prod.snd).sum

/-- A counted client is at `n` percent. -/
def mark (l : Ledger) (x : Addr) (n : Nat) : Ledger := Keyed.put Prod.fst (x, n) l

theorem total_fresh (cs : List Client) : (fresh cs).total = 0 := by
  induction cs with
  | nil => rfl
  | cons c cs ih =>
      show 0 + (fresh cs).total = 0
      rw [ih]

theorem keys_fresh (cs : List Client) : (fresh cs).map Prod.fst = cs.map Client.addr := by
  unfold fresh
  rw [List.map_map]
  rfl

theorem total_le {l : Ledger} (h : ∀ e ∈ l, e.2 ≤ 100) : l.total ≤ 100 * l.length := by
  induction l with
  | nil => exact Nat.le_refl 0
  | cons e l ih =>
      have hhead := h e List.mem_cons_self
      have htail := ih (fun e he => h e (List.mem_cons_of_mem _ he))
      have htotal : Ledger.total (e :: l) = e.2 + Ledger.total l := rfl
      rw [htotal, List.length_cons]
      omega

theorem le_total {l : Ledger} {x : Addr} {n : Nat} (h : (x, n) ∈ l) : n ≤ l.total :=
  List.le_sum_of_mem (List.mem_map_of_mem (f := Prod.snd) h)

theorem mark_le {l : Ledger} (h : ∀ e ∈ l, e.2 ≤ 100) {x : Addr} {n : Nat} (hn : n ≤ 100) :
    ∀ e ∈ l.mark x n, e.2 ≤ 100 := by
  intro e he
  rcases Keyed.eq_or_mem_of_mem_put he with rfl | he
  · exact hn
  · exact h e he

theorem mark_of_not_mem {l : Ledger} {x : Addr} (h : x ∉ l.map Prod.fst) (n : Nat) :
    l.mark x n = l :=
  Keyed.put_of_not_mem h

/-- A mark moves the total by what it changes. -/
theorem total_mark {l : Ledger} (hl : (l.map Prod.fst).Nodup) {x : Addr} {m : Nat} (hx : (x, m) ∈ l)
    (n : Nat) : (l.mark x n).total + m = l.total + n :=
  Keyed.sum_map_put (f := Prod.snd) hl hx rfl

end Ledger

/-! ## Gauges and ledgers -/

namespace Gauge

variable {g : Gauge} {l : Ledger}

/-- A gauge and a ledger that agree. -/
structure Balanced (g : Gauge) (l : Ledger) : Prop where
  keys : (l.map Prod.fst).Nodup
  idle : g.task = .idle → l = []
  length : l.length ≤ g.total
  le : ∀ e ∈ l, e.2 ≤ 100
  progress : g.progress = l.total

theorem Balanced.idle_new (n : Nat) : (Gauge.new .idle n).Balanced [] where
  keys := List.nodup_nil
  idle := fun _ => rfl
  length := Nat.zero_le _
  le := fun _ he => absurd he List.not_mem_nil
  progress := rfl

/-- A task starts with a fresh ledger. -/
theorem Balanced.fresh {task : TaskType} (htask : task ≠ .idle) {cs : List Client}
    (h : (cs.map Client.addr).Nodup) : (Gauge.new task cs.length).Balanced (Ledger.fresh cs) where
  keys := by
    rw [Ledger.keys_fresh]
    exact h
  idle := fun hidle => absurd hidle htask
  length := by
    unfold Ledger.fresh
    rw [List.length_map]
    exact Nat.le_refl _
  le := by
    intro e he
    obtain ⟨c, -, rfl⟩ := List.mem_map.mp he
    exact Nat.zero_le _
  progress := by
    rw [Ledger.total_fresh]
    rfl

/-- The sum is never more than a hundred for every client of the task. -/
theorem Balanced.bound (h : g.Balanced l) : g.progress ≤ 100 * g.total := by
  have hle := Ledger.total_le h.le
  have hlength := h.length
  rw [h.progress]
  omega

/-- A reading of a client that stood at `old` before: the sum does not become negative, and the mean
that is announced fits a byte. -/
structure Fits (g : Gauge) (old n : Nat) : Prop where
  subtract : (old : Int) ≤ g.progress
  divide : g.total ≠ 0 → (g.progress - old + n) / g.total < 256

/-- The mean fits whatever is measured: one reading adds no more than a hundred. -/
theorem Balanced.fits_iff (h : g.Balanced l) {old n : Nat} (hn : n ≤ 100) :
    g.Fits old n ↔ (old : Int) ≤ g.progress := by
  refine ⟨fun hf => hf.subtract, fun hsub => ⟨hsub, fun htotal => ?_⟩⟩
  have hbound := h.bound
  apply Int.ediv_lt_of_lt_mul
  · omega
  · omega

/-- A gauge that measures one client anew, with the ledger that has it marked. -/
theorem Balanced.mark (h : g.Balanced l) {x : Addr} {n : Nat} (hn : n ≤ 100) {g' : Gauge}
    (htask : g'.task = g.task) (htotal : g'.total = g.total)
    (hprogress : g'.progress = (l.mark x n).total) : g'.Balanced (l.mark x n) where
  keys := by
    unfold Ledger.mark
    rw [Keyed.map_key_put]
    exact h.keys
  idle := by
    intro hidle
    rw [h.idle (htask.symm.trans hidle)]
    rfl
  length := by
    unfold Ledger.mark
    rw [Keyed.length_put, htotal]
    exact h.length
  le := Ledger.mark_le h.le hn
  progress := hprogress

/-- While no task is under way no client is counted. -/
theorem Balanced.mark_idle (h : g.Balanced l) (x : Addr) (n : Nat) :
    (if g.task = .idle then [] else l.mark x n) = l.mark x n := by
  split
  · next hidle =>
      rw [h.idle hidle]
      rfl
  · rfl

/-- The gauge after a reading. -/
def read (g : Gauge) (old n : Nat) (complete : Bool) : Gauge :=
  if complete then (g.measure old n).count else g.measure old n

/-- The reading is the last one of the task. -/
def Ends (g : Gauge) (complete : Bool) : Prop := complete = true ∧ g.pending = 1

theorem read_of_ends {old n : Nat} {complete : Bool} (h : g.Ends complete) :
    g.read old n complete = ⟨.idle, 0, 0, 0⟩ := by
  unfold read count
  rw [if_pos h.1, pending_measure, h.2]
  rfl

theorem read_of_not_ends (old n : Nat) {complete : Bool} (h : ¬ g.Ends complete) :
    (g.read old n complete).task = g.task ∧ (g.read old n complete).total = g.total ∧
      (g.read old n complete).progress = g.progress - old + n := by
  unfold read
  by_cases hcomplete : complete = true
  · have hpending : g.pending ≠ 1 := fun h1 => h ⟨hcomplete, h1⟩
    rw [if_pos hcomplete]
    unfold count
    rw [pending_measure, if_neg hpending]
    split
    · exact ⟨rfl, rfl, rfl⟩
    · exact ⟨rfl, rfl, rfl⟩
  · rw [if_neg hcomplete]
    exact ⟨rfl, rfl, rfl⟩

/-- A reading that the accounts stand: the client is counted with what it is measured against, or
it is not counted and brings nothing, or it completes the task, whose sum is not looked at any
more. -/
def Stands (g : Gauge) (l : Ledger) (x : Addr) (old n : Nat) (complete : Bool) : Prop :=
  (x, old) ∈ l ∨
    (old : Int) ≤ g.progress ∧ (g.Ends complete ∨ x ∉ l.map Prod.fst ∧ n = old)

/-- **A reading**: gauge and ledger agree afterwards, and nothing overflows, exactly if the accounts
stand it. -/
theorem Balanced.read_iff (h : g.Balanced l) (x : Addr) (old : Nat) {n : Nat} (hn : n ≤ 100)
    (complete : Bool) :
    ((g.read old n complete).progress =
        (if (g.read old n complete).task = .idle then [] else l.mark x n : Ledger).total ∧
      g.Fits old n) ↔ g.Stands l x old n complete := by
  rw [h.fits_iff hn]
  have hcounted : (x, old) ∈ l → (old : Int) ≤ g.progress := by
    intro hx
    have hle := Ledger.le_total hx
    rw [h.progress]
    omega
  by_cases hends : g.Ends complete
  · rw [read_of_ends hends, if_pos rfl]
    constructor
    · rintro ⟨-, hsub⟩
      exact Or.inr ⟨hsub, Or.inl hends⟩
    · rintro (hx | ⟨hsub, -⟩)
      · exact ⟨rfl, hcounted hx⟩
      · exact ⟨rfl, hsub⟩
  · obtain ⟨htask, -, hprogress⟩ := read_of_not_ends old n hends
    rw [htask, hprogress, h.mark_idle, h.progress]
    by_cases hkey : x ∈ l.map Prod.fst
    · -- the client is counted: it has to stand at what the ledger says
      obtain ⟨⟨y, m⟩, hmem, rfl⟩ := List.mem_map.mp hkey
      have hmark := Ledger.total_mark h.keys hmem n
      have hle := Ledger.le_total hmem
      dsimp only
      constructor
      · rintro ⟨hsum, -⟩
        have hold : old = m := by omega
        rw [hold]
        exact Or.inl hmem
      · rintro (hx | ⟨-, hends' | ⟨hnot, -⟩⟩)
        · have hm := Keyed.eq_of_key_eq h.keys hx hmem rfl
          obtain ⟨-, hold⟩ := Prod.mk.inj hm
          constructor
          · omega
          · omega
        · exact absurd hends' hends
        · exact absurd hkey hnot
    · rw [Ledger.mark_of_not_mem hkey]
      constructor
      · rintro ⟨hsum, hsub⟩
        refine Or.inr ⟨by rw [h.progress]; exact hsub, Or.inr ⟨hkey, ?_⟩⟩
        omega
      · rintro (hx | ⟨hsub, hends' | ⟨-, hsame⟩⟩)
        · exact absurd (List.mem_map_of_mem (f := Prod.fst) hx) hkey
        · exact absurd hends' hends
        · rw [h.progress] at hsub
          constructor
          · omega
          · exact hsub

theorem Balanced.read (h : g.Balanced l) {x : Addr} {old n : Nat} (hn : n ≤ 100) {complete : Bool}
    (hprogress : (g.read old n complete).progress =
      (if (g.read old n complete).task = .idle then [] else l.mark x n : Ledger).total) :
    (g.read old n complete).Balanced
      (if (g.read old n complete).task = .idle then [] else l.mark x n) := by
  by_cases hends : g.Ends complete
  · rw [read_of_ends hends, if_pos rfl]
    exact Balanced.idle_new 0
  · obtain ⟨htask, htotal, -⟩ := read_of_not_ends old n hends
    rw [htask, h.mark_idle] at hprogress ⊢
    exact h.mark hn htask htotal hprogress

/-- A client that starts again does not change the total exactly if it had not begun. -/
theorem Balanced.reload_iff (h : g.Balanced l) (x : Addr) :
    (g.progress = (if g.task = .idle then [] else l.mark x 0 : Ledger).total) ↔
      ∀ m, (x, m) ∈ l → m = 0 := by
  rw [h.mark_idle, h.progress]
  constructor
  · intro hsum m hm
    have hmark := Ledger.total_mark h.keys hm 0
    omega
  · intro hzero
    by_cases hkey : x ∈ l.map Prod.fst
    · obtain ⟨⟨y, m⟩, hmem, rfl⟩ := List.mem_map.mp hkey
      have hmark := Ledger.total_mark h.keys hmem 0
      have hm := hzero m hmem
      dsimp only
      omega
    · rw [Ledger.mark_of_not_mem hkey]

end Gauge

/-! ## Steps -/

namespace Server

variable {s s' : Server} {a : Addr} {i : Input} {l : Ledger}

/-- The ledger of project `a` after a step: a task counts the clients that it begins with. -/
def nextLedger (s : Server) (a : Addr) (i : Input) (s' : Server) (l : Ledger) : Ledger :=
  if (s'.gauge a).task = .idle then []
  else
    match s.taskNews a i s' with
    | .restores => .fresh (s'.project a).lostClients
    | .saves => .fresh (s.project a).stateful
    | .reads c n _ => l.mark c.addr n
    | .reloads c => l.mark c.addr 0
    | .nothing => l

/-- A step, with the ledger of project `a` written on. -/
def account (a : Addr) (p : Server × Ledger) (i : Input) : Option (Server × Ledger) :=
  (p.1.step i).map (fun s' => (s', p.1.nextLedger a i s' p.2))

/-- The accounts of project `a` are exact after a step, and no reading in it overflows. -/
structure Exact (a : Addr) (p : Server × Ledger) (i : Input) (p' : Server × Ledger) : Prop where
  sum : (p'.1.project a).clientTasksProgress = p'.2.total
  bound : (p'.1.project a).clientTasksProgress ≤ 100 * (p'.1.project a).clientTasksTotal
  fits : ∀ c n complete, p.1.metering a i = some (c, n, complete) →
    (p.1.gauge a).Fits c.taskProgress n

/-- The accounts stand what the input reads, and no client that has got somewhere in the task begins
again. -/
structure Regular (a : Addr) (p : Server × Ledger) (i : Input) (_ : Server × Ledger) : Prop where
  reads : ∀ c n complete, p.1.metering a i = some (c, n, complete) →
    (p.1.gauge a).Stands p.2 c.addr c.taskProgress n complete
  reloads : ∀ c, p.1.reloading a i = some c → ∀ m, (c.addr, m) ∈ p.2 → m = 0

theorem progressing_le {b : Addr} {c : Client} {n : Nat} (h : s.progressing i = some (b, c, n)) :
    n ≤ 99 := by
  unfold progressing at h
  split at h
  · split at h
    · cases h
    · split at h
      · split at h
        · cases h
        · obtain ⟨-, hr⟩ := Prod.mk.inj (Option.some.inj h)
          obtain ⟨-, rfl⟩ := Prod.mk.inj hr
          split
          · exact Nat.le_refl _
          · omega
      · cases h
  · cases h

theorem metering_le {c : Client} {n : Nat} {complete : Bool}
    (h : s.metering a i = some (c, n, complete)) : n ≤ 100 := by
  unfold metering at h
  split at h
  · split at h
    · obtain ⟨-, hr⟩ := Prod.mk.inj (Option.some.inj h)
      obtain ⟨rfl, -⟩ := Prod.mk.inj hr
      exact Nat.le_refl _
    · cases h
  · split at h
    · split at h
      · obtain ⟨-, hr⟩ := Prod.mk.inj (Option.some.inj h)
        obtain ⟨rfl, -⟩ := Prod.mk.inj hr
        exact Nat.le_refl _
      · cases h
    · split at h
      · next b d m hprogress =>
          have hm : m ≤ 99 := progressing_le hprogress
          split at h
          · obtain ⟨-, hr⟩ := Prod.mk.inj (Option.some.inj h)
            obtain ⟨rfl, -⟩ := Prod.mk.inj hr
            omega
          · cases h
      · cases h

/-- A restored project and a saved one are not measured. -/
theorem reads_nothing (h : s.restoring i = some a ∨ s.saving i = some a) :
    s.metering a i = none ∧ s.reloading a i = none := by
  have hinput : s.reporting i = none ∧ s.resuming i = none ∧ s.progressing i = none := by
    cases i with
    | progress | commitDataSet | connect =>
        exact absurd h (by simp [restoring, saving])
    | _ => exact ⟨rfl, rfl, rfl⟩
  obtain ⟨hreport, hresume, hprogress⟩ := hinput
  unfold metering reloading
  rw [hreport, hresume, hprogress]
  exact ⟨rfl, rfl⟩

theorem taskNews_of_metering {c : Client} {n : Nat} {complete : Bool}
    (h : s.metering a i = some (c, n, complete)) : s.taskNews a i s' = .reads c n complete := by
  unfold taskNews
  rw [if_neg, if_neg, h]
  · intro hi
    rw [(reads_nothing (Or.inr hi)).1] at h
    cases h
  · intro hi
    rw [(reads_nothing (Or.inl hi)).1] at h
    cases h

/-- A client that is measured has nothing to load again. -/
theorem reloading_of_metering {r : Client × Nat × Bool} (h : s.metering a i = some r) :
    s.reloading a i = none := by
  unfold metering at h
  unfold reloading
  cases hresume : s.resuming i with
  | none => rfl
  | some q =>
      obtain ⟨b, c⟩ := q
      have hreport : s.reporting i = none := by
        cases i with
        | connect => rfl
        | _ => exact absurd hresume (by simp [resuming])
      rw [hreport, hresume] at h
      dsimp only at h ⊢
      split at h
      · next hread =>
          rw [if_neg]
          rintro ⟨-, hsent⟩
          rw [hread.2] at hsent
          cases hsent
      · cases h

theorem taskNews_of_reloading {c : Client} (hm : s.metering a i = none)
    (h : s.reloading a i = some c) : s.taskNews a i s' = .reloads c := by
  unfold taskNews
  rw [if_neg, if_neg, hm, h]
  · intro hi
    rw [(reads_nothing (Or.inr hi)).2] at h
    cases h
  · intro hi
    rw [(reads_nothing (Or.inl hi)).2] at h
    cases h

theorem lost_addrs_nodup (hw : s.Wf) (a : Addr) :
    ((s.project a).lostClients.map Client.addr).Nodup :=
  (hw.addrs_nodup a).sublist ((List.sublist_append_right _ _).map _)

theorem stateful_addrs_nodup (hw : s.Wf) (a : Addr) :
    ((s.project a).stateful.map Client.addr).Nodup := by
  refine List.Nodup.sublist (List.Sublist.map _ ?_) (hw.addrs_nodup a)
  exact List.filter_sublist.trans (List.sublist_append_left _ _)

/-- A step that reads nothing leaves the accounts in balance. -/
theorem quiet_balanced (hw : s.Wf) (hw' : s'.Wf) (hb : (s.gauge a).Balanced l)
    (h : s.step i = some s') (hm : s.metering a i = none) (hr : s.reloading a i = none) :
    (s'.gauge a).Balanced (s.nextLedger a i s' l) := by
  have hgauged := step_gauged hw h a
  unfold nextLedger
  have hnews : s.taskNews a i s' = .restores ∨ s.taskNews a i s' = .saves ∨
      s.taskNews a i s' = .nothing := by
    unfold taskNews
    rw [hm, hr]
    dsimp only
    split
    · split
      · exact Or.inl rfl
      · exact Or.inr (Or.inr rfl)
    · split
      · split
        · exact Or.inr (Or.inl rfl)
        · exact Or.inr (Or.inr rfl)
      · exact Or.inr (Or.inr rfl)
  rcases hnews with hnews | hnews | hnews
  · rw [hnews] at hgauged ⊢
    have hgauge : s'.gauge a = .new .load (s'.project a).lostClients.length := hgauged
    rw [hgauge]
    exact .fresh (by decide) (lost_addrs_nodup hw' a)
  · rw [hnews] at hgauged ⊢
    have hgauge : s'.gauge a = .new (if (s.project a).stateful.length = 0 then .idle else .save)
      (s.project a).stateful.length := hgauged
    rw [hgauge]
    by_cases hnone : (s.project a).stateful.length = 0
    · rw [if_pos hnone]
      exact .idle_new _
    · rw [if_neg hnone]
      exact .fresh (by decide) (stateful_addrs_nodup hw a)
  · rw [hnews] at hgauged ⊢
    have hgauge : s'.gauge a = s.gauge a ∨ s'.gauge a = .new .idle 0 := hgauged
    rcases hgauge with hgauge | hgauge
    · rw [hgauge]
      split
      · next hidle =>
          rw [hb.idle hidle] at hb
          exact hb
      · exact hb
    · rw [hgauge]
      exact .idle_new 0

/-- **One step**: the accounts are exact after it exactly if it is regular, and then they are in
balance again. -/
theorem step_exact (hw : s.Wf) (hw' : s'.Wf) (hb : (s.gauge a).Balanced l)
    (h : s.step i = some s') :
    (Exact a (s, l) i (s', s.nextLedger a i s' l) ↔
        Regular a (s, l) i (s', s.nextLedger a i s' l)) ∧
      (Exact a (s, l) i (s', s.nextLedger a i s' l) →
        (s'.gauge a).Balanced (s.nextLedger a i s' l)) := by
  have hgauged := step_gauged hw h a
  cases hm : s.metering a i with
  | some r =>
      obtain ⟨c, n, complete⟩ := r
      have hn := metering_le hm
      have hnews : s.taskNews a i s' = .reads c n complete := taskNews_of_metering hm
      rw [hnews] at hgauged
      have hgauge : s'.gauge a = (s.gauge a).read c.taskProgress n complete := hgauged
      have hledger : s.nextLedger a i s' l =
          if ((s.gauge a).read c.taskProgress n complete).task = .idle then []
          else l.mark c.addr n := by
        unfold nextLedger
        rw [hnews, hgauge]
      have hread := hb.read_iff c.addr c.taskProgress hn complete
      have hbalanced : (s'.gauge a).progress = (s.nextLedger a i s' l).total →
          (s'.gauge a).Balanced (s.nextLedger a i s' l) := by
        rw [hledger, hgauge]
        exact hb.read hn
      rw [← hledger, ← hgauge] at hread
      refine ⟨⟨fun hexact => ?_, fun hregular => ?_⟩, fun hexact => hbalanced hexact.sum⟩
      · constructor
        · intro d m b hd
          cases hm.symm.trans hd
          exact hread.mp ⟨hexact.sum, hexact.fits _ _ _ hm⟩
        · intro d hd
          cases (reloading_of_metering hm).symm.trans hd
      · obtain ⟨hsum, hfits⟩ := hread.mpr (hregular.reads _ _ _ hm)
        refine ⟨hsum, (hbalanced hsum).bound, ?_⟩
        intro d m b hd
        cases hm.symm.trans hd
        exact hfits
  | none =>
      cases hr : s.reloading a i with
      | some c =>
          have hnews : s.taskNews a i s' = .reloads c := taskNews_of_reloading hm hr
          rw [hnews] at hgauged
          have hgauge : s'.gauge a = s.gauge a := hgauged
          have hledger : s.nextLedger a i s' l =
              if (s.gauge a).task = .idle then [] else l.mark c.addr 0 := by
            unfold nextLedger
            rw [hnews, hgauge]
          have hreload := hb.reload_iff c.addr
          rw [← hledger, ← hgauge] at hreload
          have hbalanced : (s'.gauge a).progress = (s.nextLedger a i s' l).total →
              (s'.gauge a).Balanced (s.nextLedger a i s' l) := by
            rw [hledger, hgauge, hb.mark_idle]
            exact hb.mark (Nat.zero_le _) rfl rfl
          refine ⟨⟨fun hexact => ?_, fun hregular => ?_⟩, fun hexact => hbalanced hexact.sum⟩
          · constructor
            · intro d n complete hd
              cases hm.symm.trans hd
            · intro d hd
              cases hr.symm.trans hd
              exact hreload.mp hexact.sum
          · have hsum := hreload.mpr (hregular.reloads _ hr)
            refine ⟨hsum, (hbalanced hsum).bound, ?_⟩
            intro d n complete hd
            cases hm.symm.trans hd
      | none =>
          have hquiet := quiet_balanced hw hw' hb h hm hr
          refine ⟨iff_of_true ⟨hquiet.progress, hquiet.bound, ?_⟩ ⟨?_, ?_⟩, fun _ => hquiet⟩
          · intro c n complete hc
            cases hm.symm.trans hc
          · intro c n complete hc
            cases hm.symm.trans hc
          · intro c hc
            cases hr.symm.trans hc

/-! ## Runs -/

/-- A project that is read from the disk has no progress yet. -/
theorem projectNewFromDisk_progress {fs : Fs} {addr : Addr} {parent dir : CStr} {p : Project}
    (h : projectNewFromDisk fs addr parent dir = some p) : p.clientTasksProgress = 0 := by
  have hheader : ∀ (ns : List XmlNode) (q : Project),
      (ns.foldl headerNode q).clientTasksProgress = q.clientTasksProgress := by
    intro ns
    induction ns with
    | nil => exact fun q => rfl
    | cons n ns ih =>
        intro q
        rw [List.foldl_cons, ih]
        unfold headerNode
        split
        · rfl
        · split
          · rfl
          · rfl
  unfold projectNewFromDisk at h
  dsimp only at h
  split at h
  · cases h
  · split at h
    · cases h
    · split at h
      · cases h
      · split at h
        · cases h
        · rw [← Option.some.inj h]
          exact hheader _ _

theorem start_progress (fs : Fs) (dir : CStr) (a : Addr) :
    ((start fs dir).project a).clientTasksProgress = 0 := by
  have hfill : ∀ (ds : List CStr) (s : Server), (s.project a).clientTasksProgress = 0 →
      ((s.fillProjects ds).project a).clientTasksProgress = 0 := by
    intro ds
    induction ds with
    | nil => exact fun s hs => hs
    | cons d ds ih =>
        intro s hs
        unfold fillProjects
        split
        · exact ih s hs
        · next p hp =>
            apply ih
            by_cases ha : a = s.g.nextAddr
            · subst ha
              simpa using projectNewFromDisk_progress hp
            · simpa [ha] using hs
  exact hfill _ _ rfl

theorem start_balanced (fs : Fs) (dir : CStr) (a : Addr) :
    ((start fs dir).gauge a).Balanced [] where
  keys := List.nodup_nil
  idle := fun _ => rfl
  length := Nat.zero_le _
  le := fun _ he => absurd he List.not_mem_nil
  progress := start_progress fs dir a

/-- **The progress of a project** is exact throughout a run exactly if every step of it is
regular: each reading is measured against what the client is counted with. -/
theorem progress_exact_iff (fs : Fs) (dir : CStr) (a : Addr) (is : List Input) :
    Runs.Throughout (account a) (Exact a) (start fs dir, []) is ↔
      Runs.Throughout (account a) (Regular a) (start fs dir, []) is := by
  refine Runs.throughout_congr (I := fun p => p.1.Wf ∧ (p.1.gauge a).Balanced p.2) ?_ ?_
    ⟨(start_starting fs dir).wf, start_balanced fs dir a⟩ is
  · rintro ⟨s, l⟩ i p' ⟨hw, hb⟩ hp hexact
    obtain ⟨s', hs, rfl⟩ := Option.map_eq_some_iff.mp hp
    have hw' := (hw.step_answers hs).wf hw
    exact ⟨hw', (step_exact hw hw' hb hs).2 hexact⟩
  · rintro ⟨s, l⟩ i p' ⟨hw, hb⟩ hp
    obtain ⟨s', hs, rfl⟩ := Option.map_eq_some_iff.mp hp
    exact (step_exact hw ((hw.step_answers hs).wf hw) hb hs).1

/-- A client without state is lost and launched again while no task is under way: its project is
at a hundred percent of a task of no clients. -/
theorem progress_not_exact :
    ¬ Runs.Throughout (account 1) (Exact 1) (start emptyDisk (cstr "/p"), [])
      ([.connect (cstr ":1") 5 (cstr "synth") 0 [] [cstr "synth"] 1,
        .nameLost (cstr ":1"),
        .outside emptyDisk [7],
        .lostClientLaunch (cstr "New Project") (uuidUnparse 1)] ++
          [.connect (cstr ":2") 7 (cstr "synth") 0 [] [] 2]) := by
  intro hall
  have hrun : ([.connect (cstr ":1") 5 (cstr "synth") 0 [] [cstr "synth"] 1,
      .nameLost (cstr ":1"),
      .outside emptyDisk [7],
      .lostClientLaunch (cstr "New Project") (uuidUnparse 1)].foldlM (account 1)
        (start emptyDisk (cstr "/p"), [])).any (fun p =>
      (account 1 p (.connect (cstr ":2") 7 (cstr "synth") 0 [] [] 2)).any (fun p' =>
        (p'.1.project 1).clientTasksProgress = 100 ∧ (p'.1.project 1).clientTasksTotal = 0)) =
      true := by
    decide +kernel
  obtain ⟨p, hp, hlast⟩ := (Option.any_eq_true _ _).mp hrun
  obtain ⟨p', hp', hbad⟩ := (Option.any_eq_true _ _).mp hlast
  obtain ⟨hprogress, htotal⟩ := of_decide_eq_true hbad
  have hbound := (hall.last hp hp').bound
  rw [hprogress, htotal] at hbound
  omega

end Server

end Lash
