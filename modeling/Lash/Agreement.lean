import Lash.Posting

/-!
# The daemon and its clients agree on their tasks

Whatever the order in which messages arrive, every process that the daemon has a client for is in
step with it (`Network.Inv`), as long as nobody acts out of turn (`Network.Careful`). So no request
to save or load is lost, none is carried out twice, and no report comes too late.
-/

namespace Lash

theorem Peer.Queued.exit {n : CStr} {p : Peer} (h : p.Queued n) : (p.exit n).Queued n where
  sender := by
    intro i hmem
    rcases List.mem_append.mp hmem with hmem | hmem
    · exact h.sender i hmem
    · rw [List.mem_singleton.mp hmem]
      rfl
  connect := by
    intro i hmem
    rcases mem_tail_append hmem with hmem | hmem
    · exact h.connect i hmem
    · rw [List.mem_singleton.mp hmem]
      rfl

namespace Network

/-- The daemon has a client for a process, or will have one. -/
def Concerns (w : Network) (n : CStr) (p : Peer) : Prop :=
  (∃ i ∈ p.outbox, i.isConnect = true) ∨ ∃ a c, w.server.Lists n a c

/-- Every process is in step with the client that the daemon has under its name. -/
structure Inv (w : Network) : Prop where
  wf : w.server.Wf
  names : w.server.NamesIdentify
  once : w.server.OnePerName
  stores : w.server.StoresOpen
  /-- Behind every client there is a process that has connected. -/
  known : ∀ n a c, w.server.Lists n a c →
    ∃ p, w.peers n = some p ∧ ∀ i ∈ p.outbox, i.isConnect = false
  strangers : ∀ n, w.peers n = none → ∀ l ∈ w.wire, l.dest ≠ some n
  renames : ∀ old new, .renamed old new ∈ w.wire → new.1 ≠ []
  queued : ∀ n p, w.peers n = some p → p.Queued n
  sane : ∀ n p, w.peers n = some p → p.alive = true → w.Concerns n p → p.Sane n w.wire
  agree : ∀ n p, w.peers n = some p → p.alive = true → ∀ a c, w.server.Lists n a c →
    p.InStep n w.wire (w.server.project a).name c
  /-- The daemon is going to hear of a process that is gone. -/
  gone : ∀ n p, w.peers n = some p → p.alive = false → w.Concerns n p → .nameLost n ∈ p.outbox

variable {w w' : Network} {n : CStr} {p p' : Peer} {i : Input} {s' : Server} {r : Reply}

/-! ## One process does something -/

theorem setPeer_self (w : Network) (n : CStr) (p : Peer) : (w.setPeer n p).peers n = some p :=
  Function.update_self ..

theorem setPeer_ne (w : Network) (p : Peer) {m : CStr} (h : m ≠ n) :
    (w.setPeer n p).peers m = w.peers m :=
  Function.update_of_ne h ..

/-- A process changes and stays in step. -/
theorem Inv.setPeer (hi : w.Inv) (hp : w.peers n = some p) (hq : p'.Queued n)
    (hconn : ∀ i ∈ p'.outbox, i.isConnect = true → i ∈ p.outbox)
    (hsane : p'.alive = true → w.Concerns n p → p'.Sane n w.wire)
    (hagree : p'.alive = true → ∀ a c, w.server.Lists n a c →
      p'.InStep n w.wire (w.server.project a).name c)
    (hgone : p'.alive = false → .nameLost n ∈ p'.outbox) : (w.setPeer n p').Inv := by
  have hpeer : ∀ {m : CStr} {q : Peer}, (w.setPeer n p').peers m = some q →
      m = n ∧ q = p' ∨ w.peers m = some q := by
    intro m q hq
    by_cases hm : m = n
    · subst hm
      rw [setPeer_self] at hq
      exact Or.inl ⟨rfl, (Option.some.inj hq).symm⟩
    · rw [setPeer_ne w p' hm] at hq
      exact Or.inr hq
  refine ⟨hi.wf, hi.names, hi.once, hi.stores, ?_, ?_, hi.renames, ?_, ?_, ?_, ?_⟩
  · intro m a c hc
    obtain ⟨q, hmq, hnone⟩ := hi.known m a c hc
    by_cases hm : m = n
    · subst hm
      obtain rfl := Option.some.inj (hp.symm.trans hmq)
      refine ⟨p', setPeer_self w m p', ?_⟩
      intro i hmem
      by_contra hconnects
      have hconnects' : i.isConnect = true := by simpa using hconnects
      exact hconnects (hnone i (hconn i hmem hconnects'))
    · exact ⟨q, (setPeer_ne w p' hm).trans hmq, hnone⟩
  · intro m hm
    by_cases he : m = n
    · subst he
      rw [setPeer_self] at hm
      exact absurd hm (by simp)
    · rw [setPeer_ne w p' he] at hm
      exact hi.strangers m hm
  · intro m q hmq
    rcases hpeer hmq with ⟨rfl, rfl⟩ | hold
    · exact hq
    · exact hi.queued m q hold
  · intro m q hmq halive hconcerns
    rcases hpeer hmq with ⟨rfl, rfl⟩ | hold
    · refine hsane halive (hconcerns.imp_left ?_)
      rintro ⟨i, hmem, hconnects⟩
      exact ⟨i, hconn i hmem hconnects, hconnects⟩
    · exact hi.sane m q hold halive hconcerns
  · intro m q hmq halive
    rcases hpeer hmq with ⟨rfl, rfl⟩ | hold
    · exact hagree halive
    · exact hi.agree m q hold halive
  · intro m q hmq hdead hconcerns
    rcases hpeer hmq with ⟨rfl, rfl⟩ | hold
    · exact hgone hdead
    · exact hi.gone m q hold hdead hconcerns

/-- A new process opens a client. -/
theorem Inv.newPeer (hi : w.Inv) (hp : w.peers n = none) (oldApi : Bool) (flags : Flags) (wd : CStr)
    (hs : i.sender = some n) (hends : i.ends = none) (hcommit : ∀ args, i ≠ .commitDataSet n args) :
    (w.setPeer n (.start oldApi flags wd i)).Inv := by
  have hunlisted : ∀ a c, ¬ w.server.Lists n a c := by
    intro a c hc
    obtain ⟨q, hq, -⟩ := hi.known n a c hc
    rw [hp] at hq
    exact absurd hq (by simp)
  have hnobody := hi.strangers n hp
  have hpeer : ∀ {m : CStr} {q : Peer},
      (w.setPeer n (.start oldApi flags wd i)).peers m = some q →
      m = n ∧ q = .start oldApi flags wd i ∨ w.peers m = some q := by
    intro m q hq
    by_cases hm : m = n
    · subst hm
      rw [setPeer_self] at hq
      exact Or.inl ⟨rfl, (Option.some.inj hq).symm⟩
    · rw [setPeer_ne w _ hm] at hq
      exact Or.inr hq
  refine ⟨hi.wf, hi.names, hi.once, hi.stores, ?_, ?_, hi.renames, ?_, ?_, ?_, ?_⟩
  · intro m a c hc
    obtain ⟨q, hq, hnone⟩ := hi.known m a c hc
    have hm : m ≠ n := by
      rintro rfl
      exact hunlisted a c hc
    exact ⟨q, (setPeer_ne w _ hm).trans hq, hnone⟩
  · intro m hm
    have he : m ≠ n := by
      rintro rfl
      rw [setPeer_self] at hm
      exact absurd hm (by simp)
    rw [setPeer_ne w _ he] at hm
    exact hi.strangers m hm
  · intro m q hmq
    rcases hpeer hmq with ⟨rfl, rfl⟩ | hold
    · refine ⟨?_, fun j hj => absurd hj List.not_mem_nil⟩
      intro j hj
      rw [List.mem_singleton.mp hj]
      exact hs
    · exact hi.queued m q hold
  · intro m q hmq halive hconcerns
    rcases hpeer hmq with ⟨rfl, rfl⟩ | hold
    · refine ⟨⟨rfl, fun hne => absurd rfl hne⟩, rfl, ?_, ?_, ?_, ?_, ?_, ?_, ?_, ?_⟩
      · exact fun _ => ⟨rfl, hnobody⟩
      · refine fun _ => ⟨LashClient.working_of_eq rfl, rfl, ?_, ?_⟩
        · exact List.filterMap_cons_none hends
        · exact fun l hl => absurd hl List.not_mem_nil
      · have hzero : w.wire.countP (Letter.repliesTo m) = 0 := by
          rw [List.countP_eq_zero]
          intro l hl hto
          cases l with
          | reply dest r => exact hnobody _ hl (congrArg some (of_decide_eq_true hto))
          | _ => exact absurd hto (by simp [Letter.repliesTo])
        show w.wire.countP (Letter.repliesTo m) ≤ _
        rw [hzero]
        exact Nat.zero_le _
      · exact fun r hr => absurd rfl (hnobody _ hr)
      · exact fun hphase => absurd rfl hphase
      · exact hi.renames
      · intro args hmem
        exact absurd (List.mem_singleton.mp hmem).symm (hcommit args)
      · exact fun l hl => absurd hl List.not_mem_nil
    · exact hi.sane m q hold halive hconcerns
  · intro m q hmq halive a c hc
    rcases hpeer hmq with ⟨rfl, rfl⟩ | hold
    · exact absurd hc (hunlisted a c)
    · exact hi.agree m q hold halive a c hc
  · intro m q hmq hdead hconcerns
    rcases hpeer hmq with ⟨rfl, rfl⟩ | hold
    · exact Bool.noConfusion hdead
    · exact hi.gone m q hold hdead hconcerns

theorem Inv.exit (hi : w.Inv) (hp : w.peers n = some p) : (w.setPeer n (p.exit n)).Inv := by
  refine hi.setPeer hp (hi.queued n p hp).exit ?_ ?_ ?_ ?_
  · intro i hmem hconn
    rcases List.mem_append.mp hmem with hmem | hmem
    · exact hmem
    · rw [List.mem_singleton.mp hmem] at hconn
      exact absurd hconn (by simp [Input.isConnect])
  · exact fun halive => absurd halive Bool.false_ne_true
  · exact fun halive => absurd halive Bool.false_ne_true
  · exact fun _ => List.mem_append_right _ (List.mem_singleton_self _)

/-- Reports are no `Connect`. -/
theorem mem_of_returns {q : Served} (hmem : i ∈ (p.returns n q).outbox)
    (hconn : i.isConnect = true) : i ∈ p.outbox := by
  rcases List.mem_append.mp hmem with hmem | hmem
  · exact hmem
  · obtain ⟨x, -, rfl⟩ := List.mem_map.mp hmem
    rw [x.input_not_connect] at hconn
    exact absurd hconn (by decide)

/-! ## The daemon handles an input -/

theorem handle_some (h : w.handle i = some w') : ∃ s' r, w.server.handle i = some (s', r) ∧
    w' = { w with server := s', wire := w.wire ++ letters w.server s' i r } := by
  obtain ⟨⟨s', r⟩, hr, rfl⟩ := Option.map_eq_some_iff.mp h
  exact ⟨s', r, hr, rfl⟩

/-- An input that comes from a process is no request of a controller. -/
theorem of_sender {s : Server} (h : i.sender = some n) :
    s.saving i = none ∧ ∀ old new, i ≠ .projectRename old new := by
  cases i with
  | connect | nameLost | progress | commitDataSet =>
      exact ⟨rfl, fun old new he => absurd he (by simp)⟩
  | _ => exact absurd h (by simp [Input.sender])

/-- **The daemon handles an input that is in turn**: one that a process has sent, which is taken
from its queue, or another. -/
theorem Inv.handle (hi : w.Inv) (hturn : w.InTurn i) (h : w.server.handle i = some (s', r))
    {peers : CStr → Option Peer}
    (hown : ∀ n, i.sender = some n → ∃ p rest, w.peers n = some p ∧ p.outbox = i :: rest ∧
      peers n = some { p with outbox := rest })
    (hother : ∀ n, i.sender ≠ some n → peers n = w.peers n) :
    Inv ⟨s', w.wire ++ letters w.server s' i r, peers⟩ := by
  have hs : w.server.step i = some s' := by
    unfold Server.step
    rw [h]
    rfl
  have hpost := Server.step_post hi.wf hturn.resumes hturn.restores hs
  have hsend : Sendable w.server s' i r := hturn.sendable _ h
  have hw' : s'.Wf := (hi.wf.step_answers hs).wf hi.wf
  -- who connects is no live client
  have hunlisted : ∀ n, i.isConnect = true → i.sender = some n → ∀ a c,
      ¬ w.server.Lists n a c := by
    intro n hconn hsender a c hc
    obtain ⟨p, rest, hp, hout, -⟩ := hown n hsender
    obtain ⟨q, hq, hnone⟩ := hi.known n a c hc
    obtain rfl := Option.some.inj (hp.symm.trans hq)
    have hfalse := hnone i (by rw [hout]; exact List.mem_cons_self)
    rw [hconn] at hfalse
    exact absurd hfalse (by decide)
  have honce : s'.OnePerName := by
    refine hi.once.step hi.wf ?_ hs
    rintro sender pid cls flags wd argv id rfl a ha c hc hname
    exact hunlisted sender rfl rfl a c ⟨ha, hc, hname⟩
  have hpeer : ∀ {n : CStr} {q : Peer}, peers n = some q → ∃ p, w.peers n = some p ∧
      (i.sender = some n ∧ (∃ rest, p.outbox = i :: rest ∧ q = { p with outbox := rest }) ∨
        i.sender ≠ some n ∧ q = p) := by
    intro n q hq
    by_cases hsender : i.sender = some n
    · obtain ⟨p, rest, hp, hout, hafter⟩ := hown n hsender
      refine ⟨p, hp, Or.inl ⟨hsender, rest, hout, ?_⟩⟩
      exact Option.some.inj (hq.symm.trans hafter)
    · rw [hother n hsender] at hq
      exact ⟨q, hq, Or.inr ⟨hsender, rfl⟩⟩
  have hrenames : ∀ old new, .renamed old new ∈ letters w.server s' i r → new.1 ≠ [] := by
    intro old new hl
    obtain ⟨old', hren⟩ := letters_renamed hpost hl
    exact (hturn.renamed old' new.1 hren).1
  have hdirected : ∀ n, (i.isConnect = true → i.sender ≠ some n) →
      ∀ l ∈ letters w.server s' i r, l.dest ≠ some n := by
    intro n hn l hl hdest
    obtain ⟨hconn, hsender⟩ := letters_dest hpost hl hdest
    exact hn hconn hsender
  have hbefore : ∀ {n : CStr} {q : Peer}, peers n = some q →
      Concerns ⟨s', w.wire ++ letters w.server s' i r, peers⟩ n q →
      ∀ p, w.peers n = some p → w.Concerns n p := by
    rintro n q hq hconcerns p hp
    obtain ⟨p₀, hp₀, hcase⟩ := hpeer hq
    obtain rfl := Option.some.inj (hp.symm.trans hp₀)
    rcases hconcerns with ⟨j, hj, hconn⟩ | ⟨a, d, hd⟩
    · refine Or.inl ⟨j, ?_, hconn⟩
      rcases hcase with ⟨-, rest, hout, rfl⟩ | ⟨-, rfl⟩
      · rw [hout]
        exact List.mem_cons_of_mem i hj
      · exact hj
    · rcases hpost.lists hd with ⟨c, hc⟩ | ⟨hconn, hsender⟩
      · exact Or.inr ⟨a, c, hc⟩
      · rcases hcase with ⟨-, rest, hout, -⟩ | ⟨hnot, -⟩
        · exact Or.inl ⟨i, by rw [hout]; exact List.mem_cons_self, hconn⟩
        · exact absurd hsender hnot
  refine ⟨hw', hi.names.step hi.wf hturn.renames hs, honce,
    (hi.stores.step_iff hi.wf hs).mpr hturn.stores, ?_, ?_, ?_, ?_, ?_, ?_, ?_⟩
  · intro n a d hd
    by_cases hsender : i.sender = some n
    · obtain ⟨p, rest, hp, hout, hafter⟩ := hown n hsender
      exact ⟨_, hafter, ((hi.queued n p hp).sent hout).2⟩
    · rcases hpost.lists hd with ⟨c, hc⟩ | ⟨-, hconn⟩
      · obtain ⟨p, hp, hnone⟩ := hi.known n a c hc
        exact ⟨p, (hother n hsender).trans hp, hnone⟩
      · exact absurd hconn hsender
  · intro n hn l hl
    have hsender : i.sender ≠ some n := by
      intro hsender
      obtain ⟨p, rest, -, -, hafter⟩ := hown n hsender
      rw [show peers n = none from hn] at hafter
      exact absurd hafter (by simp)
    have hn : peers n = none := hn
    rw [hother n hsender] at hn
    rcases List.mem_append.mp hl with hl | hl
    · exact hi.strangers n hn l hl
    · exact hdirected n (fun _ => hsender) l hl
  · intro old new hl
    exact (List.mem_append.mp hl).elim (hi.renames old new) (hrenames old new)
  · intro n q hq
    obtain ⟨p, hp, ⟨-, rest, hout, rfl⟩ | ⟨-, rfl⟩⟩ := hpeer hq
    · exact ((hi.queued n p hp).sent hout).1
    · exact hi.queued n q hp
  · intro n q hq halive hconcerns
    obtain ⟨p, hp, ⟨hsender, rest, hout, rfl⟩ | ⟨hsender, rfl⟩⟩ := hpeer hq
    · have hsane := hi.sane n p hp halive (hbefore hq hconcerns p hp)
      by_cases hconn : i.isConnect = true
      · exact hsane.connect (hi.queued n p hp) hout hconn hpost hsend
      · exact (hsane.sent hout).append (hdirected n (fun h => absurd h hconn)) hrenames
    · exact (hi.sane n q hp halive (hbefore hq hconcerns q hp)).append
        (hdirected n (fun _ => hsender)) hrenames
  · intro n q hq halive a d hd
    obtain ⟨p, hp, ⟨hsender, rest, hout, rfl⟩ | ⟨hsender, rfl⟩⟩ := hpeer hq
    · have hqueued := hi.queued n p hp
      by_cases hconn : i.isConnect = true
      · have hsane := hi.sane n p hp halive
          (Or.inl ⟨i, by rw [hout]; exact List.mem_cons_self, hconn⟩)
        exact Peer.InStep.connect hi.wf hw' honce hpost hsend h hsane hqueued hout hconn
          (hunlisted n hconn hsender) hd
      · obtain ⟨hsave, hren⟩ := of_sender (s := w.server) hsender
        obtain ⟨c, hc⟩ := (hpost.lists hd).resolve_right (fun h => hconn h.1)
        exact Peer.InStep.serve hi.wf hi.once hi.stores hpost
          (hi.sane n p hp halive (Or.inr ⟨a, c, hc⟩)) hqueued hout (by simpa using hconn) hsave
          hren (hi.agree n p hp halive) hd
    · refine Peer.InStep.handle hi.wf hpost hi.names hsend hsender ?_ (hi.agree n q hp halive a) hd
      rintro c hc (hsave | ⟨old, new, hren, hfind⟩)
      · exact hturn.saved a hsave c hc.live n hc.name q hp halive
      · exact (hturn.renamed old new hren).2 a hfind c hc.live n hc.name q hp halive
  · intro n q hq hdead hconcerns
    obtain ⟨p, hp, ⟨hsender, rest, hout, rfl⟩ | ⟨hsender, rfl⟩⟩ := hpeer hq
    · have hlost := hi.gone n p hp hdead (hbefore hq hconcerns p hp)
      rw [hout] at hlost
      rcases List.mem_cons.mp hlost with rfl | hlost
      · -- the daemon has just heard that the process is gone
        exfalso
        rcases hconcerns with ⟨j, hj, hconn⟩ | ⟨a, d, hd⟩
        · have hnone := ((hi.queued n p hp).sent hout).2 j hj
          rw [hconn] at hnone
          exact absurd hnone (by decide)
        · exact (hi.once.buried n s' hs).1 a hd.loaded d hd.live hd.name
      · exact hlost
    · exact hi.gone n q hp hdead (hbefore hq hconcerns q hp)

/-! ## Every turn -/

theorem Inv.route (hi : w.Inv) {l : Letter} {rest : List Letter} (hwire : w.wire = l :: rest) :
    (w.deliver l rest).Inv := by
  have hsub : ∀ x ∈ rest, x ∈ w.wire := by
    intro x hx
    rw [hwire]
    exact List.mem_cons_of_mem l hx
  have hpeer : ∀ {n : CStr} {q : Peer}, (w.deliver l rest).peers n = some q →
      ∃ p, w.peers n = some p ∧ q = p.receives n l := by
    intro n q hq
    obtain ⟨p, hp, rfl⟩ := Option.map_eq_some_iff.mp hq
    exact ⟨p, hp, rfl⟩
  have hsame : ∀ (p : Peer) (n : CStr), (p.receives n l).outbox = p.outbox ∧
      (p.receives n l).alive = p.alive := by
    intro p n
    unfold Peer.receives
    split <;> exact ⟨rfl, rfl⟩
  refine ⟨hi.wf, hi.names, hi.once, hi.stores, ?_, ?_, ?_, ?_, ?_, ?_, ?_⟩
  · intro n a c hc
    obtain ⟨p, hp, hnone⟩ := hi.known n a c hc
    refine ⟨p.receives n l, congrArg (Option.map _) hp, ?_⟩
    rw [(hsame p n).1]
    exact hnone
  · intro n hn x hx
    exact hi.strangers n (Option.map_eq_none_iff.mp hn) x (hsub x hx)
  · exact fun old new hx => hi.renames old new (hsub _ hx)
  · intro n q hq
    obtain ⟨p, hp, rfl⟩ := hpeer hq
    obtain ⟨hsender, hconnect⟩ := hi.queued n p hp
    rw [← (hsame p n).1] at hsender hconnect
    exact ⟨hsender, hconnect⟩
  · intro n q hq halive hconcerns
    obtain ⟨p, hp, rfl⟩ := hpeer hq
    rw [(hsame p n).2] at halive
    unfold Concerns at hconcerns
    rw [(hsame p n).1] at hconcerns
    have hsane := hi.sane n p hp halive hconcerns
    rw [hwire] at hsane
    exact hsane.receives halive
  · intro n q hq halive a c hc
    obtain ⟨p, hp, rfl⟩ := hpeer hq
    rw [(hsame p n).2] at halive
    have hstep := hi.agree n p hp halive a c hc
    rw [hwire] at hstep
    exact hstep.receives halive
  · intro n q hq hdead hconcerns
    obtain ⟨p, hp, rfl⟩ := hpeer hq
    rw [(hsame p n).2] at hdead
    unfold Concerns at hconcerns
    rw [(hsame p n).1] at hconcerns ⊢
    exact hi.gone n p hp hdead hconcerns

/-- The daemon has the client of an open process. -/
theorem Inv.ready (hi : w.Inv) (hp : w.peers n = some p) (halive : p.alive = true)
    (hready : p.phase = .ready) (hconcerns : w.Concerns n p) :
    p.Sane n w.wire ∧ ∃ a c, w.server.Lists n a c := by
  have hsane := hi.sane n p hp halive hconcerns
  refine ⟨hsane, hconcerns.resolve_left ?_⟩
  intro hconn
  have hphase := (hsane.unknown hconn).1
  rw [hready] at hphase
  exact absurd hphase (by decide)

theorem Inv.call (hi : w.Inv) (hp : w.peers n = some p) (halive : p.alive = true)
    (hready : p.phase = .ready) {a : AppCall} (hfit : a.Fits p.app) :
    (w.setPeer n (p.returns n (p.app.call a))).Inv := by
  have hreturns : p.Sane n w.wire →
      (p.app.call a).Returns p.app p.app.client.working p.believes := by
    intro hs
    have hphase : p.phase ≠ .waiting := by
      rw [hready]
      decide
    rw [show p.believes = p.app.client.believes from if_neg hphase]
    exact (App.call_good hs.sound hfit).returns (hs.placed hphase)
  refine hi.setPeer hp ((hi.queued n p hp).returns _) (fun i => mem_of_returns) ?_ ?_ ?_
  · intro _ hconcerns
    have hs := hi.sane n p hp halive hconcerns
    exact hs.returns hready (List.Sublist.refl p.inbox) (hreturns hs)
  · intro _ b c hc
    have hs := hi.sane n p hp halive (Or.inr ⟨b, c, hc⟩)
    exact (hi.agree n p hp halive b c hc).call hready (hreturns hs)
  · intro hdead
    have hdead : p.alive = false := hdead
    rw [halive] at hdead
    exact absurd hdead (by decide)

theorem Inv.dispatch (hi : w.Inv) (hp : w.peers n = some p) (halive : p.alive = true)
    (hready : p.phase = .ready) {l : Letter} {rest : List Letter} (hin : p.inbox = l :: rest)
    {env : SavesEnv} (henv : env.Plain) (hfit : l.Fits env.oldApi p.app) {q : Served}
    (h : p.app.dispatch env l = some q) :
    (w.setPeer n ({ p with inbox := rest }.returns n q)).Inv := by
  have hphase : p.phase ≠ .waiting := by
    rw [hready]
    decide
  have hmem : l ∈ p.inbox := by
    rw [hin]
    exact List.mem_cons_self
  have hbelieves : p.believes = p.app.client.believes := if_neg hphase
  have hreturns : p.Sane n w.wire → ∀ a c, w.server.Lists n a c → q.Returns p.app
      (if (ear n).out p.believes l = [] then p.app.client.working else (ear n).out p.believes l)
      ((ear n).next p.believes l) := by
    intro hs a c hc
    obtain ⟨htasks, -, -⟩ := hi.agree n p hp halive a c hc
    rw [hin, List.cons_append, Reader.outs_cons] at htasks
    rw [hbelieves] at htasks ⊢
    refine App.dispatch_returns hs.sound hs.role henv hfit (hs.own l hmem) ?_
      (hs.placed hphase) ?_ ?_ h
    · have hnone := hs.once
      rw [if_neg hphase, Nat.le_zero, List.countP_eq_zero] at hnone
      have hto := hnone l (List.mem_append_left _ hmem)
      cases l with
      | reply dest r => exact absurd (decide_eq_true (hs.own _ hmem dest rfl)) hto
      | _ => rfl
    · rintro old new rfl
      exact hs.renames old new (List.mem_append_left _ hmem)
    · intro task hout
      rw [hout] at htasks
      have hself : [] ++ [task] = [task] := rfl
      obtain ⟨-, hworking, htask⟩ := tasks_begun htasks hself
      exact ⟨hworking, htask⟩
  obtain ⟨hsender, hconnect⟩ := (hi.queued n p hp).returns q
  refine hi.setPeer hp ⟨hsender, hconnect⟩ (fun i => mem_of_returns) ?_ ?_ ?_
  · intro _ hconcerns
    obtain ⟨hs, a, c, hc⟩ := hi.ready hp halive hready hconcerns
    refine hs.returns hready ?_ (hreturns hs a c hc)
    rw [hin]
    exact List.sublist_cons_self l rest
  · intro _ a c hc
    have hs := hi.sane n p hp halive (Or.inr ⟨a, c, hc⟩)
    exact (hi.agree n p hp halive a c hc).dispatch hready hin (hreturns hs a c hc)
  · intro hdead
    have hdead : p.alive = false := hdead
    rw [halive] at hdead
    exact absurd hdead (by decide)

theorem Inv.handleReply (hi : w.Inv) (hp : w.peers n = some p) (halive : p.alive = true)
    (hphase : p.phase = .waiting) (h : p.handleReply = some p') : (w.setPeer n p').Inv := by
  obtain ⟨r, -, rfl⟩ := Option.map_eq_some_iff.mp h
  obtain ⟨hsender, hconnect⟩ := hi.queued n p hp
  refine hi.setPeer hp ⟨hsender, hconnect⟩ (fun i hmem _ => hmem) ?_ ?_ ?_
  · intro _ hconcerns
    exact (hi.sane n p hp halive hconcerns).handleReply hphase h
  · intro _ a c hc
    have hs := hi.sane n p hp halive (Or.inr ⟨a, c, hc⟩)
    exact (hi.agree n p hp halive a c hc).handleReply hs hphase h
  · intro hdead
    have hdead : p.alive = false := hdead
    rw [halive] at hdead
    exact absurd hdead (by decide)

theorem Inv.addMatch (hi : w.Inv) (hp : w.peers n = some p) (halive : p.alive = true)
    {phase : Phase} (h : p.phase.addMatch = some phase) :
    (w.setPeer n { p with phase := phase }).Inv := by
  obtain ⟨hsender, hconnect⟩ := hi.queued n p hp
  refine hi.setPeer hp ⟨hsender, hconnect⟩ (fun i hmem _ => hmem) ?_ ?_ ?_
  · intro _ hconcerns
    exact (hi.sane n p hp halive hconcerns).addMatch h
  · intro _ a c hc
    exact (hi.agree n p hp halive a c hc).addMatch h
  · intro hdead
    have hdead : p.alive = false := hdead
    rw [halive] at hdead
    exact absurd hdead (by decide)

/-- The daemon takes the next message of a process. -/
theorem Inv.serve (hi : w.Inv) (hp : w.peers n = some p) {rest : List Input}
    (hout : p.outbox = i :: rest) (hturn : w.InTurn i)
    (h : (w.setPeer n { p with outbox := rest }).handle i = some w') : w'.Inv := by
  obtain ⟨s', r, hr, rfl⟩ := handle_some h
  have hsender : i.sender = some n := (hi.queued n p hp).sender i (by
    rw [hout]
    exact List.mem_cons_self)
  refine hi.handle hturn hr ?_ ?_
  · intro m hm
    obtain rfl : n = m := Option.some.inj (hsender.symm.trans hm)
    exact ⟨p, rest, hp, hout, setPeer_self w n _⟩
  · intro m hm
    refine setPeer_ne w _ ?_
    rintro rfl
    exact hm hsender

theorem Inv.control (hi : w.Inv) (hclient : i.isOfClient = false) (hturn : w.InTurn i)
    (h : w.handle i = some w') : w'.Inv := by
  obtain ⟨s', r, hr, rfl⟩ := handle_some h
  refine hi.handle hturn hr ?_ (fun _ _ => rfl)
  intro n hn
  cases i with
  | connect | nameLost | progress | commitDataSet =>
      exact absurd hclient (by simp [Input.isOfClient])
  | _ => exact absurd hn (by simp [Input.sender])

theorem input_serve (hp : w.peers n = some p) {rest : List Input} (hout : p.outbox = i :: rest) :
    w.input (.serve n) = some i := by
  show (w.peers n).bind (fun p => p.outbox.head?) = some i
  rw [hp, Option.bind_some, hout]
  rfl

/-- **Every turn keeps the processes in step.** -/
theorem Inv.step (hi : w.Inv) {t : Turn} (hturn : w.Careful t) (h : w.step t = some w') :
    w'.Inv := by
  have hstep := step_cases h
  clear h
  cases hstep with
  | @start n oldApi _ _ flags wd _ _ hp =>
      exact hi.newPeer hp oldApi flags wd rfl rfl (fun args he => absurd he (by simp))
  | serve hp hout h => exact hi.serve hp hout (hturn.1 _ (input_serve hp hout)) h
  | control hclient h => exact hi.control hclient (hturn.1 _ rfl) h
  | route hwire => exact hi.route hwire
  | handleReply hp halive hphase h => exact hi.handleReply hp halive hphase h
  | addMatch hp halive h => exact hi.addMatch hp halive h
  | @dispatch n env p l rest r hp hin halive hready h =>
      obtain ⟨-, henv, hfits⟩ := hturn
      refine hi.dispatch hp halive hready hin henv (hfits p hp l ?_) h
      rw [hin]
      exact rfl
  | ended hp => exact hi.exit hp
  | call hp halive hready => exact hi.call hp halive hready (hturn.2 _ hp)
  | exit hp => exact hi.exit hp

theorem start_inv (fs : Fs) (dir : CStr) : (start fs dir).Inv := by
  have hs := Server.start_starting fs dir
  have hnobody : ∀ a, a ∉ (start fs dir).server.loaded := by
    intro a ha
    rw [show (start fs dir).server.loaded = [] from hs.loaded] at ha
    exact absurd ha List.not_mem_nil
  refine ⟨hs.wf, ?_, ?_, ?_, ?_, ?_, ?_, ?_, ?_, ?_, ?_⟩
  · exact Server.NamesIdentify.of_unique (fun a ha => absurd ha (hnobody a))
  · exact fun a ha => absurd ha (hnobody a)
  · exact fun a ha => absurd ha (hnobody a)
  · exact fun n a c hc => absurd hc.loaded (hnobody a)
  · exact fun n _ l hl => absurd hl List.not_mem_nil
  · exact fun old new hl => absurd hl List.not_mem_nil
  · exact fun n p hp => absurd hp (by simp [start])
  · exact fun n p hp => absurd hp (by simp [start])
  · exact fun n p hp => absurd hp (by simp [start])
  · exact fun n p hp => absurd hp (by simp [start])

/-- The states that the daemon and its clients get to. -/
abbrev Reachable (fs : Fs) (dir : CStr) (w : Network) : Prop :=
  Runs.Reach Network.step Network.Careful (start fs dir) w

/-- **The processes are in step in every state.** -/
theorem Reachable.inv {fs : Fs} {dir : CStr} (h : Reachable fs dir w) : w.Inv :=
  h.invariant (start_inv fs dir) (fun _ _ _ _ hi hturn hstep => hi.step hturn hstep)

end Network

end Lash
