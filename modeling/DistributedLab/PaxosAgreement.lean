import DistributedLab.PaxosChronicle
import DistributedLab.PaxosHistory

/-!
# Agreement

The proposer's half of the argument and the agreement theorem.  A run of `run`
collects promises for one proposal number of its own, proposes the value of the
highest vote reported to it, and decides when a majority of the member list has
voted; with the acceptor's half (`PaxosHistory`) two acceptors never commit
different values for one instance.

The theorem needs the requests to be handled in order (`InOrder`), a non-empty
proposed value — the empty string stands for "no value accepted" — and proposal
numbers that have not wrapped.  `late_accept_breaks_agreement` shows what the
missing instance check in `acceptreq` does: an accept request of the round that
lost arrives after its acceptor has committed, and is granted.
-/

namespace DistributedLab.Paxos

open Transition

/-! ### The steps considered -/

/-- All runs use one member list. -/
def SameMembers (members : List String) (_ : Cluster) : Action → Prop
  | .run _ _ curNodes _ => curNodes = members
  | _ => True

/-- A run proposes a non-empty value, under a number that does not wrap. -/
def FreshRun (s : Cluster) : Action → Prop
  | .run p _ _ newv => newv ≠ "" ∧ (s.acc p).nH.n + 1 < unsignedBound ∧
      (s.pro p).myN.n + 1 < unsignedBound
  | _ => True

instance (members : List String) (s : Cluster) :
    (action : Action) → Decidable (SameMembers members s action)
  | .run _ _ curNodes _ => inferInstanceAs (Decidable (curNodes = members))
  | .deliver _ | .call _ | .skip _ | .receive .. | .next _ => inferInstanceAs (Decidable True)

instance (s : Cluster) : (action : Action) → Decidable (FreshRun s action)
  | .run .. => inferInstanceAs (Decidable (_ ∧ _))
  | .deliver _ | .call _ | .skip _ | .receive .. | .next _ => inferInstanceAs (Decidable True)

/-- Any two acceptors that have decided an instance hold the same value for it. -/
def Cluster.Agrees (s : Cluster) : Prop :=
  ∀ name name' inst v v', (s.acc name).values inst = some v →
    (s.acc name').values inst = some v' → v = v'

/-! ### The proposer's invariant -/

/-- What the local variables of a run numbered `n` stand for, phase by phase. -/
structure Run.Follows (members : Nat → List String → Prop) (replies : List Reply) (n : PropT)
    (r : Run) : Prop where
  curNodes : members r.inst r.curNodes
  newv : r.newv ≠ ""
  pos : 1 ≤ n.n
  prepare : r.phase = .prepare →
    (∀ d ∈ r.accepts, ∃ res, Promised replies d ⟨r.inst, n⟩ res ∧ res.nA ≤ r.max) ∧
    ((r.max.n = 0 ∧ r.v = "") ∨ ∃ d res, Promised replies d ⟨r.inst, n⟩ res ∧
      res.nA = r.max ∧ res.vA = r.v)
  accept : r.phase = .accept →
    (∀ d ∈ r.nodes, ∃ res, Promised replies d ⟨r.inst, n⟩ res) ∧
    Justified members replies ⟨r.inst, n, r.v⟩ ∧ r.v ≠ "" ∧
    ∀ d ∈ r.accepts, Voted replies d ⟨r.inst, n, r.v⟩
  decide : r.phase = .decide →
    Quorum members r.inst r.nodes ∧ ∀ d ∈ r.nodes, Voted replies d ⟨r.inst, n, r.v⟩

def Request.number : Request → Option PropT
  | .prepare arg => some arg.n
  | .accept arg => some arg.n
  | .decide _ => none

/-- Requests are numbered by their sender, and the accept requests of the current number
    are those of the current run. -/
structure Cluster.Numbered (s : Cluster) : Prop where
  owner : ∀ {call n}, call ∈ s.calls → call.req.number = some n →
    n.m = call.clt ∧ n.n ≤ (s.pro call.clt).myN.n
  current : ∀ {call arg r}, call ∈ s.calls → call.req = .accept arg →
    (s.pro call.clt).run = some r → arg.n = (s.pro call.clt).myN →
    r.phase ≠ .prepare ∧ arg.inst = r.inst ∧ arg.v = r.v

/-- The whole invariant of the agreement proof. -/
structure Cluster.Ordered (members : Nat → List String → Prop) (first : String) (s : Cluster) :
    Prop where
  wired : s.Wired
  acceptor : ∀ d, (s.acc d).Summarises members first s.replies d
  network : Consistent members first s.calls s.replies
  numbered : s.Numbered
  run : ∀ {p r}, (s.pro p).run = some r → r.Follows members s.replies (s.pro p).myN

/-! ### Runs -/

section Runs

variable {members : Nat → List String → Prop} {first : String} {replies : List Reply}
  {n : PropT} {r : Run}

theorem Run.Follows.mono {replies' : List Reply} (h : r.Follows members replies n)
    (hsub : ∀ reply ∈ replies, reply ∈ replies') : r.Follows members replies' n where
  curNodes := h.curNodes
  newv := h.newv
  pos := h.pos
  prepare := fun hphase => by
    obtain ⟨hall, hmax⟩ := h.prepare hphase
    refine ⟨fun d hd => ?_, hmax.imp_right ?_⟩
    · obtain ⟨res, hres, hle⟩ := hall d hd
      exact ⟨res, hres.mono hsub, hle⟩
    · rintro ⟨d, res, hres, heq⟩
      exact ⟨d, res, hres.mono hsub, heq⟩
  accept := fun hphase => by
    obtain ⟨hall, hjust, hv, hvoted⟩ := h.accept hphase
    refine ⟨fun d hd => ?_, hjust.mono hsub, hv, fun d hd => (hvoted d hd).mono hsub⟩
    obtain ⟨res, hres⟩ := hall d hd
    exact ⟨res, hres.mono hsub⟩
  decide := fun hphase => by
    obtain ⟨hq, hvoted⟩ := h.decide hphase
    exact ⟨hq, fun d hd => (hvoted d hd).mono hsub⟩

/-- The loop counter and the outstanding call do not matter. -/
theorem Run.Follows.reindex (h : r.Follows members replies n) (index : Nat)
    (pending : Option Nat) :
    ({ r with index := index, pending := pending } : Run).Follows members replies n :=
  ⟨h.curNodes, h.newv, h.pos, h.prepare, h.accept, h.decide⟩

/-- The prepare loop keeps the highest vote reported so far. -/
theorem Run.Follows.onPrepare (h : r.Follows members replies n) (hphase : r.phase = .prepare)
    {d : String} {res : PrepareRes}
    (hres : res.accept = true → Promised replies d ⟨r.inst, n⟩ res) :
    (r.onPrepare d res).Follows members replies n := by
  obtain ⟨hall, hmax⟩ := h.prepare hphase
  unfold Run.onPrepare
  split
  · rename_i haccept
    have hpromised := hres haccept
    split
    · -- a higher vote: it replaces the maximum and the value
      rename_i hgt
      have hlt : r.max < res.nA := PropT.gt_eq_true.mp hgt
      refine ⟨h.curNodes, h.newv, h.pos, fun _ => ⟨fun e he => ?_, Or.inr ?_⟩,
        fun hbad => ?_, fun hbad => ?_⟩
      · rcases List.mem_append.mp he with hold | hnew
        · obtain ⟨res', hres', hle⟩ := hall e hold
          exact ⟨res', hres', hle.trans hlt.le⟩
        · obtain rfl := List.mem_singleton.mp hnew
          exact ⟨res, hpromised, le_rfl⟩
      · exact ⟨d, res, hpromised, rfl, rfl⟩
      · exact absurd (hphase.symm.trans hbad) (by decide)
      · exact absurd (hphase.symm.trans hbad) (by decide)
    · rename_i hgt
      have hle : res.nA ≤ r.max := not_lt.mp fun hlt => hgt (PropT.gt_eq_true.mpr hlt)
      refine ⟨h.curNodes, h.newv, h.pos, fun _ => ⟨fun e he => ?_, hmax⟩,
        fun hbad => ?_, fun hbad => ?_⟩
      · rcases List.mem_append.mp he with hold | hnew
        · exact hall e hold
        · obtain rfl := List.mem_singleton.mp hnew
          exact ⟨res, hpromised, hle⟩
      · exact absurd (hphase.symm.trans hbad) (by decide)
      · exact absurd (hphase.symm.trans hbad) (by decide)
  · exact h

theorem Run.Follows.onAccept (h : r.Follows members replies n) (hphase : r.phase = .accept)
    {d : String} {granted : Bool}
    (hvoted : granted = true → Voted replies d ⟨r.inst, n, r.v⟩) :
    (r.onAccept d granted).Follows members replies n := by
  unfold Run.onAccept
  split
  · rename_i hgranted
    obtain ⟨hall, hjust, hv, haccepts⟩ := h.accept hphase
    refine ⟨h.curNodes, h.newv, h.pos, fun hbad => ?_, fun _ => ⟨hall, hjust, hv, ?_⟩,
      fun hbad => ?_⟩
    · exact absurd (hphase.symm.trans hbad) (by decide)
    · intro e he
      rcases List.mem_append.mp he with hold | hnew
      · exact haccepts e hold
      · obtain rfl := List.mem_singleton.mp hnew
        exact hvoted hgranted
    · exact absurd (hphase.symm.trans hbad) (by decide)
  · exact h

/-- At the end of the prepare loop an empty `v` means that no promise reported a vote. -/
theorem Run.Follows.justified (h : r.Follows members replies n) (hphase : r.phase = .prepare)
    {calls : List Call} (hcons : Consistent members first calls replies)
    (hmajority : majority r.curNodes r.accepts = true) :
    Justified members replies ⟨r.inst, n, if r.v = "" then r.newv else r.v⟩ := by
  obtain ⟨hall, hmax⟩ := h.prepare hphase
  refine ⟨r.accepts, r.max, ⟨r.curNodes, h.curNodes, hmajority⟩, hall, ?_⟩
  rcases hmax with ⟨hzero, -⟩ | ⟨d, res, hres, hmax, hv⟩
  · exact Or.inl hzero
  · by_cases hempty : r.v = ""
    · rcases (hcons.promise hres).2.2 with ⟨hzero, -⟩ | ⟨d', hvote⟩
      · exact Or.inl (hmax ▸ hzero)
      · exact absurd (hv.trans hempty) (hcons.of_voted hvote).2.2.1
    · exact Or.inr ⟨d, res, hres, hmax, by rw [if_neg hempty]; exact hv⟩

theorem Run.Follows.next {r' : Run} (h : r.Follows members replies n) {calls : List Call}
    (hcons : Consistent members first calls replies) (hnext : r.next = some r') :
    r'.Follows members replies n := by
  unfold Run.next at hnext
  split at hnext
  · rename_i hphase
    simp only [Option.ite_none_right_eq_some, Option.some.injEq] at hnext
    obtain ⟨hmajority, rfl⟩ := hnext
    refine ⟨h.curNodes, h.newv, h.pos, nofun, fun _ => ⟨fun d hd => ?_, ?_, ?_, nofun⟩, nofun⟩
    · obtain ⟨res, hres, -⟩ := (h.prepare hphase).1 d hd
      exact ⟨res, hres⟩
    · exact h.justified hphase hcons hmajority
    · show (if r.v = "" then r.newv else r.v) ≠ ""
      split
      · exact h.newv
      · assumption
  · rename_i hphase
    simp only [Option.ite_none_right_eq_some, Option.some.injEq] at hnext
    obtain ⟨hmajority, rfl⟩ := hnext
    refine ⟨h.curNodes, h.newv, h.pos, nofun, nofun, fun _ => ?_⟩
    exact ⟨⟨r.curNodes, h.curNodes, hmajority⟩, (h.accept hphase).2.2.2⟩
  · cases hnext

end Runs

/-! ### Preservation -/

section Preservation

variable {members : Nat → List String → Prop} {first : String} {s : Cluster}

/-- The invariant does not look at which processes are up. -/
theorem Cluster.Ordered.congr {t : Cluster} (h : s.Ordered members first) (hacc : t.acc = s.acc)
    (hpro : t.pro = s.pro) (hcalls : t.calls = s.calls) (hreplies : t.replies = s.replies) :
    t.Ordered members first where
  wired := h.wired.congr hpro hcalls hreplies
  acceptor := hacc ▸ hreplies ▸ h.acceptor
  network := hcalls ▸ hreplies ▸ h.network
  numbered :=
    { owner := hcalls ▸ hpro ▸ h.numbered.owner
      current := hcalls ▸ hpro ▸ h.numbered.current }
  run := hpro ▸ hreplies ▸ h.run

theorem Cluster.Ordered.setDown (h : s.Ordered members first) (p : String) :
    (s.setDown p).Ordered members first :=
  h.congr (funext (s.acc_setDown p)) (funext (s.pro_setDown p)) rfl rfl

/-- A change of the proposer of `p`. -/
theorem Cluster.Ordered.setPro (h : s.Ordered members first) {p : String} {pro : Proposer}
    (hwired : (s.setPro p pro).Wired)
    (hnumber : (∀ call ∈ s.calls, call.clt ≠ p) ∨ (s.pro p).myN.n ≤ pro.myN.n)
    (hcurrent : ∀ {call arg r}, call ∈ s.calls → call.clt = p → call.req = .accept arg →
      pro.run = some r → arg.n = pro.myN → r.phase ≠ .prepare ∧ arg.inst = r.inst ∧ arg.v = r.v)
    (hfollows : ∀ r, pro.run = some r → r.Follows members s.replies pro.myN) :
    (s.setPro p pro).Ordered members first where
  wired := hwired
  acceptor := fun d => by
    rw [Cluster.acc_setPro]
    exact h.acceptor d
  network := h.network
  numbered :=
    { owner := fun {call n} hcall hn => by
        have howner := h.numbered.owner hcall hn
        rw [Cluster.pro_setPro]
        split
        · rename_i heq
          have hle := hnumber.resolve_left fun hnone => hnone call hcall heq
          rw [heq] at howner ⊢
          exact ⟨howner.1, Nat.le_trans howner.2 hle⟩
        · exact howner
      current := fun {call arg r} hcall hreq hr hn => by
        rw [Cluster.pro_setPro] at hr hn
        split at hr
        · rename_i heq
          rw [if_pos heq] at hn
          exact hcurrent hcall heq hreq hr hn
        · rename_i hne
          rw [if_neg hne] at hn
          exact h.numbered.current hcall hreq hr hn }
  run := fun {q r} hr => by
    rw [Cluster.pro_setPro] at hr ⊢
    split at hr
    · rename_i heq
      rw [if_pos heq]
      exact hfollows r hr
    · rename_i hne
      rw [if_neg hne]
      exact h.run hr

/-- A change of the local variables of the run of `p`, under the same number. -/
theorem Cluster.Ordered.setRun (h : s.Ordered members first) {p : String} {run : Option Run}
    (hpending : ∀ r, run = some r → r.pending = none)
    (hfollows : ∀ r, run = some r → r.Follows members s.replies (s.pro p).myN)
    (hcurrent : ∀ r r', run = some r → (s.pro p).run = some r' → r'.phase ≠ .prepare →
      r.phase ≠ .prepare ∧ r.inst = r'.inst ∧ r.v = r'.v)
    (hrunning : (s.pro p).run ≠ none) : (s.setRun p run).Ordered members first := by
  apply h.setPro (h.wired.setRun hpending)
  · exact .inr (Nat.le_refl _)
  · intro call arg r hcall hclt hreq hr hn
    obtain ⟨r', hr'⟩ := Option.ne_none_iff_exists'.mp hrunning
    obtain ⟨hphase, hinst, hv⟩ := h.numbered.current hcall hreq (hclt ▸ hr') (hclt ▸ hn)
    obtain ⟨hphase', hinst', hv'⟩ := hcurrent r r' hr hr' hphase
    exact ⟨hphase', hinst.trans hinst'.symm, hv.trans hv'.symm⟩
  · exact hfollows

theorem Cluster.Ordered.setAcc (h : s.Ordered members first) {name : String} {acc : Acceptor}
    (hacc : acc.Summarises members first s.replies name) :
    (s.setAcc name acc).Ordered members first where
  wired := h.wired.setAcc name acc
  acceptor := fun d => by
    rw [Cluster.acc_setAcc]
    split
    · rename_i heq
      exact heq ▸ hacc
    · exact h.acceptor d
  network := h.network
  numbered :=
    { owner := fun hcall hn => by
        rw [Cluster.pro_setAcc]
        exact h.numbered.owner hcall hn
      current := fun hcall hreq hr hn => by
        rw [Cluster.pro_setAcc] at hr hn
        exact h.numbered.current hcall hreq hr hn }
  run := fun hr => by
    rw [Cluster.pro_setAcc] at hr ⊢
    exact h.run hr

/-- `setn` takes a number above every number used before. -/
theorem Proposer.lt_setn {p : Proposer} {acc : Acceptor} (hseen : acc.nH.n + 1 < unsignedBound)
    (hmine : p.myN.n + 1 < unsignedBound) : p.myN.n < (p.setn acc).n := by
  simp only [Proposer.setn, Nat.mod_eq_of_lt hseen, Nat.mod_eq_of_lt hmine]
  split <;> omega

theorem Cluster.Ordered.start (h : s.Ordered members first) {p : String} {inst : Nat}
    {curNodes : List String} (hcur : members inst curNodes) {newv : String} (hnewv : newv ≠ "")
    (hseen : (s.acc p).nH.n + 1 < unsignedBound)
    (hmine : (s.pro p).myN.n + 1 < unsignedBound) :
    (s.setPro p ((s.pro p).start (s.acc p) inst curNodes newv)).Ordered members first := by
  have hlt := (s.pro p).lt_setn hseen hmine
  apply h.setPro (h.wired.start inst curNodes newv)
  · exact .inr (Nat.le_of_lt hlt)
  · -- no request carries the new number yet
    intro call arg r hcall hclt hreq _ hn
    have howner := h.numbered.owner hcall (by rw [hreq, Request.number])
    rw [hclt] at howner
    have hnew : arg.n.n = ((s.pro p).setn (s.acc p)).n := congrArg PropT.n hn
    omega
  · intro r hr
    obtain rfl := Option.some.inj hr
    refine ⟨hcur, hnewv, Nat.lt_of_le_of_lt (Nat.zero_le _) hlt, fun _ => ⟨nofun, ?_⟩, nofun,
      nofun⟩
    exact Or.inl ⟨rfl, rfl⟩

/-- The request of a run fits the requests already sent. -/
theorem Cluster.Ordered.consistent_send (h : s.Ordered members first) {p : String} {r : Run}
    {dst : String} (hrun : (s.pro p).run = some r) (hdst : dst ∈ r.nodes) :
    Consistent members first
      (⟨p, (s.pro p).xid, dst, r.request (s.pro p).myN⟩ :: s.calls) s.replies := by
  have hfollows := h.run hrun
  -- an accept request with the number of the run is one of this run
  have same : ∀ {call arg}, call ∈ s.calls → call.req = .accept arg →
      arg.n = (s.pro p).myN → arg = ⟨r.inst, (s.pro p).myN, r.v⟩ := by
    intro call arg hcall hreq hn
    have hclt : call.clt = p := by
      rw [← (h.numbered.owner hcall (by rw [hreq, Request.number])).1, hn, h.wired.owner]
    obtain ⟨-, hinst, hv⟩ := h.numbered.current hcall hreq (hclt ▸ hrun) (hclt ▸ hn)
    rw [← hinst, ← hv, ← hn]
  cases hphase : r.phase with
  | prepare =>
      simp only [Run.request, hphase]
      apply h.network.cons_call
      · intro arg hreq
        exact Request.prepare.inj hreq ▸ hfollows.pos
      · intro arg hreq
        cases hreq
      · intro arg hreq
        cases hreq
      · intro arg call arg' hreq
        cases hreq
  | accept =>
      simp only [Run.request, hphase]
      obtain ⟨hall, hjust, hv, -⟩ := hfollows.accept hphase
      apply h.network.cons_call
      · intro arg hreq
        cases hreq
      · intro arg hreq
        obtain rfl := Request.accept.inj hreq
        exact ⟨hall dst hdst, hjust, hv, hfollows.pos⟩
      · intro arg hreq
        cases hreq
      · intro arg call arg' hreq hcall hreq' hn
        obtain rfl := Request.accept.inj hreq
        exact same hcall hreq' hn
  | decide =>
      simp only [Run.request, hphase]
      apply h.network.cons_call
      · intro arg hreq
        cases hreq
      · intro arg hreq
        cases hreq
      · intro arg hreq
        obtain rfl := Request.decide.inj hreq
        obtain ⟨hq, hvoted⟩ := hfollows.decide hphase
        exact ⟨_, r.nodes, hq, hvoted, hdst⟩
      · intro arg call arg' hreq
        cases hreq

theorem Run.request_number {r : Run} {myN n : PropT} (h : (r.request myN).number = some n) :
    n = myN := by
  unfold Run.request at h
  split at h
  · exact (Option.some.inj h).symm
  · exact (Option.some.inj h).symm
  · cases h

theorem Run.request_accept {r : Run} {myN : PropT} {arg : AcceptArg}
    (h : r.request myN = .accept arg) :
    r.phase ≠ .prepare ∧ arg.inst = r.inst ∧ arg.v = r.v := by
  cases hphase : r.phase <;> simp only [Run.request, hphase, reduceCtorEq] at h
  obtain rfl := Request.accept.inj h
  exact ⟨by decide, rfl, rfl⟩

theorem Cluster.Ordered.send (h : s.Ordered members first) {p : String} {r : Run}
    {dst : String} (hrun : (s.pro p).run = some r)
    (hdst : r.nodes[r.index]? = some dst) : (s.send p r dst).Ordered members first := by
  have hpro : ∀ q, ((s.send p r dst).pro q).myN = (s.pro q).myN := fun q => by
    show ((s.setPro p _).pro q).myN = _
    rw [Cluster.pro_setPro]
    split
    · rename_i heq
      rw [heq]
    · rfl
  -- the run itself only gets a new outstanding call
  have hruns : ∀ {q r'}, ((s.send p r dst).pro q).run = some r' →
      ∃ r₀, (s.pro q).run = some r₀ ∧ ∃ pending, r' = { r₀ with pending := pending } := by
    intro q r' hr'
    change ((s.setPro p _).pro q).run = some r' at hr'
    rw [Cluster.pro_setPro] at hr'
    split at hr'
    · rename_i heq
      obtain rfl := Option.some.inj hr'
      exact ⟨r, heq ▸ hrun, _, rfl⟩
    · exact ⟨r', hr', r'.pending, rfl⟩
  refine
    { wired := h.wired.send hdst
      acceptor := fun d => by
        show ((s.setPro p _).acc d).Summarises members first s.replies d
        rw [Cluster.acc_setPro]
        exact h.acceptor d
      network := h.consistent_send hrun (List.mem_of_getElem? hdst)
      numbered := ⟨fun {call n} hcall hn => ?_, fun {call arg r'} hcall hreq hr' hn => ?_⟩
      run := fun {q r'} hr' => ?_ }
  · rw [hpro]
    rcases List.mem_cons.mp hcall with rfl | hold
    · obtain rfl := Run.request_number hn
      exact ⟨h.wired.owner p, Nat.le_refl _⟩
    · exact h.numbered.owner hold hn
  · obtain ⟨r₀, hr₀, pending, rfl⟩ := hruns hr'
    rw [hpro] at hn
    rcases List.mem_cons.mp hcall with rfl | hold
    · obtain rfl := Option.some.inj (hrun.symm.trans hr₀)
      exact Run.request_accept hreq
    · have hcurrent := h.numbered.current hold hreq hr₀ hn
      exact hcurrent
  · obtain ⟨r₀, hr₀, pending, rfl⟩ := hruns hr'
    rw [hpro]
    exact (h.run hr₀).reindex r₀.index pending

theorem Cluster.Ordered.handled (h : s.Ordered members first) {call : Call} {acc : Acceptor}
    {res : Response} (hcall : call ∈ s.calls)
    (houtcome : (s.acc call.dst).Outcome call.req acc res)
    (horder : (s.acc call.dst).InOrder call.req)
    (hone : (s.acc call.dst).instanceH = 0 → ∀ v, ¬ ChosenIn members s.replies 1 v) :
    ({ s.setAcc call.dst acc with replies := ⟨call, res⟩ :: s.replies } : Cluster).Ordered
      members first := by
  have hacc := houtcome.summarises (h.acceptor _) h.network hcall horder hone
  have hwired := h.wired.setAcc call.dst acc
  refine
    { wired := ⟨hwired.owner, hwired.xid_lt, hwired.pending, ?_⟩
      acceptor := fun d => ?_
      network := h.network.handled houtcome (h.acceptor _) hcall horder
      numbered := ⟨fun {c n} hc hn => ?_, fun {c arg r} hc hreq hr hn => ?_⟩
      run := fun {p r} hr => ?_ }
  · exact (h.network.handled houtcome (h.acceptor _) hcall horder).reply_call
  · show ((s.setAcc call.dst acc).acc d).Summarises members first _ d
    rw [Cluster.acc_setAcc]
    split
    · rename_i heq
      exact heq ▸ hacc
    · rename_i hne
      exact (h.acceptor d).cons_of_ne fun heq => hne heq.symm
  · show n.m = c.clt ∧ n.n ≤ ((s.setAcc call.dst acc).pro c.clt).myN.n
    rw [Cluster.pro_setAcc]
    exact h.numbered.owner hc hn
  · change ((s.setAcc call.dst acc).pro c.clt).run = some r at hr
    change arg.n = ((s.setAcc call.dst acc).pro c.clt).myN at hn
    rw [Cluster.pro_setAcc] at hr hn
    exact h.numbered.current hc hreq hr hn
  · change ((s.setAcc call.dst acc).pro p).run = some r at hr
    show r.Follows members _ ((s.setAcc call.dst acc).pro p).myN
    rw [Cluster.pro_setAcc] at hr ⊢
    exact (h.run hr).mono fun _ => List.mem_cons_of_mem _

/-- The loop goes on to the next node. -/
theorem Cluster.Ordered.advance (h : s.Ordered members first) {p : String} {r r' : Run}
    (hrun : (s.pro p).run = some r) (hfollows : r'.Follows members s.replies (s.pro p).myN)
    (hinst : r'.inst = r.inst) (hphase : r'.phase = r.phase)
    (hv : r.phase ≠ .prepare → r'.v = r.v) :
    (s.setRun p (some r'.advance)).Ordered members first := by
  refine h.setRun (fun r'' hr'' => ?_) (fun r'' hr'' => ?_) (fun r'' r₀ hr'' hr₀ hne => ?_)
    (by rw [hrun]; exact Option.some_ne_none r)
  · obtain rfl := Option.some.inj hr''
    rfl
  · obtain rfl := Option.some.inj hr''
    exact hfollows.reindex _ _
  · obtain rfl := Option.some.inj hr''
    obtain rfl := Option.some.inj (hrun.symm.trans hr₀)
    exact ⟨fun hbad => hne (hphase ▸ hbad), hinst, hv hne⟩

section Members

variable {members' : Nat → List String → Prop}
  (hsub : ∀ inst nodes, members inst nodes → members' inst nodes)

include hsub

theorem Quorum.mono {inst : Nat} {q : List String} (h : Quorum members inst q) :
    Quorum members' inst q := by
  obtain ⟨nodes, hnodes, hq⟩ := h
  exact ⟨nodes, hsub inst nodes hnodes, hq⟩

theorem Decided.mono_members {replies : List Reply} {inst : Nat} {v : String}
    (h : Decided members first replies inst v) : Decided members' first replies inst v := by
  cases h with
  | first hinst hv => exact .first hinst hv
  | chosen hinst hv =>
      obtain ⟨n, q, hq, hvoted⟩ := hv
      exact .chosen hinst ⟨n, q, hq.mono hsub, hvoted⟩

theorem Justified.mono_members {replies : List Reply} {arg : AcceptArg}
    (h : Justified members replies arg) : Justified members' replies arg := by
  obtain ⟨q, max, hq, hrest⟩ := h
  exact ⟨q, max, hq.mono hsub, hrest⟩

theorem Acceptor.Founded.mono_members {replies : List Reply} {a : Acceptor}
    (h : a.Founded members first replies) : a.Founded members' first replies :=
  ⟨h.held, h.bounded, fun hv => (h.decided hv).mono_members hsub⟩

/-- More member lists come into use. -/
theorem Cluster.Ordered.mono_members (h : s.Ordered members first) :
    s.Ordered members' first where
  wired := h.wired
  acceptor := fun d => by
    have hd := h.acceptor d
    exact ⟨hd.toFounded.mono_members hsub, hd.promised_le, hd.voted_le⟩
  network :=
    { h.network with
      accept := fun hcall hreq => by
        obtain ⟨hpromised, hjust, hrest⟩ := h.network.accept hcall hreq
        exact ⟨hpromised, hjust.mono_members hsub, hrest⟩
      decide := fun hcall hreq => by
        obtain ⟨n, q, hq, hrest⟩ := h.network.decide hcall hreq
        exact ⟨n, q, hq.mono hsub, hrest⟩
      old := fun hreply hreq hold hinst =>
        (h.network.old hreply hreq hold hinst).mono_members hsub }
  numbered := h.numbered
  run := fun hr => by
    have hfollows := h.run hr
    refine { hfollows with curNodes := hsub _ _ hfollows.curNodes, accept := fun hphase => ?_,
                           decide := fun hphase => ?_ }
    · obtain ⟨hall, hjust, hrest⟩ := hfollows.accept hphase
      exact ⟨hall, hjust.mono_members hsub, hrest⟩
    · obtain ⟨hq, hvoted⟩ := hfollows.decide hphase
      exact ⟨hq.mono hsub, hvoted⟩

end Members

/-- One step of the kind considered keeps the invariant. -/
theorem Cluster.Ordered.move {action : Action} {t : Cluster} (h : s.Ordered members first)
    (hmove : s.Move action t)
    (hmembers : ∀ p inst curNodes newv, action = .run p inst curNodes newv →
      members inst curNodes)
    (horder : InOrder s action) (hfresh : FreshRun s action)
    (hone : ∀ d, (s.acc d).instanceH = 0 → ∀ v, ¬ ChosenIn members s.replies 1 v) :
    t.Ordered members first := by
  cases hmove with
  | @run p inst curNodes newv hrun hinst =>
      obtain ⟨hnewv, hseen, hmine⟩ := hfresh
      exact (h.start (hmembers p inst curNodes newv rfl) hnewv hseen hmine).congr rfl rfl rfl rfl
  | call hrun hpending hdst => exact h.send hrun hdst
  | skip hrun => exact h.advance hrun (h.run hrun) rfl rfl fun _ => rfl
  | handled hcall houtcome => exact h.handled hcall houtcome horder (hone _)
  | aborted => exact h.setDown _
  | @oldinstance p r call res hrun hreply hclt hpending hphase hold =>
      have hreq := h.wired.replied hrun hreply hclt hpending
      simp only [Run.request, hphase] at hreq
      have hcommit := (h.acceptor p).commit (h.network.old hreply hreq hold)
      apply (h.setAcc hcommit).setRun
      · intro r' hr'
        cases hr'
      · intro r' hr'
        cases hr'
      · intro r' r₀ hr'
        cases hr'
      · rw [Cluster.pro_setAcc, hrun]
        exact Option.some_ne_none r
  | @prepared p r call res hrun hreply hclt hpending hphase hold =>
      have hreq := h.wired.replied hrun hreply hclt hpending
      simp only [Run.request, hphase] at hreq
      obtain ⟨hinst, hphase'⟩ := r.onPrepare_inst_phase call.dst res
      refine h.advance hrun ((h.run hrun).onPrepare hphase fun haccept => ?_) hinst hphase'
        fun hne => absurd hphase hne
      exact ⟨call, hreply, rfl, hreq, haccept⟩
  | @accepted p r call granted hrun hreply hclt hpending hphase =>
      have hreq := h.wired.replied hrun hreply hclt hpending
      simp only [Run.request, hphase] at hreq
      obtain ⟨hinst, hphase', hv⟩ := r.onAccept_frame call.dst granted
      refine h.advance hrun ((h.run hrun).onAccept hphase fun hgranted => ?_) hinst hphase'
        fun _ => hv
      subst hgranted
      exact ⟨call, hreply, rfl, hreq⟩
  | decided hrun => exact h.advance hrun (h.run hrun) rfl rfl fun _ => rfl
  | @next p r hrun hindex =>
      refine h.setRun (fun r' hr' => Run.next_pending hr')
        (fun r' hr' => (h.run hrun).next h.network hr') (fun r' r₀ hr' hr₀ hne => ?_)
        (by rw [hrun]; exact Option.some_ne_none r)
      obtain rfl := Option.some.inj (hrun.symm.trans hr₀)
      exact Run.next_frame hr' hne

end Preservation

theorem Cluster.ordered_initial (members : Nat → List String → Prop) (first : String) :
    (Cluster.initial first).Ordered members first where
  wired := Cluster.wired_initial first
  acceptor := fun d =>
    { held := Or.inl ⟨rfl, rfl⟩
      bounded := Or.inl rfl
      decided := fun {inst v} hv => by
        change Function.update (fun _ => none) 1 (some first) inst = some v at hv
        by_cases hone : inst = 1
        · rw [hone, Function.update_self, Option.some.injEq] at hv
          exact .first hone.le hv.symm
        · rw [Function.update_of_ne hone] at hv
          cases hv
      promised_le := fun ⟨_, hmem, _⟩ => by cases hmem
      voted_le := fun ⟨_, hmem, _⟩ => by cases hmem }
  network :=
    { reply_call := nofun
      prepare := nofun
      accept := nofun
      decide := nofun
      unique := nofun
      old := nofun
      promise_pos := fun ⟨_, hmem, _⟩ => by cases hmem
      promise := fun ⟨_, hmem, _⟩ => by cases hmem }
  numbered := ⟨nofun, nofun⟩
  run := nofun

/-- **Agreement.**  In a run over one member list in which every request is handled in order
    and proposals are fresh, no two acceptors commit different values for one instance. -/
theorem committed_values_agree {members : List String} {first : String} {s : Cluster}
    (h : (paxos first).Reach (fun s action =>
      SameMembers members s action ∧ InOrder s action ∧ FreshRun s action) s) : s.Agrees := by
  have hinv : s.Ordered (fun _ nodes => nodes = members) first ∧ ∀ d, 1 ≤ (s.acc d).instanceH := by
    refine h.invariant (P := fun s => s.Ordered (fun _ nodes => nodes = members) first ∧
      ∀ d, 1 ≤ (s.acc d).instanceH) ?_ ?_
    · rintro start rfl
      exact ⟨Cluster.ordered_initial _ first, fun _ => Nat.le_refl 1⟩
    · rintro state next action ⟨hordered, hstarted⟩ ⟨hmembers, horder, hfresh⟩ hstep
      have hmove := Cluster.move_of_step hstep
      refine ⟨hordered.move hmove ?_ horder hfresh fun d hzero => ?_,
        fun d => (hstarted d).trans (hmove.progress d).instanceH_le⟩
      · rintro p inst curNodes newv rfl
        exact hmembers
      · exact absurd hzero (Nat.ne_of_gt (hstarted d))
  intro name name' inst v v' hv hv'
  refine hinv.1.network.decided_unique (fun _ nodes nodes' hnodes hnodes' => ?_)
    ((hinv.1.acceptor name).decided hv) ((hinv.1.acceptor name').decided hv')
  rw [hnodes, hnodes']

/-- Node `b` takes three nodes from view 1 to view 2. -/
def completeRound : List Action :=
  let n : PropT := ⟨1, "b"⟩
  .run "b" 2 ["a", "b", "c"] "a b c d " ::
  Action.roundTrip ⟨"b", 0, "a", .prepare ⟨2, n⟩⟩ (granted "a") ++
  Action.roundTrip ⟨"b", 1, "b", .prepare ⟨2, n⟩⟩ (granted "b") ++
  Action.roundTrip ⟨"b", 2, "c", .prepare ⟨2, n⟩⟩ (granted "c") ++
  .next "b" ::
  Action.roundTrip ⟨"b", 3, "a", .accept ⟨2, n, "a b c d "⟩⟩ (.accept true) ++
  Action.roundTrip ⟨"b", 4, "b", .accept ⟨2, n, "a b c d "⟩⟩ (.accept true) ++
  Action.roundTrip ⟨"b", 5, "c", .accept ⟨2, n, "a b c d "⟩⟩ (.accept true) ++
  .next "b" ::
  Action.roundTrip ⟨"b", 6, "a", .decide ⟨2, "a b c d "⟩⟩ .decide ++
  Action.roundTrip ⟨"b", 7, "b", .decide ⟨2, "a b c d "⟩⟩ .decide ++
  Action.roundTrip ⟨"b", 8, "c", .decide ⟨2, "a b c d "⟩⟩ .decide

theorem committed_values_agree_completeRound :
    ∃ s, (paxos "a b c ").Reach (fun s action => SameMembers ["a", "b", "c"] s action ∧
        InOrder s action ∧ FreshRun s action) s ∧
      ((s.acc "a").values 2, (s.acc "c").values 2) = (some "a b c d ", some "a b c d ") ∧
      s.Agrees := by
  obtain ⟨s, hreach, hseen⟩ : ∃ s, (paxos "a b c ").Reach (fun s action =>
      SameMembers ["a", "b", "c"] s action ∧ InOrder s action ∧ FreshRun s action) s ∧
      ((s.acc "a").values 2, (s.acc "c").values 2) = (some "a b c d ", some "a b c d ") :=
    System.Reach.of_exec (fun s action => decide (SameMembers ["a", "b", "c"] s action ∧
      InOrder s action ∧ FreshRun s action)) completeRound rfl
      (fun _ _ h => of_decide_eq_true h) (by decide +kernel)
  exact ⟨s, hreach, hseen, committed_values_agree hreach⟩

/-- `a` has the promises of `a` and `b` and the vote of `a` when `c` overtakes it with a
    higher number and `b` commits the value of `c`.  The accept request of `a` then reaches
    `b`, whose `n_h` has been reset, and is granted: `a` has a majority too. -/
def lateAcceptRun : List Action :=
  let nodes := ["a", "b", "c"]
  let nₐ : PropT := ⟨1, "a"⟩
  let n : PropT := ⟨1, "c"⟩
  let late : Call := ⟨"a", 3, "b", .accept ⟨2, nₐ, "a b "⟩⟩
  .run "a" 2 nodes "a b " ::
  Action.roundTrip ⟨"a", 0, "a", .prepare ⟨2, nₐ⟩⟩ (granted "a") ++
  Action.roundTrip ⟨"a", 1, "b", .prepare ⟨2, nₐ⟩⟩ (granted "b") ++
  .skip "a" :: .next "a" ::
  Action.roundTrip ⟨"a", 2, "a", .accept ⟨2, nₐ, "a b "⟩⟩ (.accept true) ++
  .call "a" ::
  .run "c" 2 nodes "b c " :: .skip "c" ::
  Action.roundTrip ⟨"c", 0, "b", .prepare ⟨2, n⟩⟩ (granted "b") ++
  Action.roundTrip ⟨"c", 1, "c", .prepare ⟨2, n⟩⟩ (granted "c") ++
  .next "c" ::
  Action.roundTrip ⟨"c", 2, "b", .accept ⟨2, n, "b c "⟩⟩ (.accept true) ++
  Action.roundTrip ⟨"c", 3, "c", .accept ⟨2, n, "b c "⟩⟩ (.accept true) ++
  .next "c" ::
  Action.roundTrip ⟨"c", 4, "b", .decide ⟨2, "b c "⟩⟩ .decide ++
  .deliver late :: .receive "a" ⟨late, .accept true⟩ :: .next "a" ::
  Action.roundTrip ⟨"a", 4, "a", .decide ⟨2, "a b "⟩⟩ .decide

/-- Without the order of requests agreement fails: `a` and `b` commit different views as
    instance 2. -/
theorem late_accept_breaks_agreement :
    ¬ ∀ members first s, (paxos first).Reach (SameMembers members) s → s.Agrees := by
  intro hclaim
  obtain ⟨s, hreach, hseen⟩ : ∃ s, (paxos "a b c ").Reach (SameMembers ["a", "b", "c"]) s ∧
      ((s.acc "a").values 2, (s.acc "b").values 2) = (some "a b ", some "b c ") :=
    System.Reach.of_exec (fun s action => decide (SameMembers ["a", "b", "c"] s action))
      lateAcceptRun rfl (fun _ _ h => of_decide_eq_true h) (by decide +kernel)
  obtain ⟨ha, hb⟩ := Prod.mk.inj hseen
  have heq := hclaim _ _ s hreach "a" "b" 2 _ _ ha hb
  exact absurd heq (by decide)

end DistributedLab.Paxos
