import DistributedLab.PaxosCluster

/-!
# Calls and the runs that wait for them

A loop body goes on only with the reply to the call it made: `xid`s are fresh, so
the outstanding call carries the request of the current phase and went to a node of
the list the loop goes over.  This holds in every reachable state, whatever the
messages do.
-/

namespace DistributedLab.Paxos

open Transition

/-- Calls, replies and waiting loops fit together. -/
structure Cluster.Wired (s : Cluster) : Prop where
  owner : ∀ p, (s.pro p).myN.m = p
  xid_lt : ∀ call ∈ s.calls, call.xid < (s.pro call.clt).xid
  pending : ∀ {p r call}, (s.pro p).run = some r → call ∈ s.calls → call.clt = p →
    r.pending = some call.xid → call.req = r.request (s.pro p).myN ∧ call.dst ∈ r.nodes
  reply_call : ∀ reply ∈ s.replies, reply.call ∈ s.calls

section Preservation

variable {s : Cluster} {p : String}

/-- Only the proposers and the network matter. -/
theorem Cluster.Wired.congr {t : Cluster} (h : s.Wired) (hpro : t.pro = s.pro)
    (hcalls : t.calls = s.calls) (hreplies : t.replies = s.replies) : t.Wired where
  owner := hpro ▸ h.owner
  xid_lt := hpro ▸ hcalls ▸ h.xid_lt
  pending := hpro ▸ hcalls ▸ h.pending
  reply_call := hreplies ▸ hcalls ▸ h.reply_call

theorem Cluster.Wired.setAcc (h : s.Wired) (name : String) (acc : Acceptor) :
    (s.setAcc name acc).Wired where
  owner := fun p => by simpa using h.owner p
  xid_lt := fun call hcall => by simpa using h.xid_lt call hcall
  pending := fun {p r call} hrun hcall hclt hpending => by
    rw [Cluster.pro_setAcc] at hrun ⊢
    exact h.pending hrun hcall hclt hpending
  reply_call := h.reply_call

/-- A change of the proposer that leaves no call outstanding. -/
theorem Cluster.Wired.setPro (h : s.Wired) {pro : Proposer} (howner : pro.myN.m = (s.pro p).myN.m)
    (hxid : (s.pro p).xid ≤ pro.xid) (hrun : ∀ r, pro.run = some r → r.pending = none) :
    (s.setPro p pro).Wired where
  owner := fun q => by
    rw [Cluster.pro_setPro]
    split
    · rename_i heq
      rw [heq, howner, h.owner p]
    · exact h.owner q
  xid_lt := fun call hcall => by
    have hlt := h.xid_lt call hcall
    rw [Cluster.pro_setPro]
    split
    · rename_i heq
      rw [heq] at hlt
      exact Nat.lt_of_lt_of_le hlt hxid
    · exact hlt
  pending := fun {q r call} hq hcall hclt hpending => by
    rw [Cluster.pro_setPro] at hq ⊢
    by_cases heq : q = p
    · rw [if_pos heq] at hq
      rw [hrun r hq] at hpending
      cases hpending
    · rw [if_neg heq] at hq ⊢
      exact h.pending hq hcall hclt hpending
  reply_call := h.reply_call

theorem Cluster.Wired.setRun (h : s.Wired) {run : Option Run}
    (hrun : ∀ r, run = some r → r.pending = none) : (s.setRun p run).Wired :=
  h.setPro rfl (Nat.le_refl _) hrun

theorem Cluster.Wired.start (h : s.Wired) (inst : Nat) (curNodes : List String)
    (newv : String) : (s.setPro p ((s.pro p).start (s.acc p) inst curNodes newv)).Wired := by
  apply h.setPro
  · rfl
  · exact Nat.le_refl _
  · intro r hr
    obtain rfl := Option.some.inj hr
    rfl

theorem Cluster.Wired.send (h : s.Wired) {r : Run} {dst : String}
    (hdst : r.nodes[r.index]? = some dst) : (s.send p r dst).Wired where
  owner := fun q => by
    show ((s.setPro p _).pro q).myN.m = q
    rw [Cluster.pro_setPro]
    split
    · rename_i heq
      simpa [heq] using h.owner p
    · exact h.owner q
  xid_lt := fun call hcall => by
    show call.xid < ((s.setPro p _).pro call.clt).xid
    rw [Cluster.pro_setPro]
    rcases List.mem_cons.mp hcall with rfl | hold
    · simp
    · have hlt := h.xid_lt call hold
      split
      · rename_i heq
        rw [heq] at hlt
        exact Nat.lt_succ_of_lt hlt
      · exact hlt
  pending := fun {q r' call} hq hcall hclt hpending => by
    change ((s.setPro p _).pro q).run = some r' at hq
    show call.req = r'.request ((s.setPro p _).pro q).myN ∧ _
    rw [Cluster.pro_setPro] at hq ⊢
    by_cases heq : q = p
    · subst heq
      rw [if_pos rfl] at hq ⊢
      obtain rfl := Option.some.inj hq
      rcases List.mem_cons.mp hcall with rfl | hold
      · exact ⟨rfl, List.mem_of_getElem? hdst⟩
      · -- an older call of `p` has a smaller `xid`
        have hlt := h.xid_lt call hold
        rw [hclt] at hlt
        have hxid : (s.pro q).xid = call.xid := Option.some.inj hpending
        omega
    · rw [if_neg heq] at hq ⊢
      rcases List.mem_cons.mp hcall with rfl | hold
      · exact absurd hclt.symm heq
      · exact h.pending hq hold hclt hpending
  reply_call := fun reply hreply => List.mem_cons_of_mem _ (h.reply_call reply hreply)

/-- The reply that a loop goes on with answers the request of its phase. -/
theorem Cluster.Wired.replied (h : s.Wired) {r : Run} {call : Call} {res : Response}
    (hrun : (s.pro p).run = some r) (hreply : ⟨call, res⟩ ∈ s.replies) (hclt : call.clt = p)
    (hpending : r.pending = some call.xid) : call.req = r.request (s.pro p).myN :=
  (h.pending hrun (h.reply_call _ hreply) hclt hpending).1

theorem Run.onPrepare_inst_phase (r : Run) (d : String) (res : PrepareRes) :
    (r.onPrepare d res).inst = r.inst ∧ (r.onPrepare d res).phase = r.phase := by
  unfold Run.onPrepare
  split
  · split <;> exact ⟨rfl, rfl⟩
  · exact ⟨rfl, rfl⟩

theorem Run.onAccept_frame (r : Run) (d : String) (granted : Bool) :
    (r.onAccept d granted).inst = r.inst ∧ (r.onAccept d granted).phase = r.phase ∧
      (r.onAccept d granted).v = r.v := by
  unfold Run.onAccept
  split <;> exact ⟨rfl, rfl, rfl⟩

/-- `run` goes on to the next phase only with a majority. -/
theorem Run.next_cases {r r' : Run} (h : r.next = some r') :
    majority r.curNodes r.accepts = true ∧
      (r.phase = .prepare ∧
          r' = { r with
            phase := .accept
            nodes := r.accepts
            index := 0
            pending := none
            accepts := []
            v := if r.v = "" then r.newv else r.v } ∨
        r.phase = .accept ∧
          r' = { r with phase := .decide, nodes := r.accepts, index := 0, pending := none }) := by
  unfold Run.next at h
  split at h
  · rename_i hphase
    simp only [Option.ite_none_right_eq_some, Option.some.injEq] at h
    exact ⟨h.1, .inl ⟨hphase, h.2.symm⟩⟩
  · rename_i hphase
    simp only [Option.ite_none_right_eq_some, Option.some.injEq] at h
    exact ⟨h.1, .inr ⟨hphase, h.2.symm⟩⟩
  · cases h

/-- Ending a loop outside the prepare phase keeps instance and value. -/
theorem Run.next_frame {r r' : Run} (h : r.next = some r') (hphase : r.phase ≠ .prepare) :
    r'.phase ≠ .prepare ∧ r'.inst = r.inst ∧ r'.v = r.v := by
  obtain ⟨-, ⟨hprepare, -⟩ | ⟨-, rfl⟩⟩ := Run.next_cases h
  · exact absurd hprepare hphase
  · exact ⟨nofun, rfl, rfl⟩

theorem Run.next_inst {r r' : Run} (h : r.next = some r') : r'.inst = r.inst := by
  obtain ⟨-, ⟨-, rfl⟩ | ⟨-, rfl⟩⟩ := Run.next_cases h <;> rfl

theorem Run.next_pending {r r' : Run} (h : r.next = some r') : r'.pending = none := by
  obtain ⟨-, ⟨-, rfl⟩ | ⟨-, rfl⟩⟩ := Run.next_cases h <;> rfl

theorem Cluster.Wired.move {action : Action} {t : Cluster} (h : s.Wired)
    (hmove : s.Move action t) : t.Wired := by
  have advance : ∀ {p : String} (r : Run), (s.setRun p (some r.advance)).Wired := fun r =>
    h.setRun fun r' hr' => by
      obtain rfl := Option.some.inj hr'
      rfl
  cases hmove with
  | run hrun hinst => exact ⟨(h.start ..).owner, (h.start ..).xid_lt, (h.start ..).pending,
      h.reply_call⟩
  | call hrun hpending hdst => exact h.send hdst
  | skip hrun => exact advance _
  | @handled call acc res hcall houtcome =>
      have hacc := h.setAcc call.dst acc
      refine ⟨hacc.owner, hacc.xid_lt, hacc.pending, fun reply hreply => ?_⟩
      rcases List.mem_cons.mp hreply with rfl | hold
      · exact hcall
      · exact h.reply_call reply hold
  | aborted =>
      refine ⟨fun q => ?_, fun c hc => ?_, fun {q r c} hq hc hclt hpending => ?_, h.reply_call⟩
      · rw [Cluster.pro_setDown]
        exact h.owner q
      · rw [Cluster.pro_setDown]
        exact h.xid_lt c hc
      · rw [Cluster.pro_setDown] at hq ⊢
        exact h.pending hq hc hclt hpending
  | oldinstance => exact (h.setAcc _ _).setRun fun r hr => by cases hr
  | prepared => exact advance _
  | accepted => exact advance _
  | decided => exact advance _
  | next => exact h.setRun fun r hr => Run.next_pending hr

end Preservation

/-! ### What a step does to one node -/

section Frames

variable {s t : Cluster} {action : Action} {q : String}

theorem Cluster.Move.node_of_ne (h : s.Move action t) (hne : q ≠ action.node) :
    t.node q = s.node q := by
  cases h with
  | oldinstance hrun hreply hclt hpending hphase hold =>
      exact (Function.update_of_ne hne _ _).trans (Function.update_of_ne hne _ _)
  | _ => exact Function.update_of_ne hne _ _

theorem Cluster.Move.acc_of_ne (h : s.Move action t) (hne : q ≠ action.node) :
    t.acc q = s.acc q :=
  congrArg Node.acc (h.node_of_ne hne)

theorem Cluster.Move.pro_of_ne (h : s.Move action t) (hne : q ≠ action.node) :
    t.pro q = s.pro q :=
  congrArg Node.pro (h.node_of_ne hne)

/-- No step brings a process up. -/
theorem Cluster.Move.up (h : s.Move action t) (hup : (t.node q).up = true) :
    (s.node q).up = true := by
  by_cases hq : q = action.node
  · subst hq
    cases h with
    | aborted => simp [Cluster.setDown, Action.node] at hup
    | _ => simpa [Cluster.setPro, Cluster.setAcc, Cluster.setRun, Cluster.send, Action.node] using hup
  · rwa [h.node_of_ne hq] at hup

theorem Cluster.Move.runs_eq (h : s.Move action t)
    (hrun : ∀ p inst curNodes newv, action ≠ .run p inst curNodes newv) : t.runs = s.runs := by
  cases h with
  | run hnone hinst => exact absurd rfl (hrun _ _ _ _)
  | _ => rfl

theorem Cluster.Move.replies_subset (h : s.Move action t) :
    ∀ reply ∈ s.replies, reply ∈ t.replies := by
  cases h with
  | handled hcall houtcome => exact fun _ => List.mem_cons_of_mem _
  | _ => exact fun _ hreply => hreply

/-- The acceptor of a node stays as it is, runs a handler, or commits the instance of the
    node's own run. -/
theorem Cluster.Move.acc_cases (h : s.Move action t) (q : String) :
    t.acc q = s.acc q ∨ (∃ req res, (s.acc q).Outcome req (t.acc q) res) ∨
      ∃ r v, (s.pro q).run = some r ∧ t.acc q = (s.acc q).commit r.inst v := by
  by_cases hq : q = action.node
  · subst hq
    cases h with
    | @handled call acc res hcall houtcome =>
        refine .inr (.inl ⟨call.req, res, ?_⟩)
        have hacc : ({ s.setAcc call.dst acc with replies := ⟨call, res⟩ :: s.replies } :
            Cluster).acc call.dst = acc := (s.acc_setAcc call.dst call.dst acc).trans (if_pos rfl)
        rw [Action.node, hacc]
        exact houtcome
    | @oldinstance p r call res hrun hreply hclt hpending hphase hold =>
        refine .inr (.inr ⟨r, res.vA, hrun, ?_⟩)
        exact ((Cluster.acc_setPro ..).trans (s.acc_setAcc p p _)).trans (if_pos rfl)
    | aborted => exact .inl (Cluster.acc_setDown ..)
    | _ => exact .inl (Cluster.acc_setPro ..)
  · exact .inl (h.acc_of_ne hq)

/-- A run after a step is the one before it, for the same instance, unless it has just begun. -/
theorem Cluster.Move.run_cases (h : s.Move action t) {r' : Run} (hr' : (t.pro q).run = some r') :
    (∃ r, (s.pro q).run = some r ∧ r'.inst = r.inst) ∨
      ∃ curNodes newv, action = .run q r'.inst curNodes newv := by
  by_cases hq : q = action.node
  · -- the run of `p` becomes `run`
    have setRun : ∀ {s : Cluster} {p : String} {run : Option Run},
        ((s.setRun p run).pro p).run = run := fun {s p run} => by
      rw [Cluster.setRun, Cluster.pro_setPro, if_pos rfl]
    subst hq
    cases h with
    | @run p inst curNodes newv hrun hinst =>
        have hrun' : some r' = some _ :=
          hr'.symm.trans (congrArg Proposer.run ((s.pro_setPro p p _).trans (if_pos rfl)))
        obtain rfl := Option.some.inj hrun'
        exact .inr ⟨curNodes, newv, rfl⟩
    | @call p r dst hrun hpending hdst =>
        have hrun' : some r' = some _ :=
          hr'.symm.trans (congrArg Proposer.run ((s.pro_setPro p p _).trans (if_pos rfl)))
        obtain rfl := Option.some.inj hrun'
        exact .inl ⟨r, hrun, rfl⟩
    | @skip p r hrun =>
        obtain rfl := Option.some.inj (hr'.symm.trans setRun)
        exact .inl ⟨r, hrun, rfl⟩
    | @handled call acc res hcall houtcome =>
        have hpro : ({ s.setAcc call.dst acc with replies := ⟨call, res⟩ :: s.replies } :
            Cluster).pro call.dst = s.pro call.dst := s.pro_setAcc call.dst call.dst acc
        rw [Action.node, hpro] at hr'
        exact .inl ⟨r', hr', rfl⟩
    | @aborted call =>
        rw [Action.node, Cluster.pro_setDown] at hr'
        exact .inl ⟨r', hr', rfl⟩
    | oldinstance hrun hreply hclt hpending hphase hold =>
        have := hr'.symm.trans setRun
        cases this
    | @prepared p r call res hrun hreply hclt hpending hphase hold =>
        obtain rfl := Option.some.inj (hr'.symm.trans setRun)
        exact .inl ⟨r, hrun, (r.onPrepare_inst_phase call.dst res).1⟩
    | @accepted p r call granted hrun hreply hclt hpending hphase =>
        obtain rfl := Option.some.inj (hr'.symm.trans setRun)
        exact .inl ⟨r, hrun, (r.onAccept_frame call.dst granted).1⟩
    | @decided p r call hrun hphase =>
        obtain rfl := Option.some.inj (hr'.symm.trans setRun)
        exact .inl ⟨r, hrun, rfl⟩
    | @next p r hrun hindex => exact .inl ⟨r, hrun, Run.next_inst (setRun.symm.trans hr')⟩
  · rw [h.pro_of_ne hq] at hr'
    exact .inl ⟨r', hr', rfl⟩

end Frames

theorem Cluster.wired_initial (first : String) : (Cluster.initial first).Wired where
  owner := fun _ => rfl
  xid_lt := fun _ hcall => by cases hcall
  pending := fun hrun => by cases hrun
  reply_call := fun _ hreply => by cases hreply

end DistributedLab.Paxos
