import DistributedLab.PaxosCalls

/-!
# Validity: committed values were proposed for their instance

All instances share one `(n_h, n_a, v_a)`, and neither `acceptreq` nor a granted
`preparereq` compares the instance of the request with `instance_h + 1`.  As long as
every granted request is for the next instance, and an `oldinstance` answer is given
only for an instance that was decided, the accepted value belongs to the instance
being decided and a committed value is one that some `run` proposed for it.
`lagging_acceptor_mixes_instances` is a run in which a lagging acceptor hands the
value of instance 2 to the proposer of instance 3.
-/

namespace DistributedLab.Paxos

open Transition

/-! ### Requests in order -/

/-- The acceptor grants `req` only for the instance it decides next, and answers
    `oldinstance` only for an instance it has a value for. -/
def Acceptor.InOrder (a : Acceptor) : Request → Prop
  | .prepare arg =>
      (arg.inst ≤ a.instanceH → arg.inst = 0 ∨ a.values arg.inst ≠ none) ∧
      (a.instanceH < arg.inst → a.nH < arg.n → arg.inst = a.instanceH + 1)
  | .accept arg => a.nH ≤ arg.n → arg.inst = a.instanceH + 1
  | .decide _ => True

/-- Steps at which every request finds its acceptor at the right instance. -/
def InOrder (s : Cluster) : Action → Prop
  | .deliver call => (s.acc call.dst).InOrder call.req
  | _ => True

instance (a : Acceptor) : (req : Request) → Decidable (a.InOrder req)
  | .prepare _ => inferInstanceAs (Decidable (_ ∧ _))
  | .accept _ => inferInstanceAs (Decidable (_ → _))
  | .decide _ => inferInstanceAs (Decidable True)

instance (s : Cluster) : (action : Action) → Decidable (InOrder s action)
  | .deliver call => inferInstanceAs (Decidable ((s.acc call.dst).InOrder call.req))
  | .run .. | .call _ | .skip _ | .receive .. | .next _ => inferInstanceAs (Decidable True)

/-! ### The invariant -/

/-- Some `run` was called with instance `inst` and value `v`. -/
def Cluster.Proposed (s : Cluster) (inst : Nat) (v : String) : Prop :=
  ∃ curNodes, (inst, curNodes, v) ∈ s.runs

/-- The value in a request, if any, satisfies `P` at the request's instance. -/
def Request.Carries (P : Nat → String → Prop) : Request → Prop
  | .prepare _ => True
  | .accept arg => P arg.inst arg.v
  | .decide arg => P arg.inst arg.v

/-- The value in the answer to a prepare for `inst`, if any, satisfies `P`.  Instance 1 is
    not decided by a `run`. -/
def PrepareRes.Carries (P : Nat → String → Prop) (inst : Nat) (res : PrepareRes) : Prop :=
  (res.oldinstance = true → 1 < inst → P inst res.vA) ∧
  (res.oldinstance = false → res.vA = "" ∨ P inst res.vA)

def Run.Carries (P : Nat → String → Prop) (r : Run) : Prop :=
  P r.inst r.newv ∧ (r.phase = .prepare → r.v = "" ∨ P r.inst r.v) ∧
  (r.phase ≠ .prepare → P r.inst r.v)

def Acceptor.Carries (P : Nat → String → Prop) (a : Acceptor) : Prop :=
  1 ≤ a.instanceH ∧ (a.vA = "" ∨ P (a.instanceH + 1) a.vA) ∧
  ∀ inst v, 1 < inst → a.values inst = some v → P inst v

/-- Every value in the cluster was proposed for the instance it is used for. -/
structure Cluster.Valid (P : Nat → String → Prop) (s : Cluster) : Prop where
  acceptor : ∀ name, (s.acc name).Carries P
  call : ∀ call ∈ s.calls, call.req.Carries P
  reply : ∀ {call arg res}, ⟨call, .prepare res⟩ ∈ s.replies → call.req = .prepare arg →
    res.Carries P arg.inst
  run : ∀ {p r}, (s.pro p).run = some r → r.Carries P

section Mono

variable {P Q : Nat → String → Prop} (hPQ : ∀ inst v, P inst v → Q inst v)

include hPQ

theorem Request.Carries.mono {req : Request} (h : req.Carries P) : req.Carries Q := by
  cases req with
  | prepare arg => trivial
  | accept arg => exact hPQ _ _ h
  | decide arg => exact hPQ _ _ h

theorem Cluster.Valid.mono {s : Cluster} (h : s.Valid P) : s.Valid Q where
  acceptor := fun name =>
    ⟨(h.acceptor name).1, (h.acceptor name).2.1.imp_right (hPQ _ _),
      fun inst v hinst hv => hPQ _ _ ((h.acceptor name).2.2 inst v hinst hv)⟩
  call := fun call hcall => (h.call call hcall).mono hPQ
  reply := fun hreply hreq =>
    ⟨fun hold hinst => hPQ _ _ ((h.reply hreply hreq).1 hold hinst),
      fun hold => ((h.reply hreply hreq).2 hold).imp_right (hPQ _ _)⟩
  run := fun hrun =>
    ⟨hPQ _ _ (h.run hrun).1, fun hphase => ((h.run hrun).2.1 hphase).imp_right (hPQ _ _),
      fun hphase => hPQ _ _ ((h.run hrun).2.2 hphase)⟩

end Mono

section Preservation

variable {P : Nat → String → Prop} {s : Cluster}

theorem Cluster.Valid.setPro (h : s.Valid P) {p : String} {pro : Proposer}
    (hrun : ∀ r, pro.run = some r → r.Carries P) : (s.setPro p pro).Valid P where
  acceptor := fun name => by
    rw [Cluster.acc_setPro]
    exact h.acceptor name
  call := h.call
  reply := h.reply
  run := fun {q r} hq => by
    rw [Cluster.pro_setPro] at hq
    split at hq
    · exact hrun r hq
    · exact h.run hq

/-- Replacing the local variables of one run. -/
theorem Cluster.Valid.setRun (h : s.Valid P) {p : String} {run : Option Run}
    (hrun : ∀ r, run = some r → r.Carries P) : (s.setRun p run).Valid P :=
  h.setPro hrun

theorem Cluster.Valid.setAcc (h : s.Valid P) (name : String) {acc : Acceptor}
    (hacc : acc.Carries P) : (s.setAcc name acc).Valid P where
  acceptor := fun other => by
    rw [Cluster.acc_setAcc]
    split
    · exact hacc
    · exact h.acceptor other
  call := h.call
  reply := h.reply
  run := fun hq => h.run (by rwa [Cluster.pro_setAcc] at hq)

theorem Acceptor.Carries.committed {a : Acceptor} {inst : Nat} {v : String}
    (h : a.Carries P) (hinst : a.instanceH < inst) (hv : 1 < inst → P inst v) :
    (a.committed inst v).Carries P := by
  refine ⟨Nat.le_of_lt (Nat.lt_of_le_of_lt h.1 hinst), Or.inl rfl, fun i w hi hw => ?_⟩
  change Function.update a.values inst (some v) i = some w at hw
  by_cases heq : i = inst
  · subst heq
    rw [Function.update_self, Option.some.injEq] at hw
    exact hw ▸ hv hi
  · rw [Function.update_of_ne heq] at hw
    exact h.2.2 i w hi hw

theorem Acceptor.Carries.commit {a : Acceptor} {inst : Nat} {v : String}
    (h : a.Carries P) (hv : 1 < inst → P inst v) : (a.commit inst v).Carries P := by
  rcases Nat.lt_or_ge a.instanceH inst with hlt | hge
  · rw [Acceptor.commit, Acceptor.commitWo_of_lt hlt]
    exact h.committed hlt hv
  · rw [Acceptor.commit, Acceptor.commitWo_of_le hge]
    exact h

/-- A handler called in order keeps the acceptor's values in their instances. -/
theorem Acceptor.Outcome.carries {a next : Acceptor} {req : Request} {res : Response}
    (h : a.Outcome req next res) (ha : a.Carries P) (hreq : req.Carries P)
    (horder : a.InOrder req) : next.Carries P := by
  cases h with
  | oldinstance => exact ha
  | promised => exact ha
  | rejected => exact ha
  | refused => exact ha
  | ignored => exact ha
  | voted hn => exact ⟨ha.1, Or.inr (horder hn ▸ hreq), ha.2.2⟩
  | committed hinst hv => exact ha.committed (by omega) fun _ => hreq

/-- So does the answer to a prepare. -/
theorem Acceptor.Outcome.res_carries {a next : Acceptor} {arg : PrepareArg}
    {res : PrepareRes} (h : a.Outcome (.prepare arg) next (.prepare res))
    (ha : a.Carries P) (horder : a.InOrder (.prepare arg)) : res.Carries P arg.inst := by
  cases h with
  | oldinstance hinst =>
      refine ⟨fun _ hone => ?_, nofun⟩
      rcases horder.1 hinst with hzero | hsome
      · omega
      · obtain ⟨v, hv⟩ := Option.ne_none_iff_exists'.mp hsome
        show P arg.inst (a.value arg.inst)
        rw [Acceptor.value, hv]
        exact ha.2.2 _ _ hone hv
  | promised hinst hn =>
      refine ⟨nofun, fun _ => ?_⟩
      show a.vA = "" ∨ P arg.inst a.vA
      rw [horder.2 hinst hn]
      exact ha.2.1
  | rejected => exact ⟨nofun, fun _ => Or.inl rfl⟩

theorem Run.Carries.onPrepare {r : Run} (h : r.Carries P) (hphase : r.phase = .prepare)
    {cid : String} {res : PrepareRes} (hres : res.Carries P r.inst)
    (hold : res.oldinstance = false) : (r.onPrepare cid res).advance.Carries P := by
  unfold Run.onPrepare
  split
  · split
    · exact ⟨h.1, fun _ => hres.2 hold, fun hne => absurd hphase hne⟩
    · exact h
  · exact h

theorem Run.Carries.onAccept {r : Run} (h : r.Carries P) {cid : String} {granted : Bool} :
    (r.onAccept cid granted).advance.Carries P := by
  unfold Run.onAccept
  split <;> exact h

theorem Run.Carries.next {r r' : Run} (h : r.Carries P) (hnext : r.next = some r') :
    r'.Carries P := by
  unfold Run.next at hnext
  split at hnext
  · rename_i hphase
    simp only [Option.ite_none_right_eq_some, Option.some.injEq] at hnext
    obtain ⟨-, rfl⟩ := hnext
    refine ⟨h.1, nofun, fun _ => ?_⟩
    show P r.inst (if r.v = "" then r.newv else r.v)
    split
    · exact h.1
    · rename_i hv
      exact (h.2.1 hphase).resolve_left hv
  · rename_i hphase
    simp only [Option.ite_none_right_eq_some, Option.some.injEq] at hnext
    obtain ⟨-, rfl⟩ := hnext
    exact ⟨h.1, nofun, fun _ => h.2.2 (by rw [hphase]; decide)⟩
  · cases hnext

theorem Run.Carries.request {r : Run} (h : r.Carries P) (myN : PropT) :
    (r.request myN).Carries P := by
  cases hphase : r.phase with
  | prepare => simp only [Run.request, hphase, Request.Carries]
  | accept =>
      simp only [Run.request, hphase, Request.Carries]
      exact h.2.2 (by rw [hphase]; decide)
  | decide =>
      simp only [Run.request, hphase, Request.Carries]
      exact h.2.2 (by rw [hphase]; decide)

/-- One step in order keeps every value with its instance; the called values are those
    recorded in `runs`. -/
theorem Cluster.Valid.move {action : Action} {t : Cluster} (h : s.Valid s.Proposed)
    (hwired : s.Wired) (hmove : s.Move action t) (horder : InOrder s action) :
    t.Valid t.Proposed := by
  have advance : ∀ {p r}, (s.pro p).run = some r →
      (s.setRun p (some r.advance)).Valid s.Proposed := fun {p r} hrun =>
    h.setRun fun r' hr' => by
      obtain rfl := Option.some.inj hr'
      exact (h.run hrun : r.Carries _)
  cases hmove with
  | @run p inst curNodes newv hrun hinst =>
      have hmono : ∀ i v, s.Proposed i v →
          ∃ nodes, (i, nodes, v) ∈ (inst, curNodes, newv) :: s.runs :=
        fun i v ⟨nodes, hmem⟩ => ⟨nodes, List.mem_cons_of_mem _ hmem⟩
      have hset : (s.setPro p ((s.pro p).start (s.acc p) inst curNodes newv)).Valid
          fun i v => ∃ nodes, (i, nodes, v) ∈ (inst, curNodes, newv) :: s.runs := by
        apply (h.mono hmono).setPro
        intro r hr
        obtain rfl := Option.some.inj hr
        exact ⟨⟨curNodes, List.mem_cons_self⟩, fun _ => Or.inl rfl, fun hne => absurd rfl hne⟩
      exact ⟨hset.acceptor, hset.call, hset.reply, hset.run⟩
  | @call p r dst hrun hpending hdst =>
      have hr := h.run hrun
      have hset : (s.setPro p { s.pro p with
          xid := (s.pro p).xid + 1
          run := some { r with pending := some (s.pro p).xid } }).Valid s.Proposed := by
        apply h.setPro
        intro r' hr'
        obtain rfl := Option.some.inj hr'
        exact hr
      refine ⟨hset.acceptor, ?_, hset.reply, hset.run⟩
      intro c hc
      rcases List.mem_cons.mp hc with rfl | hold
      · exact hr.request _
      · exact h.call c hold
  | skip hrun => exact advance hrun
  | @handled call acc res hcall houtcome =>
      have hacc := houtcome.carries (h.acceptor _) (h.call _ hcall) horder
      have hset := h.setAcc call.dst hacc
      refine ⟨hset.acceptor, hset.call, fun {c arg r} hreply hreq => ?_, hset.run⟩
      rcases List.mem_cons.mp hreply with heq | hold
      · obtain ⟨rfl, hres⟩ := Reply.mk.inj heq
        subst hres
        change (s.acc c.dst).InOrder c.req at horder
        rw [hreq] at houtcome horder
        exact houtcome.res_carries (h.acceptor _) horder
      · exact h.reply hold hreq
  | @aborted call =>
      refine ⟨fun name => ?_, h.call, h.reply, fun hq => h.run (by rwa [Cluster.pro_setDown] at hq)⟩
      rw [Cluster.acc_setDown]
      exact h.acceptor name
  | @oldinstance p r call res hrun hreply hclt hpending hphase hold =>
      have hreq := hwired.replied hrun hreply hclt hpending
      simp only [Run.request, hphase] at hreq
      have hcommit := (h.acceptor p).commit ((h.reply hreply hreq).1 hold)
      exact (h.setAcc p hcommit).setRun fun r hr => by cases hr
  | @prepared p r call res hrun hreply hclt hpending hphase hold =>
      have hreq := hwired.replied hrun hreply hclt hpending
      simp only [Run.request, hphase] at hreq
      refine h.setRun fun r' hr' => ?_
      obtain rfl := Option.some.inj hr'
      exact (h.run hrun).onPrepare hphase (h.reply hreply hreq) hold
  | accepted hrun =>
      refine h.setRun fun r' hr' => ?_
      obtain rfl := Option.some.inj hr'
      exact (h.run hrun).onAccept
  | decided hrun => exact advance hrun
  | next hrun => exact h.setRun fun r' hr' => (h.run hrun).next hr'

end Preservation

theorem Cluster.valid_initial (first : String) (P : Nat → String → Prop) :
    (Cluster.initial first).Valid P where
  acceptor := fun name => by
    refine ⟨Nat.le_refl _, Or.inl rfl, fun inst v hinst hv => ?_⟩
    change Function.update (fun _ => none) 1 (some first) inst = some v at hv
    rw [Function.update_of_ne (by omega)] at hv
    cases hv
  call := fun _ hcall => by cases hcall
  reply := fun hreply => by cases hreply
  run := fun hrun => by cases hrun

/-- **Validity.**  In a run in which every request is handled in order, a value committed
    for an instance after the first was the `newv` of a `run` for that instance. -/
theorem committed_value_proposed {first : String} {s : Cluster}
    (h : (paxos first).Reach InOrder s) {name : String} {inst : Nat} {v : String}
    (hinst : 1 < inst) (hv : (s.acc name).values inst = some v) : s.Proposed inst v := by
  have hinv : s.Wired ∧ s.Valid s.Proposed := by
    refine h.invariant (P := fun s => s.Wired ∧ s.Valid s.Proposed) (fun start hstart => ?_)
      fun state next action hinv horder hstep => ?_
    · subst hstart
      exact ⟨Cluster.wired_initial first, Cluster.valid_initial first _⟩
    · have hmove := Cluster.move_of_step hstep
      exact ⟨hinv.1.move hmove, hinv.2.move hinv.1 hmove horder⟩
  exact (hinv.2.acceptor name).2.2 inst v hinst hv

/-- A single node moves from view 1 to view 2 without being disturbed. -/
def undisturbedRun : List Action :=
  let n : PropT := ⟨1, "a"⟩
  .run "a" 2 ["a"] "a b " ::
  Action.roundTrip ⟨"a", 0, "a", .prepare ⟨2, n⟩⟩ (granted "a") ++
  .next "a" ::
  Action.roundTrip ⟨"a", 1, "a", .accept ⟨2, n, "a b "⟩⟩ (.accept true) ++
  .next "a" ::
  Action.roundTrip ⟨"a", 2, "a", .decide ⟨2, "a b "⟩⟩ .decide

theorem committed_value_proposed_undisturbed :
    ∃ s, (paxos "a ").Reach InOrder s ∧ (s.acc "a").values 2 = some "a b " ∧
      s.Proposed 2 "a b " := by
  obtain ⟨s, hreach, hv⟩ : ∃ s, (paxos "a ").Reach InOrder s ∧
      (s.acc "a").values 2 = some "a b " :=
    System.Reach.of_exec (fun s action => decide (InOrder s action)) undisturbedRun
      rfl (fun _ _ h => of_decide_eq_true h) (by decide +kernel)
  exact ⟨s, hreach, hv, committed_value_proposed hreach (by decide) hv⟩

/-- Node `a` accepts the value of instance 2 but misses its decide request.  It is still at
    `instance_h = 1` when `c` runs instance 3, grants the prepare, and answers with the
    accepted value of instance 2. -/
def laggingAcceptorRun : List Action :=
  let n₂ : PropT := ⟨1, "b"⟩
  let n₃ : PropT := ⟨1, "c"⟩
  .run "b" 2 ["a", "b", "c"] "a b c d " ::
  Action.roundTrip ⟨"b", 0, "a", .prepare ⟨2, n₂⟩⟩ (granted "a") ++
  Action.roundTrip ⟨"b", 1, "b", .prepare ⟨2, n₂⟩⟩ (granted "b") ++
  Action.roundTrip ⟨"b", 2, "c", .prepare ⟨2, n₂⟩⟩ (granted "c") ++
  .next "b" ::
  Action.roundTrip ⟨"b", 3, "a", .accept ⟨2, n₂, "a b c d "⟩⟩ (.accept true) ++
  Action.roundTrip ⟨"b", 4, "b", .accept ⟨2, n₂, "a b c d "⟩⟩ (.accept true) ++
  Action.roundTrip ⟨"b", 5, "c", .accept ⟨2, n₂, "a b c d "⟩⟩ (.accept true) ++
  .next "b" :: .skip "b" ::
  Action.roundTrip ⟨"b", 6, "b", .decide ⟨2, "a b c d "⟩⟩ .decide ++
  Action.roundTrip ⟨"b", 7, "c", .decide ⟨2, "a b c d "⟩⟩ .decide ++
  .run "c" 3 ["a", "b", "c", "d"] "b c d " ::
  Action.roundTrip ⟨"c", 0, "a", .prepare ⟨3, n₃⟩⟩
    (.prepare { accept := true, nA := n₂, vA := "a b c d " }) ++
  Action.roundTrip ⟨"c", 1, "b", .prepare ⟨3, n₃⟩⟩ (granted "b") ++
  Action.roundTrip ⟨"c", 2, "c", .prepare ⟨3, n₃⟩⟩ (granted "c") ++
  .skip "c" :: .next "c" ::
  Action.roundTrip ⟨"c", 3, "a", .accept ⟨3, n₃, "a b c d "⟩⟩ (.accept true) ++
  Action.roundTrip ⟨"c", 4, "b", .accept ⟨3, n₃, "a b c d "⟩⟩ (.accept true) ++
  Action.roundTrip ⟨"c", 5, "c", .accept ⟨3, n₃, "a b c d "⟩⟩ (.accept true) ++
  .next "c" :: .skip "c" ::
  Action.roundTrip ⟨"c", 6, "b", .decide ⟨3, "a b c d "⟩⟩ .decide

/-- Without the order of requests validity fails: `b` commits for instance 3 a value that
    was proposed for instance 2 only. -/
theorem lagging_acceptor_mixes_instances :
    ¬ ∀ first s, (paxos first).Reach anyStep s → ∀ name inst v, 1 < inst →
      (s.acc name).values inst = some v → s.Proposed inst v := by
  intro hclaim
  obtain ⟨s, hreach, hseen⟩ : ∃ s, (paxos "a b c ").Reach anyStep s ∧
      ((s.acc "b").values 3, s.runs) = (some "a b c d ",
        [(3, ["a", "b", "c", "d"], "b c d "), (2, ["a", "b", "c"], "a b c d ")]) :=
    System.Reach.of_exec (fun _ _ => true) laggingAcceptorRun
      rfl (fun _ _ _ => trivial) (by decide +kernel)
  obtain ⟨hvalue, hruns⟩ := Prod.mk.inj hseen
  obtain ⟨curNodes, hmem⟩ := hclaim _ s hreach "b" 3 "a b c d " (by decide) hvalue
  rw [hruns] at hmem
  simp at hmem

end DistributedLab.Paxos
