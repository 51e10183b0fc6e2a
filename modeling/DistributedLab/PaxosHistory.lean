import DistributedLab.PaxosValidity
import DistributedLab.Voting

/-!
# Promises and votes recorded in the network

The replies sent so far are the history of promises and votes.  This module relates
them to the acceptors: as long as requests are handled in order, `n_h`, `n_a` and
`v_a` summarise the promises and votes an acceptor has given *in the instance it
decides next*, what a promise reports covers every lower vote its acceptor will ever
have, and a committed value has the votes of a majority.  The history of one
instance is then a sound ledger in the sense of `Voting`.

`members inst nodes` says that runs for instance `inst` use the member list `nodes`.  An
acceptor whose log was copied from another node holds the vote of that node, so the
vote behind `n_a` and `v_a` need not be its own.
-/

namespace DistributedLab.Paxos

open Voting

/-! ### History predicates -/

/-- `d` answered `accept = true` to the prepare `arg`, reporting `res`. -/
def Promised (replies : List Reply) (d : String) (arg : PrepareArg) (res : PrepareRes) :
    Prop :=
  ∃ call, ⟨call, .prepare res⟩ ∈ replies ∧ call.dst = d ∧ call.req = .prepare arg ∧
    res.accept = true

/-- `d` answered `true` to the accept request `arg`. -/
def Voted (replies : List Reply) (d : String) (arg : AcceptArg) : Prop :=
  ∃ call, ⟨call, .accept true⟩ ∈ replies ∧ call.dst = d ∧ call.req = .accept arg

/-- `q` contains a majority of the members for `inst`. -/
def Quorum (members : Nat → List String → Prop) (inst : Nat) (q : List String) : Prop :=
  ∃ nodes, members inst nodes ∧ majority nodes q = true

/-- The proposer of `arg` heard promises from a majority, and `arg.v` is the value of the
    highest one unless none of them reported a vote. -/
def Justified (members : Nat → List String → Prop) (replies : List Reply) (arg : AcceptArg) :
    Prop :=
  ∃ q max, Quorum members arg.inst q ∧
    (∀ d ∈ q, ∃ res, Promised replies d ⟨arg.inst, arg.n⟩ res ∧ res.nA ≤ max) ∧
    (max.n = 0 ∨ ∃ d res, Promised replies d ⟨arg.inst, arg.n⟩ res ∧ res.nA = max ∧
      res.vA = arg.v)

/-- A majority voted for `v` in one round of instance `inst`. -/
def ChosenIn (members : Nat → List String → Prop) (replies : List Reply) (inst : Nat)
    (v : String) : Prop :=
  ∃ n q, Quorum members inst q ∧ ∀ d ∈ q, Voted replies d ⟨inst, n, v⟩

/-- `v` may be committed for `inst`; instance 1 is not decided by votes. -/
inductive Decided (members : Nat → List String → Prop) (first : String) (replies : List Reply)
    (inst : Nat) (v : String) : Prop
  | first (hinst : inst ≤ 1) (hv : v = first)
  | chosen (hinst : 1 < inst) (hv : ChosenIn members replies inst v)

section Mono

variable {replies replies' : List Reply} (hsub : ∀ reply ∈ replies, reply ∈ replies')

include hsub

theorem Promised.mono {d : String} {arg : PrepareArg} {res : PrepareRes}
    (h : Promised replies d arg res) : Promised replies' d arg res := by
  obtain ⟨call, hmem, hrest⟩ := h
  exact ⟨call, hsub _ hmem, hrest⟩

theorem Voted.mono {d : String} {arg : AcceptArg} (h : Voted replies d arg) :
    Voted replies' d arg := by
  obtain ⟨call, hmem, hrest⟩ := h
  exact ⟨call, hsub _ hmem, hrest⟩

theorem ChosenIn.mono {members : Nat → List String → Prop} {inst : Nat} {v : String}
    (h : ChosenIn members replies inst v) : ChosenIn members replies' inst v := by
  obtain ⟨n, q, hq, hvoted⟩ := h
  exact ⟨n, q, hq, fun d hd => (hvoted d hd).mono hsub⟩

theorem Decided.mono {members : Nat → List String → Prop} {first : String} {inst : Nat}
    {v : String} (h : Decided members first replies inst v) :
    Decided members first replies' inst v := by
  cases h with
  | first hinst hv => exact .first hinst hv
  | chosen hinst hv => exact .chosen hinst (hv.mono hsub)

theorem Justified.mono {members : Nat → List String → Prop} {arg : AcceptArg}
    (h : Justified members replies arg) : Justified members replies' arg := by
  obtain ⟨q, max, hq, hall, hmax⟩ := h
  refine ⟨q, max, hq, fun d hd => ?_, hmax.imp_right ?_⟩
  · obtain ⟨res, hres, hle⟩ := hall d hd
    exact ⟨res, hres.mono hsub, hle⟩
  · rintro ⟨d, res, hres, heq⟩
    exact ⟨d, res, hres.mono hsub, heq⟩

end Mono

section NewReply

variable {replies : List Reply} {call : Call} {res : Response} {d : String}

/-- A promise is an old one or the new reply. -/
theorem Promised.of_cons {arg : PrepareArg} {r : PrepareRes}
    (h : Promised (⟨call, res⟩ :: replies) d arg r) :
    Promised replies d arg r ∨
      (res = .prepare r ∧ call.dst = d ∧ call.req = .prepare arg ∧ r.accept = true) := by
  obtain ⟨c, hmem, hdst, hreq, haccept⟩ := h
  rcases List.mem_cons.mp hmem with heq | hold
  · obtain ⟨rfl, hres⟩ := Reply.mk.inj heq
    exact Or.inr ⟨hres.symm, hdst, hreq, haccept⟩
  · exact Or.inl ⟨c, hold, hdst, hreq, haccept⟩

theorem Voted.of_cons {arg : AcceptArg} (h : Voted (⟨call, res⟩ :: replies) d arg) :
    Voted replies d arg ∨ (res = .accept true ∧ call.dst = d ∧ call.req = .accept arg) := by
  obtain ⟨c, hmem, hdst, hreq⟩ := h
  rcases List.mem_cons.mp hmem with heq | hold
  · obtain ⟨rfl, hres⟩ := Reply.mk.inj heq
    exact Or.inr ⟨hres.symm, hdst, hreq⟩
  · exact Or.inl ⟨c, hold, hdst, hreq⟩

end NewReply

/-! ### The invariants -/

/-- What the acceptor `a` holds rests on the history. -/
structure Acceptor.Founded (members : Nat → List String → Prop) (first : String)
    (replies : List Reply) (a : Acceptor) : Prop where
  held : (a.nA.n = 0 ∧ a.vA = "") ∨ ∃ d, Voted replies d ⟨a.instanceH + 1, a.nA, a.vA⟩
  bounded : a.nA.n = 0 ∨ a.nA ≤ a.nH
  decided : ∀ {inst v}, a.values inst = some v → Decided members first replies inst v

/-- The acceptor `a` of node `d` agrees with the history. -/
structure Acceptor.Summarises (members : Nat → List String → Prop) (first : String)
    (replies : List Reply) (d : String) (a : Acceptor) : Prop
    extends a.Founded members first replies where
  promised_le : ∀ {arg res}, Promised replies d arg res →
    arg.inst ≤ a.instanceH + 1 ∧ (arg.inst = a.instanceH + 1 → arg.n ≤ a.nH)
  voted_le : ∀ {arg}, Voted replies d arg →
    arg.inst ≤ a.instanceH + 1 ∧ (arg.inst = a.instanceH + 1 → arg.n ≤ a.nA)

/-- What the requests and replies in the network say about each other. -/
structure Consistent (members : Nat → List String → Prop) (first : String) (calls : List Call)
    (replies : List Reply) : Prop where
  reply_call : ∀ reply ∈ replies, reply.call ∈ calls
  prepare : ∀ {call arg}, call ∈ calls → call.req = .prepare arg → 1 ≤ arg.n.n
  accept : ∀ {call arg}, call ∈ calls → call.req = .accept arg →
    (∃ res, Promised replies call.dst ⟨arg.inst, arg.n⟩ res) ∧
      Justified members replies arg ∧ arg.v ≠ "" ∧ 1 ≤ arg.n.n
  /-- A decide request goes to one of those who voted. -/
  decide : ∀ {call arg}, call ∈ calls → call.req = .decide arg →
    ∃ n q, Quorum members arg.inst q ∧ (∀ d ∈ q, Voted replies d ⟨arg.inst, n, arg.v⟩) ∧
      call.dst ∈ q
  unique : ∀ {call call' arg arg'}, call ∈ calls → call' ∈ calls →
    call.req = .accept arg → call'.req = .accept arg' → arg.n = arg'.n → arg = arg'
  old : ∀ {call arg res}, ⟨call, .prepare res⟩ ∈ replies → call.req = .prepare arg →
    res.oldinstance = true → arg.inst ≠ 0 → Decided members first replies arg.inst res.vA
  promise_pos : ∀ {d arg res}, Promised replies d arg res → 1 ≤ arg.inst
  /-- A promise is above the vote it reports, and that vote is the highest one below the
      promise that `d` has in this instance. -/
  promise : ∀ {d arg res}, Promised replies d arg res →
    res.nA < arg.n ∧
    (∀ n v, Voted replies d ⟨arg.inst, n, v⟩ → n < arg.n → n ≤ res.nA) ∧
    ((res.nA.n = 0 ∧ res.vA = "") ∨ ∃ d', Voted replies d' ⟨arg.inst, res.nA, res.vA⟩)

variable {members : Nat → List String → Prop} {first : String} {calls : List Call}
  {replies : List Reply} {d : String}

theorem Consistent.of_voted (h : Consistent members first calls replies) {arg : AcceptArg}
    (hvoted : Voted replies d arg) :
    (∃ res, Promised replies d ⟨arg.inst, arg.n⟩ res) ∧
      Justified members replies arg ∧ arg.v ≠ "" ∧ 1 ≤ arg.n.n := by
  obtain ⟨call, hmem, hdst, hreq⟩ := hvoted
  have := h.accept (h.reply_call _ hmem) hreq
  rwa [hdst] at this

/-! ### One instance is a sound ledger -/

/-- Proposals and votes of instance `inst`. -/
def ledger (calls : List Call) (replies : List Reply) (inst : Nat) :
    Ledger String PropT String where
  proposed := fun n v => ∃ call ∈ calls, call.req = .accept ⟨inst, n, v⟩
  voted := fun d n v => Voted replies d ⟨inst, n, v⟩

/-- A justified proposal is backed by the majority that promised it. -/
theorem Consistent.backed (h : Consistent members first calls replies) {arg : AcceptArg}
    (hjust : Justified members replies arg) :
    ∃ q, Quorum members arg.inst q ∧
      (ledger calls replies arg.inst).Backed q arg.n arg.v := by
  obtain ⟨q, max, hq, hall, hmax⟩ := hjust
  refine ⟨q, hq, ?_⟩
  by_cases hzero : max.n = 0
  · -- nobody in the majority reported a vote, so none of them has a lower one
    refine Or.inl fun d hd n v hvote => not_lt.mp fun hlt => ?_
    obtain ⟨res, hres, hle⟩ := hall d hd
    have hn : n ≤ res.nA := (h.promise hres).2.1 n v hvote hlt
    have hpos : 1 ≤ n.n := (h.of_voted hvote).2.2.2
    have := PropT.n_le_of_le (hn.trans hle)
    omega
  · obtain ⟨source, res, hres, rfl, hv⟩ := hmax.resolve_left hzero
    obtain ⟨hlt, -, hheld⟩ := h.promise hres
    refine Or.inr ⟨res.nA, hlt, ?_, fun d hd n v hvote hbelow => ?_⟩
    · have := hheld.resolve_left fun hnone => hzero hnone.1
      rwa [hv] at this
    · obtain ⟨res', hres', hle⟩ := hall d hd
      exact ((h.promise hres').2.1 n v hvote hbelow).trans hle

/-- With one member list for the instance, two quorums share a node. -/
theorem Consistent.sound (h : Consistent members first calls replies) {inst : Nat}
    (hmembers : ∀ nodes nodes', members inst nodes → members inst nodes' → nodes = nodes') :
    (ledger calls replies inst).Sound (Quorum members inst) where
  voted_proposed := fun hvoted => by
    obtain ⟨call, hmem, -, hreq⟩ := hvoted
    exact ⟨call, h.reply_call _ hmem, hreq⟩
  functional := fun hproposed hproposed' => by
    obtain ⟨call, hmem, hreq⟩ := hproposed
    obtain ⟨call', hmem', hreq'⟩ := hproposed'
    exact (AcceptArg.mk.inj (h.unique hmem hmem' hreq hreq' rfl)).2.2
  backed := fun hproposed => by
    obtain ⟨call, hmem, hreq⟩ := hproposed
    exact h.backed (h.accept hmem hreq).2.1
  intersect := fun hq hq' => by
    obtain ⟨nodes, hnodes, hq⟩ := hq
    obtain ⟨nodes', hnodes', hq'⟩ := hq'
    rw [hmembers nodes' nodes hnodes' hnodes] at hq'
    obtain ⟨node, -, hnode⟩ := majority_intersect hq hq'
    exact ⟨node, hnode⟩
  finite := by
    refine ⟨calls.filterMap fun call => match call.req with
      | .accept arg => some arg.n
      | _ => none, fun n v hproposed => ?_⟩
    obtain ⟨call, hmem, hreq⟩ := hproposed
    exact List.mem_filterMap.mpr ⟨call, hmem, by rw [hreq]⟩

/-- Two values decided for one instance are equal. -/
theorem Consistent.decided_unique (h : Consistent members first calls replies) {inst : Nat}
    (hmembers : 1 < inst → ∀ nodes nodes', members inst nodes → members inst nodes' →
      nodes = nodes')
    {v v' : String} (hv : Decided members first replies inst v)
    (hv' : Decided members first replies inst v') : v = v' := by
  cases hv with
  | first hinst hv =>
      cases hv' with
      | first hinst' hv' => rw [hv, hv']
      | chosen hinst' hv' => omega
  | chosen hinst hv =>
      cases hv' with
      | first hinst' hv' => omega
      | chosen hinst' hv' =>
          obtain ⟨n, q, hq, hvoted⟩ := hv
          obtain ⟨n', q', hq', hvoted'⟩ := hv'
          exact (h.sound (hmembers hinst)).chosen_unique ⟨q, hq, hvoted⟩ ⟨q', hq', hvoted'⟩

/-! ### A new request -/

/-- A request fits the history when it is numbered, justified or decided as its kind asks,
    and no other accept request has its number. -/
theorem Consistent.cons_call (h : Consistent members first calls replies) {call : Call}
    (hprepare : ∀ arg, call.req = .prepare arg → 1 ≤ arg.n.n)
    (haccept : ∀ arg, call.req = .accept arg →
      (∃ res, Promised replies call.dst ⟨arg.inst, arg.n⟩ res) ∧
        Justified members replies arg ∧ arg.v ≠ "" ∧ 1 ≤ arg.n.n)
    (hdecide : ∀ arg, call.req = .decide arg →
      ∃ n q, Quorum members arg.inst q ∧ (∀ d ∈ q, Voted replies d ⟨arg.inst, n, arg.v⟩) ∧
        call.dst ∈ q)
    (hunique : ∀ arg call' arg', call.req = .accept arg → call' ∈ calls →
      call'.req = .accept arg' → arg'.n = arg.n → arg' = arg) :
    Consistent members first (call :: calls) replies where
  reply_call := fun reply hreply => List.mem_cons_of_mem _ (h.reply_call reply hreply)
  prepare := fun {c arg} hc hreq => by
    rcases List.mem_cons.mp hc with rfl | hold
    · exact hprepare arg hreq
    · exact h.prepare hold hreq
  accept := fun {c arg} hc hreq => by
    rcases List.mem_cons.mp hc with rfl | hold
    · exact haccept arg hreq
    · exact h.accept hold hreq
  decide := fun {c arg} hc hreq => by
    rcases List.mem_cons.mp hc with rfl | hold
    · exact hdecide arg hreq
    · exact h.decide hold hreq
  unique := fun {c c' arg arg'} hc hc' hreq hreq' hn => by
    rcases List.mem_cons.mp hc with rfl | hold <;> rcases List.mem_cons.mp hc' with rfl | hold'
    · exact Request.accept.inj (hreq.symm.trans hreq')
    · exact (hunique arg c' arg' hreq hold' hreq' hn.symm).symm
    · exact hunique arg' c arg hreq' hold hreq hn
    · exact h.unique hold hold' hreq hreq' hn
  old := h.old
  promise_pos := h.promise_pos
  promise := h.promise

/-! ### A new reply -/

theorem Acceptor.Founded.mono {a : Acceptor} {replies' : List Reply}
    (h : a.Founded members first replies) (hsub : ∀ reply ∈ replies, reply ∈ replies') :
    a.Founded members first replies' where
  held := h.held.imp_right fun ⟨d, hvote⟩ => ⟨d, hvote.mono hsub⟩
  bounded := h.bounded
  decided := fun hv => (h.decided hv).mono hsub

/-- Replies that are no promise and no vote of `d` do not concern its acceptor. -/
theorem Acceptor.Summarises.of_same {a : Acceptor} {replies' : List Reply}
    (h : a.Summarises members first replies d)
    (hsub : ∀ reply ∈ replies, reply ∈ replies')
    (hpromised : ∀ {arg res}, Promised replies' d arg res → Promised replies d arg res)
    (hvoted : ∀ {arg}, Voted replies' d arg → Voted replies d arg) :
    a.Summarises members first replies' d where
  toFounded := h.toFounded.mono hsub
  promised_le := fun hp => h.promised_le (hpromised hp)
  voted_le := fun hv => h.voted_le (hvoted hv)

/-- An acceptor that has gone on to a later instance has no promise and no vote in its next
    one. -/
theorem Acceptor.Summarises.later {a next : Acceptor} (h : a.Summarises members first replies d)
    (hlt : a.instanceH < next.instanceH) (hnext : next.Founded members first replies) :
    next.Summarises members first replies d where
  toFounded := hnext
  promised_le := fun hp => by
    have hle := (h.promised_le hp).1
    exact ⟨by omega, fun heq => by omega⟩
  voted_le := fun hvote => by
    have hle := (h.voted_le hvote).1
    exact ⟨by omega, fun heq => by omega⟩

theorem Acceptor.Summarises.committed {a : Acceptor} {inst : Nat} {v : String}
    (h : a.Summarises members first replies d) (hinst : a.instanceH < inst)
    (hv : Decided members first replies inst v) :
    (a.committed inst v).Summarises members first replies d := by
  refine h.later hinst ⟨Or.inl ⟨rfl, rfl⟩, Or.inl rfl, fun {i w} hw => ?_⟩
  change Function.update a.values inst (some v) i = some w at hw
  by_cases heq : i = inst
  · subst heq
    rw [Function.update_self, Option.some.injEq] at hw
    exact hw ▸ hv
  · rw [Function.update_of_ne heq] at hw
    exact h.decided hw

theorem Acceptor.Summarises.commit {a : Acceptor} {inst : Nat} {v : String}
    (h : a.Summarises members first replies d)
    (hv : inst ≠ 0 → Decided members first replies inst v) :
    (a.commit inst v).Summarises members first replies d := by
  rcases Nat.lt_or_ge a.instanceH inst with hlt | hge
  · rw [Acceptor.commit, Acceptor.commitWo_of_lt hlt]
    exact h.committed hlt (hv (by omega))
  · rw [Acceptor.commit, Acceptor.commitWo_of_le hge]
    exact h

section Handled

variable {a next : Acceptor} {call : Call} {res : Response}

/-- A reply that grants nothing adds no promise and no vote. -/
theorem promised_of_cons_of_ne (hres : ∀ r, res = .prepare r → r.accept = false)
    {arg : PrepareArg} {r : PrepareRes} (h : Promised (⟨call, res⟩ :: replies) d arg r) :
    Promised replies d arg r := by
  rcases h.of_cons with hold | ⟨hnew, -, -, haccept⟩
  · exact hold
  · rw [hres r hnew] at haccept
    cases haccept

theorem voted_of_cons_of_ne (hres : res ≠ .accept true) {arg : AcceptArg}
    (h : Voted (⟨call, res⟩ :: replies) d arg) : Voted replies d arg := by
  rcases h.of_cons with hold | ⟨hnew, -⟩
  · exact hold
  · exact absurd hnew hres

theorem Acceptor.Summarises.cons_of_ungranted (h : a.Summarises members first replies d)
    (hres : ∀ r, res = .prepare r → r.accept = false) (hres' : res ≠ .accept true) :
    a.Summarises members first (⟨call, res⟩ :: replies) d :=
  h.of_same (fun _ => List.mem_cons_of_mem _) (promised_of_cons_of_ne hres)
    (voted_of_cons_of_ne hres')

/-- The reply of another node. -/
theorem Acceptor.Summarises.cons_of_ne (h : a.Summarises members first replies d)
    (hne : call.dst ≠ d) : a.Summarises members first (⟨call, res⟩ :: replies) d := by
  refine h.of_same (fun _ => List.mem_cons_of_mem _) (fun hp => ?_) (fun hv => ?_)
  · rcases hp.of_cons with hold | ⟨-, hdst, -⟩
    · exact hold
    · exact absurd hdst hne
  · rcases hv.of_cons with hold | ⟨-, hdst, -⟩
    · exact hold
    · exact absurd hdst hne

/-- A handler called in order leaves its acceptor in agreement with the history that
    includes its reply. -/
theorem Acceptor.Outcome.summarises (houtcome : a.Outcome call.req next res)
    (h : a.Summarises members first replies call.dst)
    (hcons : Consistent members first calls replies) (hcall : call ∈ calls)
    (horder : a.InOrder call.req)
    (hone : a.instanceH = 0 → ∀ v, ¬ ChosenIn members replies 1 v) :
    next.Summarises members first (⟨call, res⟩ :: replies) call.dst := by
  obtain ⟨clt, xid, dst, req⟩ := call
  have hsub : ∀ reply ∈ replies, reply ∈ ⟨⟨clt, xid, dst, req⟩, res⟩ :: replies :=
    fun _ => List.mem_cons_of_mem _
  cases houtcome with
  | oldinstance =>
      exact h.cons_of_ungranted (fun r hr => by cases hr; rfl) (by simp)
  | rejected => exact h.cons_of_ungranted (fun r hr => by cases hr; rfl) (by simp)
  | refused => exact h.cons_of_ungranted (by simp) (by simp)
  | ignored => exact h.cons_of_ungranted (by simp) (by simp)
  | @committed arg hinst hv =>
      obtain ⟨n, q, hq, hvoted, -⟩ := hcons.decide hcall rfl
      have hchosen : ChosenIn members replies arg.inst arg.v := ⟨n, q, hq, hvoted⟩
      have hlate : 1 < arg.inst := by
        rcases Nat.eq_zero_or_pos a.instanceH with hzero | hpos
        · have hfirst : arg.inst = 1 := by omega
          rw [hfirst] at hchosen
          exact absurd hchosen (hone hzero _)
        · omega
      exact (h.committed (by omega) (.chosen hlate hchosen)).cons_of_ungranted
        (by simp) (by simp)
  | @promised arg hinst hn =>
      have hnext : arg.inst = a.instanceH + 1 := horder.2 hinst hn
      have hfounded := h.toFounded.mono hsub
      refine ⟨⟨hfounded.held, h.bounded.imp_right fun hle => hle.trans hn.le, hfounded.decided⟩,
        fun {arg' r} hp => ?_, fun hv => h.voted_le (voted_of_cons_of_ne (by simp) hv)⟩
      rcases hp.of_cons with hold | ⟨-, -, hreq, -⟩
      · exact ⟨(h.promised_le hold).1, fun heq => ((h.promised_le hold).2 heq).trans hn.le⟩
      · obtain rfl := Request.prepare.inj hreq
        exact ⟨hnext.le, fun _ => le_rfl⟩
  | @voted arg hn =>
      have hnext : arg.inst = a.instanceH + 1 := horder hn
      -- the number was promised
      obtain ⟨⟨res, hres⟩, -⟩ := hcons.accept hcall rfl
      have hle : arg.n ≤ a.nH := (h.promised_le hres).2 hnext
      refine ⟨⟨Or.inr ⟨dst, ?_⟩, Or.inr hle, (h.toFounded.mono hsub).decided⟩,
        fun hp => h.promised_le (promised_of_cons_of_ne (by simp) hp), fun {arg'} hv => ?_⟩
      · show Voted _ dst ⟨a.instanceH + 1, arg.n, arg.v⟩
        rw [← hnext]
        exact ⟨_, List.mem_cons_self, rfl, rfl⟩
      · rcases hv.of_cons with hold | ⟨-, -, hreq⟩
        · -- an earlier vote in this instance was promised, hence not above `n_h`
          obtain ⟨⟨res, hres⟩, -⟩ := hcons.of_voted hold
          exact ⟨(h.voted_le hold).1, fun heq => ((h.promised_le hres).2 heq).trans hn⟩
        · obtain rfl := Request.accept.inj hreq
          exact ⟨hnext.le, fun _ => le_rfl⟩

/-- The replies stay consistent when a handler called in order adds one. -/
theorem Consistent.handled (hcons : Consistent members first calls replies)
    (houtcome : a.Outcome call.req next res)
    (h : a.Summarises members first replies call.dst) (hcall : call ∈ calls)
    (horder : a.InOrder call.req) :
    Consistent members first calls (⟨call, res⟩ :: replies) := by
  have hsub : ∀ reply ∈ replies, reply ∈ ⟨call, res⟩ :: replies :=
    fun _ => List.mem_cons_of_mem _
  refine
    { reply_call := fun reply hreply => ?_
      prepare := hcons.prepare
      accept := fun hmem hreq => ?_
      decide := fun hmem hreq => ?_
      unique := hcons.unique
      old := fun {c arg r} hreply hreq hold hinst => ?_
      promise_pos := fun {d arg r} hp => ?_
      promise := fun {d arg r} hp => ?_ }
  · rcases List.mem_cons.mp hreply with rfl | hold
    · exact hcall
    · exact hcons.reply_call _ hold
  · obtain ⟨⟨res, hres⟩, hjust, hrest⟩ := hcons.accept hmem hreq
    exact ⟨⟨res, hres.mono hsub⟩, hjust.mono hsub, hrest⟩
  · obtain ⟨n, q, hq, hvoted, hdst⟩ := hcons.decide hmem hreq
    exact ⟨n, q, hq, fun d hd => (hvoted d hd).mono hsub, hdst⟩
  · rcases List.mem_cons.mp hreply with heq | hmem
    · obtain ⟨rfl, rfl⟩ := Reply.mk.inj heq
      rw [hreq] at houtcome horder
      cases houtcome with
      | oldinstance hle =>
          obtain ⟨v, hv⟩ :=
            Option.ne_none_iff_exists'.mp ((horder.1 hle).resolve_left hinst)
          have hvalue : v = a.value arg.inst := by rw [Acceptor.value, hv]; rfl
          exact (hvalue ▸ h.decided hv).mono hsub
      | promised => cases hold
      | rejected => cases hold
    · exact (hcons.old hmem hreq hold hinst).mono hsub
  · rcases hp.of_cons with hpOld | ⟨rfl, rfl, hreq, haccept⟩
    · exact hcons.promise_pos hpOld
    · rw [hreq] at houtcome
      cases houtcome with
      | oldinstance => cases haccept
      | rejected => cases haccept
      | promised hinst hn => exact Nat.one_le_of_lt hinst
  · rcases hp.of_cons with hpOld | ⟨rfl, rfl, hreq, haccept⟩
    · obtain ⟨hlt, hmax, hheld⟩ := hcons.promise hpOld
      refine ⟨hlt, fun n v hvote hbelow => ?_,
        hheld.imp_right (Exists.imp fun _ hvote => hvote.mono hsub)⟩
      rcases hvote.of_cons with hvOld | ⟨rfl, rfl, hreq⟩
      · exact hmax n v hvOld hbelow
      · -- a new vote is not below a promise of the same instance
        rw [hreq] at houtcome horder
        cases houtcome with
        | voted hn =>
            have hle := (h.promised_le hpOld).2 (horder hn)
            exact absurd hbelow (not_lt.mpr (hle.trans hn))
    · rw [hreq] at houtcome horder
      cases houtcome with
      | oldinstance => cases haccept
      | rejected => cases haccept
      | promised hinst hn =>
          have hnext : arg.inst = a.instanceH + 1 := horder.2 hinst hn
          refine ⟨?_, fun n v hvote _ => ?_, ?_⟩
          · show a.nA < arg.n
            rcases h.bounded with hzero | hle
            · exact PropT.lt_iff.mpr (Or.inl (by have := hcons.prepare hcall hreq; omega))
            · exact lt_of_le_of_lt hle hn
          · rcases hvote.of_cons with hvOld | ⟨hbad, -⟩
            · exact (h.voted_le hvOld).2 hnext
            · cases hbad
          · show (a.nA.n = 0 ∧ a.vA = "") ∨ ∃ d', Voted _ d' ⟨arg.inst, a.nA, a.vA⟩
            rw [hnext]
            exact (h.toFounded.mono hsub).held

end Handled

end DistributedLab.Paxos
