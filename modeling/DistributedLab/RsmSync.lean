import DistributedLab.RsmCluster

/-!
# What a synchronisation transfers

`transferreq` ships the service state only if the `last_myvs` of the two nodes differ,
and `statetransfer` uses it only then.  No execution writes `last_myvs`: it is
`(0,0)` in a new process, and `statetransfer` copies the `(0,0)` of another one.  So
no state is ever transferred, and a backup is equal to its primary after
`sync_with_primary` exactly because it was equal before.

The main result says what remains true.  If every answer to `transferreq` finds the
two nodes with requests executed since their starts that lead to the same state, and no
replica executes a request between that answer and the end of its synchronisation, then a
backup that completes `sync_with_primary` has the primary's state, for as long as neither
of the two executes a request.
-/

namespace DistributedLab.Rsm

open Paxos Config Transition

variable {σ ρ β : Type}

/-! ### The service state of a node -/

/-- What only executions and `statetransfer` write. -/
structure Node.SameService (n next : Node σ) : Prop where
  svc : next.svc = n.svc
  lastMyvs : next.lastMyvs = n.lastMyvs

theorem Node.SameService.trans {first second third : Node σ} (h : first.SameService second)
    (h' : second.SameService third) : first.SameService third :=
  ⟨h'.svc.trans h.svc, h'.lastMyvs.trans h.lastMyvs⟩

section Node

variable (n : Node σ)

theorem Node.sameService_loopHead : n.SameService n.loopHead := by
  unfold Node.loopHead
  split_ifs <;> exact ⟨rfl, rfl⟩

theorem Node.sameService_synced (r : Bool) : n.SameService (n.synced r) := by
  unfold Node.synced
  split_ifs
  · exact n.sameService_loopHead
  · exact ⟨rfl, rfl⟩
  · exact n.sameService_loopHead

theorem Node.sameService_awaitBackups : n.SameService n.awaitBackups := by
  unfold Node.awaitBackups
  split_ifs
  · exact ⟨rfl, rfl⟩
  · exact (⟨rfl, rfl⟩ : n.SameService { n with insync := false }).trans
      (Node.sameService_synced _ true)

theorem Node.sameService_beginSync : n.SameService n.beginSync :=
  (⟨rfl, rfl⟩ : n.SameService { n with
    insync := true, backups := (getView n.acc n.vidInsync).erase n.myaddr }).trans
    (Node.sameService_awaitBackups _)

theorem Node.sameService_reconstruct : n.SameService n.reconstruct := by
  rw [Node.reconstruct_eq]
  split_ifs <;> exact ⟨rfl, rfl⟩

variable {n} {next : Node σ}

theorem Node.sameService_commitChangeWo {vid : Nat} (h : n.commitChangeWo vid = some next) :
    n.SameService next := by
  rw [Node.commitChangeWo_eq] at h
  split_ifs at h
  · cases h
    exact ⟨rfl, rfl⟩
  · obtain ⟨primary, -, rfl⟩ := Option.map_eq_some_iff.mp h
    exact ⟨rfl, rfl⟩

theorem Node.sameService_commitChange {vid : Nat} (h : n.commitChange vid = some next) :
    n.SameService next :=
  (⟨rfl, rfl⟩ : n.SameService { n with changes := n.changes.erase vid }).trans
    (Node.sameService_commitChangeWo h)

theorem Node.sameService_paxos {op : Op} (h : n.paxos op = some next) : n.SameService next := by
  obtain ⟨acc, -, rfl⟩ := Option.map_eq_some_iff.mp h
  split_ifs <;> exact ⟨rfl, rfl⟩

theorem Node.pc_commitChange {vid : Nat} (h : n.commitChange vid = some next) :
    next.pc = n.pc := by
  rw [Node.commitChange, Node.commitChangeWo_eq] at h
  split_ifs at h
  · cases h
    rfl
  · obtain ⟨primary, -, rfl⟩ := Option.map_eq_some_iff.mp h
    rfl

theorem Node.pc_paxos {op : Op} (h : n.paxos op = some next) : next.pc = n.pc := by
  obtain ⟨acc, -, rfl⟩ := Option.map_eq_some_iff.mp h
  split_ifs <;> rfl

theorem Node.sameService_joined {log : List Char} {junk : Nat}
    (h : n.joined log junk = some next) : n.SameService next := by
  obtain ⟨restored, hrestore, hnext⟩ := Option.bind_eq_some_iff.mp h
  obtain ⟨committed, hcommit, rfl⟩ := Option.map_eq_some_iff.mp hnext
  obtain ⟨acc, -, rfl⟩ := Option.map_eq_some_iff.mp hrestore
  have hrestored : n.SameService ({ n with acc := acc } : Node σ).reconstruct :=
    (⟨rfl, rfl⟩ : n.SameService { n with acc := acc }).trans (Node.sameService_reconstruct _)
  exact (hrestored.trans (Node.sameService_commitChangeWo hcommit)).trans
    committed.sameService_loopHead

theorem Node.service_new {first me : String} {svc : σ} {file : List Char} {junk : Nat}
    (h : Node.new first me svc file junk = some n) : n.svc = svc ∧ n.lastMyvs = ⟨0, 0⟩ := by
  obtain ⟨booted, hboot, hnew⟩ := Option.bind_eq_some_iff.mp h
  have hbooted : booted.svc = svc ∧ booted.lastMyvs = ⟨0, 0⟩ := by
    obtain ⟨acc, -, rfl⟩ := Option.map_eq_some_iff.mp hboot
    exact ⟨(Node.sameService_reconstruct _).svc, (Node.sameService_reconstruct _).lastMyvs⟩
  split_ifs at hnew
  · have hsame := Node.sameService_commitChange hnew
    rw [hsame.svc, hsame.lastMyvs]
    exact hbooted
  · cases hnew
    exact hbooted

/-- With equal viewstamps on both sides the recovery thread leaves the service alone. -/
theorem Node.Recovery.sameService {wakeup : Wakeup σ} (h : n.Recovery wakeup next)
    (hlast : ∀ last state, wakeup = .transferreq last state → last = n.lastMyvs) :
    n.SameService next := by
  cases h with
  | looped => exact n.sameService_loopHead
  | awaited => exact n.sameService_awaitBackups
  | began => exact n.sameService_beginSync
  | joined _ hjoined => exact Node.sameService_joined hjoined
  | @transferred m last state _ =>
      have heq := hlast last state rfl
      constructor
      · exact if_neg (not_not.mpr heq.symm)
      · exact heq
  | finished => exact n.sameService_synced _
  | refused => exact ⟨rfl, rfl⟩
  | failed => exact n.sameService_synced false

end Node

/-! ### Leaving `statetransferdone` -/

section Finishing

variable (n : Node σ) (m : String)

theorem Node.loopHead_pc : n.loopHead.pc ≠ .finishing m := by
  unfold Node.loopHead
  split_ifs <;> nofun

theorem Node.synced_pc (r : Bool) : (n.synced r).pc ≠ .finishing m := by
  unfold Node.synced
  split_ifs
  · exact n.loopHead_pc m
  · nofun
  · exact n.loopHead_pc m

theorem Node.awaitBackups_pc : n.awaitBackups.pc ≠ .finishing m := by
  unfold Node.awaitBackups
  split_ifs
  · nofun
  · exact Node.synced_pc _ m true

variable {n} {m} {next : Node σ}

theorem Node.Recovery.pc_ne_finishing {wakeup : Wakeup σ} (h : n.Recovery wakeup next)
    (hw : ∀ last state, wakeup ≠ .transferreq last state) : next.pc ≠ .finishing m := by
  cases h with
  | looped => exact n.loopHead_pc m
  | awaited => exact n.awaitBackups_pc m
  | began => exact Node.awaitBackups_pc _ m
  | joined _ hjoined =>
      obtain ⟨restored, -, hnext⟩ := Option.bind_eq_some_iff.mp hjoined
      obtain ⟨committed, -, rfl⟩ := Option.map_eq_some_iff.mp hnext
      exact committed.loopHead_pc m
  | transferred => exact absurd rfl (hw _ _)
  | finished => exact Node.synced_pc _ m _
  | refused => nofun
  | failed => exact Node.synced_pc _ m false

end Finishing

/-! ### Quiet steps of a process -/

/-- A step that leaves the service alone and does not advance a synchronisation. -/
structure Process.Quiet (p next : Process σ ρ) : Prop where
  service : p.node.SameService next.node
  requests : next.requests = p.requests
  synced : next.synced = p.synced
  recovery : (next.waiting = none ∧ ∀ m, next.node.pc ≠ .finishing m) ∨
    (next.waiting = p.waiting ∧ next.node.pc = p.node.pc ∧ next.answered = p.answered)

section Process

variable {p next : Process σ ρ}

theorem Process.quiet_recovery {wakeup : Wakeup σ} (h : p.recovery wakeup = some next)
    (hw : ∀ last state, wakeup ≠ .transferreq last state) : p.Quiet next := by
  obtain ⟨node, hnode, rfl⟩ := Option.map_eq_some_iff.mp h
  have hcases := Node.recovery_cases hnode
  constructor
  · apply hcases.sameService
    intro last state heq
    exact absurd heq (hw last state)
  · rfl
  · rfl
  · exact .inl ⟨rfl, fun m => hcases.pc_ne_finishing hw⟩

theorem Process.quiet_quiesce (h : p.quiesce = some next) : p.Quiet next := by
  unfold Process.quiesce at h
  split_ifs at h
  exact Process.quiet_recovery h nofun

/-- Threads other than the recovery thread change no more than `handler` and `adding`. -/
theorem Process.quiet_threads (handler : Option (Handler ρ)) (adding : List (Rpc ρ)) :
    p.Quiet { p with handler := handler, adding := adding } :=
  ⟨⟨rfl, rfl⟩, rfl, rfl, .inr ⟨rfl, rfl, rfl⟩⟩

/-- A critical section below the recovery thread. -/
theorem Process.quiet_node {node : Node σ} (hservice : p.node.SameService node)
    (hpc : node.pc = p.node.pc) : p.Quiet { p with node := node } :=
  ⟨hservice, rfl, rfl, .inr ⟨rfl, hpc, rfl⟩⟩

theorem Process.quiet_clientInvoke {req : ρ} (h : p.clientInvoke req = some next) :
    p.Quiet next := by
  unfold Process.clientInvoke at h
  split_ifs at h <;> cases h <;> exact Process.quiet_threads _ _

theorem Process.quiet_forwarded [DecidableEq ρ] {rpc : Rpc ρ} {ok : Bool}
    (h : p.forwarded rpc ok = some next) : p.Quiet next := by
  unfold Process.forwarded at h
  split at h
  · split_ifs at h <;> cases h <;> exact Process.quiet_threads _ _
  · cases h

/-- RPCs are numbered, and the answers are not answers to `transferreq`. -/
structure Effect.Plain (clt : String) (xid : Nat) (e : Effect σ ρ) : Prop where
  sent : ∀ rpc ∈ e.sent, rpc.clt = clt ∧ rpc.xid = xid
  replies : ∀ answer ∈ e.replies, ∀ last state, answer.2 ≠ some (.transferreq last state)

/-- The thread with `invoke_mutex` executes a request or leaves the service alone. -/
inductive Process.Proceeds (execute : ρ → σ → σ × β) (p : Process σ ρ) : Effect σ ρ → Prop
  | executed (req : ρ) (e : Effect σ ρ) (hexecuting : p.executing = true)
      (hprocess : e.process = p.execute execute req) (hcount : e.executed = 1) :
      Proceeds execute p e
  | quiet (e : Effect σ ρ) (hquiet : p.Quiet e.process) (hcount : e.executed = 0) :
      Proceeds execute p e

variable {e : Effect σ ρ} {clt : String} {xid : Nat}

theorem Process.plain_refuse (rpc : Rpc ρ) : (p.refuse rpc).Plain clt xid := by
  constructor
  · nofun
  · intro answer hmem last state
    rw [Process.refuse, List.mem_singleton] at hmem
    rw [hmem]
    nofun

theorem Process.proceed_cases {execute : ρ → σ → σ × β}
    (h : p.proceed execute clt xid = some e) : e.Plain clt xid ∧ p.Proceeds execute e := by
  -- a step of the thread that neither executes nor sends nor answers
  have hsilent : ∀ handler : Option (Handler ρ),
      Effect.Plain clt xid ({ process := { p with handler := handler } } : Effect σ ρ) ∧
        p.Proceeds execute { process := { p with handler := handler } } := by
    intro handler
    exact ⟨⟨nofun, nofun⟩, .quiet _ (Process.quiet_threads _ _) rfl⟩
  have hrefused : ∀ rpc, (p.refuse rpc).Plain clt xid ∧ p.Proceeds execute (p.refuse rpc) := by
    intro rpc
    exact ⟨Process.plain_refuse rpc, .quiet _ (Process.quiet_threads _ _) rfl⟩
  rcases hhandler : p.handler with _ | handler
  · simp only [Process.proceed, hhandler, reduceCtorEq] at h
  cases handler with
  | clientEntered req | clientAdmitted req =>
      simp only [Process.proceed, hhandler, Option.some.injEq] at h
      exact h ▸ hsilent _
  | forwarding req todo call =>
      rcases todo with _ | ⟨t, rest⟩
      · simp only [Process.proceed, hhandler, Option.some.injEq] at h
        subst h
        exact ⟨⟨nofun, nofun⟩, .executed req _ (by simp [Process.executing, hhandler]) rfl rfl⟩
      · rcases call with _ | rpc
        · simp only [Process.proceed, hhandler] at h
          split_ifs at h
          · exact Option.some.inj h ▸ hsilent _
          · cases h
            refine ⟨⟨?_, nofun⟩, .quiet _ (Process.quiet_threads _ _) rfl⟩
            intro rpc hmem
            rw [List.mem_singleton] at hmem
            exact hmem ▸ ⟨rfl, rfl⟩
        · simp only [Process.proceed, hhandler, reduceCtorEq] at h
  | invoked rpc vs req | invokeEntered rpc vs req | invokeAdmitted rpc vs req =>
      simp only [Process.proceed, hhandler] at h
      split_ifs at h <;> cases h
      · exact hrefused rpc
      · exact hsilent _
  | invokeAccepted rpc req =>
      simp only [Process.proceed, hhandler, Option.some.injEq] at h
      subst h
      refine ⟨⟨nofun, ?_⟩, .executed req _ (by simp [Process.executing, hhandler]) rfl rfl⟩
      intro answer hmem last state
      rw [List.mem_singleton] at hmem
      rw [hmem]
      nofun

theorem Process.added_cases [DecidableEq ρ] {rpc : Rpc ρ} (h : p.added rpc = some e) :
    e.Plain clt xid ∧ p.Quiet e.process ∧ e.executed = 0 := by
  unfold Process.added at h
  split at h
  · split_ifs at h <;> cases h <;>
      refine ⟨⟨nofun, ?_⟩, Process.quiet_threads _ _, rfl⟩ <;>
      · intro answer hmem last state
        rw [List.mem_singleton] at hmem
        rw [hmem]
        nofun
  · cases h

/-- A process answers `transferreq` with its own `last_myvs`, in the view it synchronises. -/
def Process.Answers (p : Process σ ρ) (query : Query ρ) (last : Viewstamp) : Prop :=
  ∃ asked vid, query = .transferreq asked vid ∧ p.node.insync = true ∧
    vid = p.node.vidInsync ∧ last = p.node.lastMyvs

theorem Process.handle_cases {rpc : Rpc ρ} (h : p.handle rpc = some e) :
    e.sent = [] ∧ e.executed = 0 ∧ p.Quiet e.process ∧
      ∀ answer ∈ e.replies, answer.1 = rpc ∧
        ∀ last state, answer.2 = some (.transferreq last state) → p.Answers rpc.query last := by
  -- the cases with one answer, which is not to `transferreq`
  have hone : ∀ result : Option (Result σ),
      (∀ last state, result ≠ some (.transferreq last state)) →
      ∀ answer ∈ [(rpc, result)], answer.1 = rpc ∧
        ∀ last state, answer.2 = some (.transferreq last state) → p.Answers rpc.query last := by
    intro result hresult answer hmem
    rw [List.mem_singleton] at hmem
    subst hmem
    exact ⟨rfl, fun last state heq => absurd heq (hresult last state)⟩
  have hsame : p.Quiet p := Process.quiet_threads _ _
  cases hquery : rpc.query with
  | joinreq m =>
      simp only [Process.handle, hquery] at h
      split_ifs at h <;> cases h
      · exact ⟨rfl, rfl, hsame, hquery ▸ hone _ nofun⟩
      · exact ⟨rfl, rfl, hsame, hquery ▸ hone _ nofun⟩
      · exact ⟨rfl, rfl, Process.quiet_threads _ _, nofun⟩
  | transferreq asked vid =>
      simp only [Process.handle, hquery, Option.some.injEq] at h
      subst h
      refine ⟨rfl, rfl, hsame, ?_⟩
      intro answer hmem
      rw [List.mem_singleton] at hmem
      subst hmem
      refine ⟨rfl, ?_⟩
      intro last state heq
      obtain ⟨r, hr, hlast⟩ := Option.map_eq_some_iff.mp heq
      unfold Node.transferreq at hr
      split_ifs at hr with hbusy <;> cases hr <;> cases hlast <;>
        · simp only [not_or, Bool.not_eq_false, ne_eq, not_not] at hbusy
          exact ⟨asked, vid, rfl, hbusy.1, hbusy.2, rfl⟩
  | transferdonereq m vid =>
      simp only [Process.handle, hquery] at h
      rcases hdone : p.node.transferdonereq m vid with _ | node
      · simp only [hdone, Option.some.injEq] at h
        subst h
        exact ⟨rfl, rfl, hsame, hquery ▸ hone _ nofun⟩
      · simp only [hdone, Option.some.injEq] at h
        subst h
        unfold Node.transferdonereq at hdone
        split_ifs at hdone
        cases hdone
        exact ⟨rfl, rfl, Process.quiet_node ⟨rfl, rfl⟩ rfl, hquery ▸ hone _ nofun⟩
  | invoke vs req =>
      simp only [Process.handle, hquery] at h
      split_ifs at h
      cases h
      exact ⟨rfl, rfl, Process.quiet_threads _ _, nofun⟩

end Process

/-! ### The invariant -/

/-- `m` was in `epoch` at some time, and if it still is, its service state is `svc`. -/
def Cluster.Matches (s : Cluster σ ρ) (svc : σ) (m : String) (epoch : Nat) : Prop :=
  epoch ≤ (s.replica m).epoch ∧
    ((s.replica m).epoch = epoch → ∀ q ∈ (s.replica m).process, svc = q.node.svc)

/-- A replica whose epoch stays keeps its service state. -/
def Cluster.Advances (s t : Cluster σ ρ) : Prop :=
  ∀ m, (s.replica m).epoch < (t.replica m).epoch ∨
    ((t.replica m).epoch = (s.replica m).epoch ∧
      ∀ q ∈ (t.replica m).process, ∃ p ∈ (s.replica m).process, q.node.svc = p.node.svc)

/-- What the process `p` of machine `b` owes to the requests it has executed and to the answers it
    has or will receive. -/
structure Cluster.Follows (s : Cluster σ ρ) (after : List ρ → σ) (b : String) (p : Process σ ρ) :
    Prop where
  lastMyvs : p.node.lastMyvs = ⟨0, 0⟩
  requests : p.node.svc = after p.requests
  waiting : ∀ rpc, p.waiting = some rpc → rpc.clt = b ∧
    (p.node.pc = .joining rpc.dst ∨ p.node.pc = .transferring rpc.dst ∨
      p.node.pc = .finishing rpc.dst)
  answers : ∀ reply ∈ s.replies, ∀ last state, reply.result = some (.transferreq last state) →
    p.waiting = some reply.rpc → s.Matches p.node.svc reply.rpc.dst reply.epoch
  finishing : ∀ m, p.node.pc = .finishing m → s.Matches p.node.svc m p.answered
  synced : ∀ sync, p.synced = some sync → s.Matches sync.svc sync.primary sync.answered ∧
    sync.epoch ≤ (s.replica b).epoch ∧ ((s.replica b).epoch = sync.epoch → p.node.svc = sync.svc)

structure Cluster.Tracked (s : Cluster σ ρ) (after : List ρ → σ) : Prop where
  processes : ∀ b, ∀ p ∈ (s.replica b).process, s.Follows after b p
  last : ∀ reply ∈ s.replies, ∀ last state,
    reply.result = some (.transferreq last state) → last = ⟨0, 0⟩
  rpcs : ∀ rpc ∈ s.rpcs, rpc.xid < (s.replica rpc.clt).xid
  replies : ∀ reply ∈ s.replies, ∀ last state,
    reply.result = some (.transferreq last state) → reply.rpc.xid < (s.replica reply.rpc.clt).xid

section Invariant

variable {s t : Cluster σ ρ} {after : List ρ → σ} {b n : String} {p q : Process σ ρ}
  {e : Effect σ ρ}

theorem Cluster.Matches.advances {svc : σ} {m : String} {epoch : Nat}
    (h : s.Matches svc m epoch) (hadv : s.Advances t) : t.Matches svc m epoch := by
  obtain ⟨hle, heq⟩ := h
  rcases hadv m with hlt | ⟨hsame, hsvc⟩
  · constructor
    · omega
    · intro hepoch
      omega
  · constructor
    · omega
    · intro hepoch r hr
      obtain ⟨p, hp, hsvcp⟩ := hsvc r hr
      rw [hsvcp]
      exact heq (hsame ▸ hepoch) p hp

theorem Cluster.Follows.quiet (h : s.Follows after b p) (hquiet : p.Quiet q) (hadv : s.Advances t)
    (hepoch : (t.replica b).epoch = (s.replica b).epoch)
    (hreplies : ∀ reply ∈ t.replies, ∀ last state,
      reply.result = some (.transferreq last state) → p.waiting = some reply.rpc →
      reply ∈ s.replies ∨ t.Matches p.node.svc reply.rpc.dst reply.epoch) :
    t.Follows after b q := by
  constructor
  · rw [hquiet.service.lastMyvs]
    exact h.lastMyvs
  · rw [hquiet.service.svc, hquiet.requests]
    exact h.requests
  · intro rpc hwaiting
    rcases hquiet.recovery with ⟨hnone, -⟩ | ⟨hsame, hpc, -⟩
    · rw [hnone] at hwaiting
      cases hwaiting
    · rw [hpc]
      exact h.waiting rpc (hsame ▸ hwaiting)
  · intro reply hmem last state hresult hwaiting
    rcases hquiet.recovery with ⟨hnone, -⟩ | ⟨hsame, -, -⟩
    · rw [hnone] at hwaiting
      cases hwaiting
    · rw [hsame] at hwaiting
      rw [hquiet.service.svc]
      rcases hreplies reply hmem last state hresult hwaiting with hold | hnew
      · exact (h.answers reply hold last state hresult hwaiting).advances hadv
      · exact hnew
  · intro m hfinishing
    rcases hquiet.recovery with ⟨-, hnot⟩ | ⟨-, hpc, hanswered⟩
    · exact absurd hfinishing (hnot m)
    · rw [hquiet.service.svc, hanswered]
      exact (h.finishing m (hpc ▸ hfinishing)).advances hadv
  · intro sync hsync
    rw [hquiet.synced] at hsync
    obtain ⟨hmatches, hle, hsvc⟩ := h.synced sync hsync
    rw [hepoch, hquiet.service.svc]
    exact ⟨hmatches.advances hadv, hle, hsvc⟩

@[simp] theorem Cluster.process_apply_self :
    ((s.apply n e).replica n).process = some e.process := by
  simp [Cluster.apply]

@[simp] theorem Cluster.epoch_apply_self :
    ((s.apply n e).replica n).epoch = (s.replica n).epoch + e.executed := by
  simp [Cluster.apply]

theorem Cluster.mem_replies_apply {reply : Reply σ ρ} (h : reply ∈ (s.apply n e).replies) :
    (∃ answer ∈ e.replies, reply = ⟨answer.1, answer.2, (s.replica n).epoch⟩) ∨
      reply ∈ s.replies := by
  rcases List.mem_append.mp h with hnew | hold
  · obtain ⟨answer, hanswer, rfl⟩ := List.mem_map.mp hnew
    exact .inl ⟨answer, hanswer, rfl⟩
  · exact .inr hold

theorem Cluster.replica_apply_other (hne : b ≠ n) : (s.apply n e).replica b = s.replica b := by
  simp [Cluster.apply, hne]

theorem Cluster.xid_le_apply (s : Cluster σ ρ) (n b : String) (e : Effect σ ρ) :
    (s.replica b).xid ≤ ((s.apply n e).replica b).xid := by
  by_cases hb : b = n
  · subst hb
    simp [Cluster.apply]
  · rw [Cluster.replica_apply_other hb]

theorem Cluster.advances_apply (hp : (s.replica n).process = some p)
    (hsvc : e.executed = 0 → e.process.node.svc = p.node.svc) : s.Advances (s.apply n e) := by
  intro m
  by_cases hm : m = n
  · subst hm
    rw [Cluster.epoch_apply_self, Cluster.process_apply_self]
    rcases Nat.eq_zero_or_pos e.executed with hzero | hpos
    · refine .inr ⟨by omega, ?_⟩
      intro q hq
      cases hq
      exact ⟨p, hp, hsvc hzero⟩
    · exact .inl (by omega)
  · rw [Cluster.replica_apply_other hm]
    exact .inr ⟨rfl, fun q hq => ⟨q, hq, rfl⟩⟩

/-- The process `p` of machine `n` may answer `rpc`: whoever waits for it has the same
    service state. -/
structure Cluster.Grants (s : Cluster σ ρ) (n : String) (p : Process σ ρ) (rpc : Rpc ρ)
    (last : Viewstamp) : Prop where
  last : last = ⟨0, 0⟩
  dst : rpc.dst = n
  xid : rpc.xid < (s.replica rpc.clt).xid
  svc : ∀ b, ∀ c ∈ (s.replica b).process, c.waiting = some rpc → c.node.svc = p.node.svc

/-- A new answer of `n` matches the state it has after its step. -/
theorem Cluster.Grants.matches_apply {rpc : Rpc ρ} {last : Viewstamp} {c : Process σ ρ}
    (h : s.Grants n p rpc last) (hsvc : e.executed = 0 → e.process.node.svc = p.node.svc)
    (hc : c ∈ (s.replica b).process) (hwaiting : c.waiting = some rpc) :
    (s.apply n e).Matches c.node.svc rpc.dst (s.replica n).epoch := by
  rw [h.dst]
  constructor
  · simp
  · intro hepoch q hq
    rw [Cluster.process_apply_self] at hq
    cases hq
    rw [Cluster.epoch_apply_self] at hepoch
    rw [h.svc b c hc hwaiting, hsvc (by omega)]

theorem Cluster.Tracked.apply (h : s.Tracked after) (hp : (s.replica n).process = some p)
    (hsvc : e.executed = 0 → e.process.node.svc = p.node.svc)
    (hself : (s.apply n e).Follows after n e.process)
    (hsent : ∀ rpc ∈ e.sent, rpc.clt = n ∧ rpc.xid = (s.replica n).xid)
    (hreplies : ∀ answer ∈ e.replies, ∀ last state,
      answer.2 = some (.transferreq last state) → s.Grants n p answer.1 last) :
    (s.apply n e).Tracked after := by
  have hadv := Cluster.advances_apply hp hsvc
  constructor
  · intro b c hc
    by_cases hb : b = n
    · subst hb
      rw [Cluster.process_apply_self] at hc
      cases hc
      exact hself
    · rw [Cluster.replica_apply_other hb] at hc
      refine (h.processes b c hc).quiet (Process.quiet_threads _ _) hadv
        (by rw [Cluster.replica_apply_other hb]) ?_
      intro reply hmem last state hresult hwaiting
      rcases Cluster.mem_replies_apply hmem with ⟨answer, hanswer, rfl⟩ | hold
      · exact .inr ((hreplies answer hanswer last state hresult).matches_apply hsvc hc hwaiting)
      · exact .inl hold
  · intro reply hmem last state hresult
    rcases Cluster.mem_replies_apply hmem with ⟨answer, hanswer, rfl⟩ | hold
    · exact (hreplies answer hanswer last state hresult).last
    · exact h.last reply hold last state hresult
  · intro rpc hmem
    rcases List.mem_append.mp hmem with hnew | hold
    · obtain ⟨hclt, hxid⟩ := hsent rpc hnew
      have hpos : 0 < e.sent.length := List.length_pos_of_mem hnew
      simp only [Cluster.apply, hclt, hxid, Function.update_self]
      omega
    · exact (h.rpcs rpc hold).trans_le (s.xid_le_apply n rpc.clt e)
  · intro reply hmem last state hresult
    rcases Cluster.mem_replies_apply hmem with ⟨answer, hanswer, rfl⟩ | hold
    · exact (hreplies answer hanswer last state hresult).xid.trans_le (s.xid_le_apply n _ e)
    · exact (h.replies reply hold last state hresult).trans_le (s.xid_le_apply n _ e)

/-! ### Steps of one process -/

theorem Cluster.Tracked.quiet (h : s.Tracked after) (hp : (s.replica n).process = some p)
    (hquiet : p.Quiet e.process) (hcount : e.executed = 0)
    (hsent : ∀ rpc ∈ e.sent, rpc.clt = n ∧ rpc.xid = (s.replica n).xid)
    (hreplies : ∀ answer ∈ e.replies, ∀ last state,
      answer.2 = some (.transferreq last state) → s.Grants n p answer.1 last) :
    (s.apply n e).Tracked after := by
  have hsvc : e.executed = 0 → e.process.node.svc = p.node.svc := fun _ => hquiet.service.svc
  refine h.apply hp hsvc ?_ hsent hreplies
  refine (h.processes n p hp).quiet hquiet (Cluster.advances_apply hp hsvc) (by simp [hcount]) ?_
  intro reply hmem last state hresult hwaiting
  rcases Cluster.mem_replies_apply hmem with ⟨answer, hanswer, rfl⟩ | hold
  · exact .inr ((hreplies answer hanswer last state hresult).matches_apply hsvc hp hwaiting)
  · exact .inl hold

/-- A step that neither sends nor answers. -/
theorem Cluster.Tracked.quiet_process (h : s.Tracked after) (hp : (s.replica n).process = some p)
    (hquiet : p.Quiet q) : (s.apply n { process := q }).Tracked after :=
  h.quiet hp hquiet rfl nofun nofun

theorem Cluster.Tracked.ask (h : s.Tracked after) (hp : (s.replica n).process = some p)
    (hask : p.ask n (s.replica n).xid = some e) : (s.apply n e).Tracked after := by
  unfold Process.ask at hask
  split_ifs at hask
  obtain ⟨⟨m, query⟩, hquery, rfl⟩ := Option.map_eq_some_iff.mp hask
  have hfollows := h.processes n p hp
  have hadv := Cluster.advances_apply (n := n) (e := {
    process := { p with waiting := some ⟨n, (s.replica n).xid, m, query⟩ }
    sent := [⟨n, (s.replica n).xid, m, query⟩] }) hp (fun _ => rfl)
  refine h.apply hp (fun _ => rfl) ?_ ?_ nofun
  · constructor
    · exact hfollows.lastMyvs
    · exact hfollows.requests
    · intro rpc hwaiting
      cases hwaiting
      refine ⟨rfl, ?_⟩
      unfold Process.query at hquery
      cases hpc : p.node.pc <;>
        simp only [hpc, Option.some.injEq, Prod.mk.injEq, reduceCtorEq] at hquery <;>
        simp [hquery.1]
    · -- no answer has the number of the new RPC
      intro reply hmem last state hresult hwaiting
      have hxid := h.replies reply hmem last state hresult
      rw [← Option.some.inj hwaiting] at hxid
      exact absurd hxid (lt_irrefl _)
    · intro m' hfinishing
      exact (hfollows.finishing m' hfinishing).advances hadv
    · intro sync hsync
      obtain ⟨hmatches, hle, hsvc⟩ := hfollows.synced sync hsync
      rw [Cluster.epoch_apply_self]
      exact ⟨hmatches.advances hadv, hle, hsvc⟩
  · intro rpc hmem
    rw [List.mem_singleton] at hmem
    exact hmem ▸ ⟨rfl, rfl⟩

/-- The recovery thread of `p` has the answer OK to its `transferreq`, or will find it. -/
def Cluster.answered [DecidableEq ρ] (s : Cluster σ ρ) (p : Process σ ρ) : Bool :=
  (p.node.pc matches .finishing _) ||
    s.replies.any fun reply => reply.isTransfer && decide (p.waiting = some reply.rpc)

theorem Cluster.answered_eq_false [DecidableEq ρ] (h : s.answered p = false) :
    (∀ m, p.node.pc ≠ .finishing m) ∧ ∀ reply ∈ s.replies, ∀ last state,
      reply.result = some (.transferreq last state) → p.waiting ≠ some reply.rpc := by
  simp only [Cluster.answered, Bool.or_eq_false_iff] at h
  constructor
  · intro m hpc
    simp [hpc] at h
  · intro reply hmem last state hresult hwaiting
    have hreply := List.any_eq_false.mp h.2 reply hmem
    simp [Reply.isTransfer, hresult, hwaiting] at hreply

theorem Cluster.Tracked.execute [DecidableEq ρ] {execute : ρ → σ → σ × β} {req : ρ} {xid : Nat}
    (h : s.Tracked after) (hp : (s.replica n).process = some p) (hnot : s.answered p = false)
    (hprocess : e.process = p.execute execute req) (hcount : e.executed = 1)
    (hplain : e.Plain n xid) (hxid : xid = (s.replica n).xid)
    (hafter : after (p.requests ++ [req]) = (execute req (after p.requests)).1) :
    (s.apply n e).Tracked after := by
  obtain ⟨hpc, hwaits⟩ := Cluster.answered_eq_false hnot
  have hfollows := h.processes n p hp
  have hsvc : e.executed = 0 → e.process.node.svc = p.node.svc := by
    intro hzero
    omega
  have hadv := Cluster.advances_apply hp hsvc
  refine h.apply hp hsvc ?_ (hxid ▸ hplain.sent) ?_
  · rw [hprocess]
    constructor
    · exact hfollows.lastMyvs
    · rw [Process.execute, hafter, hfollows.requests]
    · exact hfollows.waiting
    · intro reply hmem last state hresult hwaiting
      rcases Cluster.mem_replies_apply hmem with ⟨answer, hanswer, rfl⟩ | hold
      · exact absurd hresult (hplain.replies answer hanswer last state)
      · exact absurd hwaiting (hwaits reply hold last state hresult)
    · intro m hfinishing
      exact absurd hfinishing (hpc m)
    · intro sync hsync
      obtain ⟨hmatches, hle, -⟩ := hfollows.synced sync hsync
      rw [Cluster.epoch_apply_self]
      exact ⟨hmatches.advances hadv, by omega, fun heq => by omega⟩
  · intro answer hanswer last state heq
    exact absurd heq (hplain.replies answer hanswer last state)

/-- `statetransfer` returns: nothing was shipped, and the answer said that nothing is missing. -/
theorem Cluster.Tracked.transferred {reply : Reply σ ρ} {last : Viewstamp} {state : Option σ}
    (h : s.Tracked after) (hp : (s.replica n).process = some p) (hreply : reply ∈ s.replies)
    (hwaiting : p.waiting = some reply.rpc)
    (hresult : reply.result = some (.transferreq last state))
    (hnext : p.recovery (.transferreq last state) = some q) :
    (s.apply n { process := { q with answered := reply.epoch } }).Tracked after := by
  have hfollows := h.processes n p hp
  obtain ⟨-, hat⟩ := hfollows.waiting reply.rpc hwaiting
  obtain ⟨node, hnode, rfl⟩ := Option.map_eq_some_iff.mp hnext
  have hlast := h.last reply hreply last state hresult
  have hcases := Node.recovery_cases hnode
  have hservice : p.node.SameService node := by
    apply hcases.sameService
    rintro _ _ heq
    cases heq
    rw [hlast, hfollows.lastMyvs]
  cases hcases with
  | @transferred m _ _ hpc =>
      have hdst : m = reply.rpc.dst := by
        rw [hpc] at hat
        simpa using hat
      subst hdst
      have hadv : s.Advances (s.apply n { process := { p with
          node := p.node.transferred reply.rpc.dst last state
          waiting := none
          answered := reply.epoch } }) := Cluster.advances_apply hp (fun _ => hservice.svc)
      refine h.apply hp (fun _ => hservice.svc) ?_ nofun nofun
      constructor
      · exact hlast
      · rw [hservice.svc]
        exact hfollows.requests
      · nofun
      · nofun
      · intro m' hfinishing
        cases hfinishing
        rw [hservice.svc]
        exact (hfollows.answers reply hreply last state hresult hwaiting).advances hadv
      · intro sync hsync
        obtain ⟨hmatches, hle, hsvc⟩ := hfollows.synced sync hsync
        rw [Cluster.epoch_apply_self, hservice.svc]
        exact ⟨hmatches.advances hadv, hle, hsvc⟩

/-- `statetransferdone` returns, which completes the synchronisation. -/
theorem Cluster.Tracked.finished {reply : Reply σ ρ} (h : s.Tracked after)
    (hp : (s.replica n).process = some p) (hwaiting : p.waiting = some reply.rpc)
    (hnext : p.recovery .transferdonereq = some q) :
    (s.apply n { process := { q with
      synced := p.finish reply.rpc.dst (s.replica n).epoch } }).Tracked after := by
  have hfollows := h.processes n p hp
  obtain ⟨-, hat⟩ := hfollows.waiting reply.rpc hwaiting
  have hquiet := Process.quiet_recovery hnext nofun
  have hadv : s.Advances (s.apply n { process := { q with
      synced := p.finish reply.rpc.dst (s.replica n).epoch } }) :=
    Cluster.advances_apply hp (fun _ => hquiet.service.svc)
  have hnextFollows := hfollows.quiet hquiet hadv (by simp) (fun _ hmem _ _ _ _ => .inl hmem)
  refine h.apply hp (fun _ => hquiet.service.svc) ?_ nofun nofun
  refine { hnextFollows with synced := ?_ }
  intro sync hsync
  unfold Process.finish at hsync
  split_ifs at hsync
  · cases hsync
    have hpc : p.node.pc = .finishing reply.rpc.dst := by
      obtain ⟨node, hnode, -⟩ := Option.map_eq_some_iff.mp hnext
      cases Node.recovery_cases hnode with
      | finished hpc =>
          rw [hpc] at hat
          rw [hpc]
          simpa using hat
    exact ⟨(hfollows.finishing _ hpc).advances hadv, by simp, fun _ => hquiet.service.svc⟩
  · exact hnextFollows.synced sync (hquiet.synced ▸ hsync)

/-- The recovery thread receives the answer it waits for. -/
theorem Cluster.Tracked.answer {reply : Reply σ ρ} {junk : Nat} (h : s.Tracked after)
    (hp : (s.replica n).process = some p) (hreply : reply ∈ s.replies)
    (hwaiting : p.waiting = some reply.rpc)
    (hanswer : p.answer reply junk (s.replica n).epoch = some q) :
    (s.apply n { process := q }).Tracked after := by
  rcases hresult : reply.result with _ | result
  · simp only [Process.answer, hresult] at hanswer
    exact h.quiet_process hp (Process.quiet_recovery hanswer nofun)
  · cases result with
    | joinreq log =>
        simp only [Process.answer, hresult] at hanswer
        exact h.quiet_process hp (Process.quiet_recovery hanswer nofun)
    | transferreq last state =>
        simp only [Process.answer, hresult] at hanswer
        obtain ⟨next, hnext, rfl⟩ := Option.map_eq_some_iff.mp hanswer
        exact h.transferred hp hreply hwaiting hresult hnext
    | transferdonereq =>
        simp only [Process.answer, hresult] at hanswer
        obtain ⟨next, hnext, rfl⟩ := Option.map_eq_some_iff.mp hanswer
        exact h.finished hp hwaiting hnext
    | invoke => simp only [Process.answer, hresult, reduceCtorEq] at hanswer

/-- A machine that starts or crashes leaves its epoch. -/
theorem Cluster.advances_update {r : Replica σ ρ} (hepoch : (s.replica n).epoch < r.epoch) :
    s.Advances { s with replica := Function.update s.replica n r } := by
  intro m
  by_cases hm : m = n
  · subst hm
    exact .inl (by simpa using hepoch)
  · refine .inr ?_
    simp only [Function.update_of_ne hm, true_and]
    exact fun q hq => ⟨q, hq, rfl⟩

theorem Cluster.Tracked.update {r : Replica σ ρ} (h : s.Tracked after)
    (hepoch : (s.replica n).epoch < r.epoch) (hxid : r.xid = (s.replica n).xid)
    (hprocess : ∀ p ∈ r.process, ∃ node : Node σ, node.lastMyvs = ⟨0, 0⟩ ∧ p = .start node ∧
      node.svc = after [] ∧ ∀ m, node.pc ≠ .finishing m) :
    Cluster.Tracked { s with replica := Function.update s.replica n r } after := by
  have hadv := Cluster.advances_update hepoch
  have hxids : ∀ clt, (Function.update s.replica n r clt).xid = (s.replica clt).xid := by
    intro clt
    by_cases hclt : clt = n
    · rw [hclt, Function.update_self, hxid]
    · rw [Function.update_of_ne hclt]
  constructor
  · intro b p hp
    by_cases hb : b = n
    · subst hb
      obtain ⟨node, hlast, rfl, hsvc, hpc⟩ := hprocess p (by simpa using hp)
      exact ⟨hlast, hsvc, nofun, nofun, fun m hfinishing => absurd hfinishing (hpc m), nofun⟩
    · simp only [Function.update_of_ne hb] at hp
      refine (h.processes b p hp).quiet (Process.quiet_threads _ _) hadv ?_ ?_
      · simp only [Function.update_of_ne hb]
      · intro reply hmem _ _ _ _
        exact .inl hmem
  · exact h.last
  · intro rpc hmem
    rw [hxids]
    exact h.rpcs rpc hmem
  · intro reply hmem last state hresult
    rw [hxids]
    exact h.replies reply hmem last state hresult

theorem Node.pc_new {first me : String} {svc : σ} {file : List Char} {junk : Nat} {node : Node σ}
    (h : Node.new first me svc file junk = some node) : node.pc = .created := by
  obtain ⟨booted, hboot, hnew⟩ := Option.bind_eq_some_iff.mp h
  have hbooted : booted.pc = .created := by
    obtain ⟨acc, -, rfl⟩ := Option.map_eq_some_iff.mp hboot
    rw [Node.reconstruct_eq]
    split_ifs <;> rfl
  split_ifs at hnew
  · rw [Node.pc_commitChange hnew, hbooted]
  · cases hnew
    exact hbooted

theorem Cluster.Tracked.start {first : String} {svc : σ} {junk : Nat} (h : s.Tracked after)
    (hstart : s.start n first svc junk = some t) (hafter : after [] = svc) : t.Tracked after := by
  unfold Cluster.start at hstart
  split_ifs at hstart
  obtain ⟨node, hnew, rfl⟩ := Option.map_eq_some_iff.mp hstart
  apply h.update
  · exact Nat.lt_succ_self _
  · rfl
  · intro p hp
    cases hp
    obtain ⟨hsvc, hlast⟩ := Node.service_new hnew
    refine ⟨node, hlast, rfl, hsvc.trans hafter.symm, ?_⟩
    intro m hfinishing
    rw [Node.pc_new hnew] at hfinishing
    cases hfinishing

theorem Cluster.Tracked.crash (h : s.Tracked after) (hcrash : s.crash n = some t) :
    t.Tracked after := by
  obtain ⟨p, -, rfl⟩ := Option.map_eq_some_iff.mp hcrash
  apply h.update
  · exact Nat.lt_succ_self _
  · rfl
  · intro q hq
    exact absurd hq (Option.not_mem_none q)

end Invariant

/-! ### Runs -/

/-- Nothing has to be transferred: the requests that a process which answers `transferreq` OK
    has executed since its start lead to the same state as those of the process that waits for
    the answer, and no process executes a request after the answer to its own `transferreq`
    before its synchronisation ends. -/
def Cluster.nothingMissing [DecidableEq σ] [DecidableEq ρ] (execute : ρ → σ → σ × β) (svc : σ)
    (s : Cluster σ ρ) : Cluster.Action σ ρ → Bool
  | .handle rpc =>
      match rpc.query, (s.replica rpc.clt).process, (s.replica rpc.dst).process with
      | .transferreq _ vid, some p, some q =>
          decide (p.waiting = some rpc → q.node.insync = true → vid = q.node.vidInsync →
            executeAll execute svc p.requests = executeAll execute svc q.requests)
      | _, _, _ => true
  | .proceed n =>
      match (s.replica n).process with
      | some p => !(p.executing && s.answered p)
      | none => true
  | _ => true

/-- In the state in which a backup has completed `sync_with_primary` it is equal to the
    primary, unless the primary has executed a request since it answered `transferreq`; and
    it stays so as long as the backup executes no request either. -/
def Cluster.Synchronised (s : Cluster σ ρ) : Prop :=
  ∀ b, ∀ p ∈ (s.replica b).process, ∀ sync ∈ p.synced,
    ∀ q ∈ (s.replica sync.primary).process, (s.replica sync.primary).epoch = sync.answered →
      sync.svc = q.node.svc ∧ ((s.replica b).epoch = sync.epoch → p.node.svc = q.node.svc)

section Runs

variable {s t : Cluster σ ρ} {after : List ρ → σ}

theorem Cluster.Tracked.synchronised (h : s.Tracked after) : s.Synchronised := by
  intro b p hp sync hsync q hq hepoch
  obtain ⟨hmatches, -, hsvc⟩ := (h.processes b p hp).synced sync hsync
  have hprimary := hmatches.2 hepoch q hq
  constructor
  · exact hprimary
  · intro hsame
    rw [hsvc hsame, hprimary]

theorem Cluster.tracked_off : (Cluster.off : Cluster σ ρ).Tracked after := by
  constructor
  · intro b p hp
    exact absurd hp (Option.not_mem_none p)
  · intro reply hmem
    exact absurd hmem List.not_mem_nil
  · intro rpc hmem
    exact absurd hmem List.not_mem_nil
  · intro reply hmem
    exact absurd hmem List.not_mem_nil

theorem Cluster.onProcess_some {n : String} {f : Process σ ρ → Option (Effect σ ρ)}
    (h : s.onProcess n f = some t) :
    ∃ p e, (s.replica n).process = some p ∧ f p = some e ∧ t = s.apply n e := by
  obtain ⟨e, hbind, rfl⟩ := Option.map_eq_some_iff.mp h
  obtain ⟨p, hp, hf⟩ := Option.bind_eq_some_iff.mp hbind
  exact ⟨p, e, hp, hf, rfl⟩

theorem Cluster.onNode_some {n : String} {f : Process σ ρ → Option (Process σ ρ)}
    (h : s.onNode n f = some t) :
    ∃ p q, (s.replica n).process = some p ∧ f p = some q ∧ t = s.apply n { process := q } := by
  obtain ⟨p, e, hp, hf, rfl⟩ := Cluster.onProcess_some h
  obtain ⟨q, hq, rfl⟩ := Option.map_eq_some_iff.mp hf
  exact ⟨p, q, hp, hq, rfl⟩

/-- A step on one node that is quiet whatever the state. -/
theorem Cluster.Tracked.onNode {n : String} {f : Process σ ρ → Option (Process σ ρ)}
    (h : s.Tracked after) (hf : ∀ p q, f p = some q → p.Quiet q) (hstep : s.onNode n f = some t) :
    t.Tracked after := by
  obtain ⟨p, q, hp, hq, rfl⟩ := Cluster.onNode_some hstep
  exact h.quiet_process hp (hf p q hq)

variable [DecidableEq σ] [DecidableEq ρ] {execute : ρ → σ → σ × β} {svc : σ}

theorem Cluster.Tracked.handle {rpc : Rpc ρ} {p : Process σ ρ} {e : Effect σ ρ}
    (h : s.Tracked (executeAll execute svc)) (hrpc : rpc ∈ s.rpcs)
    (hp : (s.replica rpc.dst).process = some p)
    (hguard : s.nothingMissing execute svc (.handle rpc) = true) (hhandle : p.handle rpc = some e) :
    (Cluster.apply { s with rpcs := s.rpcs.erase rpc } rpc.dst e).Tracked
      (executeAll execute svc) := by
  have herased : Cluster.Tracked { s with rpcs := s.rpcs.erase rpc } (executeAll execute svc) :=
    { h with
      processes := fun b c hc => { h.processes b c hc with }
      rpcs := fun other hmem => h.rpcs other (List.mem_of_mem_erase hmem) }
  obtain ⟨hsent, hcount, hquiet, hreplies⟩ := Process.handle_cases hhandle
  apply herased.quiet hp hquiet hcount
  · rw [hsent]
    nofun
  · intro answer hanswer last state heq
    obtain ⟨hrpcs, hanswers⟩ := hreplies answer hanswer
    obtain ⟨asked, vid, hquery, hinsync, hvid, hlast⟩ := hanswers last state heq
    rw [hrpcs]
    constructor
    · rw [hlast, (h.processes _ p hp).lastMyvs]
    · rfl
    · exact h.rpcs rpc hrpc
    · -- only the client of the RPC can wait for it
      intro b c hc hwaiting
      obtain ⟨hclt, -⟩ := (h.processes b c hc).waiting rpc hwaiting
      subst hclt
      have hclient : (s.replica rpc.clt).process = some c := hc
      simp only [Cluster.nothingMissing, hquery, hp, hclient, decide_eq_true_eq] at hguard
      rw [(h.processes _ c hc).requests, (h.processes _ p hp).requests]
      exact hguard hwaiting hinsync hvid

theorem Cluster.Tracked.proceed {n : String} {p : Process σ ρ} {e : Effect σ ρ}
    (h : s.Tracked (executeAll execute svc)) (hp : (s.replica n).process = some p)
    (hguard : s.nothingMissing execute svc (.proceed n) = true)
    (hproceed : p.proceed execute n (s.replica n).xid = some e) :
    (s.apply n e).Tracked (executeAll execute svc) := by
  obtain ⟨hplain, hcases⟩ := Process.proceed_cases hproceed
  cases hcases with
  | executed req _ hexecuting hprocess hcount =>
      have hnot : s.answered p = false := by
        simpa [Cluster.nothingMissing, hp, hexecuting] using hguard
      exact h.execute hp hnot hprocess hcount hplain rfl (by simp [executeAll])
  | quiet _ hquiet hcount =>
      apply h.quiet hp hquiet hcount hplain.sent
      intro answer hanswer last state heq
      exact absurd heq (hplain.replies answer hanswer last state)

theorem Cluster.Tracked.step {action : Cluster.Action σ ρ}
    (h : s.Tracked (executeAll execute svc))
    (hguard : s.nothingMissing execute svc action = true)
    (hstep : s.step execute svc action = some t) :
    t.Tracked (executeAll execute svc) := by
  cases action with
  | start n first junk => exact h.start hstep rfl
  | crash n => exact h.crash hstep
  | paxos n op =>
      refine h.onNode ?_ hstep
      intro p q hq
      obtain ⟨node, hnode, rfl⟩ := Option.map_eq_some_iff.mp hq
      exact Process.quiet_node (Node.sameService_paxos hnode) (Node.pc_paxos hnode)
  | paxosCommit n upcall =>
      refine h.onNode ?_ hstep
      intro p q hq
      split_ifs at hq
      cases hq
      exact Process.quiet_node ⟨rfl, rfl⟩ rfl
  | commitChange n vid =>
      refine h.onNode ?_ hstep
      intro p q hq
      split_ifs at hq
      obtain ⟨node, hnode, rfl⟩ := Option.map_eq_some_iff.mp hq
      exact Process.quiet_node (Node.sameService_commitChange hnode) (Node.pc_commitChange hnode)
  | wake n =>
      refine h.onNode ?_ hstep
      intro p q hq
      exact @Process.quiet_recovery σ ρ p q .go hq nofun
  | quiesce n => exact h.onNode (fun p q hq => Process.quiet_quiesce hq) hstep
  | ask n =>
      obtain ⟨p, e, hp, hask, rfl⟩ := Cluster.onProcess_some hstep
      exact h.ask hp hask
  | giveUp n =>
      refine h.onNode ?_ hstep
      intro p q hq
      exact @Process.quiet_recovery σ ρ p q .failure hq nofun
  | clientInvoke n req => exact h.onNode (fun p q hq => Process.quiet_clientInvoke hq) hstep
  | proceed n =>
      obtain ⟨p, e, hp, hproceed, rfl⟩ := Cluster.onProcess_some hstep
      exact h.proceed hp hguard hproceed
  | expire n rpc => exact h.onNode (fun p q hq => Process.quiet_forwarded hq) hstep
  | added n rpc =>
      obtain ⟨p, e, hp, hadded, rfl⟩ := Cluster.onProcess_some hstep
      obtain ⟨hplain, hquiet, hcount⟩ :
          e.Plain n (s.replica n).xid ∧ p.Quiet e.process ∧ e.executed = 0 :=
        Process.added_cases hadded
      apply h.quiet hp hquiet hcount hplain.sent
      intro answer hanswer last state heq
      exact absurd heq (hplain.replies answer hanswer last state)
  | handle rpc =>
      simp only [Cluster.step] at hstep
      split_ifs at hstep with hrpc
      obtain ⟨p, e, hp, hhandle, rfl⟩ := Cluster.onProcess_some hstep
      exact h.handle hrpc hp hguard hhandle
  | receive reply junk =>
      simp only [Cluster.step] at hstep
      split_ifs at hstep with hreply
      obtain ⟨p, q, hp, hq, rfl⟩ := Cluster.onNode_some hstep
      split_ifs at hq with hwaiting
      · exact h.answer hp hreply hwaiting hq
      · exact h.quiet_process hp (Process.quiet_forwarded hq)

/-- **Synchronised replicas.**  In every run whose steps all leave nothing to transfer, a
    backup that has completed `sync_with_primary` is equal to the primary. -/
theorem synchronised_of_nothingMissing
    (h : (cluster execute svc).Reach
      (fun state action => state.nothingMissing execute svc action = true) s) :
    s.Synchronised := by
  have htracked : s.Tracked (executeAll execute svc) := by
    apply h.invariant (P := (Cluster.Tracked · _))
    · rintro start rfl
      exact Cluster.tracked_off
    · intro state next action hstate hguard hstep
      exact hstate.step hguard hstep
  exact htracked.synchronised

end Runs

/-! ### Concrete runs -/

/-- A service that adds up its requests. -/
def addUp (req total : Nat) : Nat × Unit := (total + req, ())

/-- Machine `a` starts and serves alone in view 1. -/
def startFirst : List (Cluster.Action Nat Nat) := [.start "a" "a" 0, .wake "a", .quiesce "a"]

/-- `client_invoke` at `a`, which has no backups. -/
def requestAtFirst (req : Nat) : List (Cluster.Action Nat Nat) :=
  [.clientInvoke "a" req, .proceed "a", .proceed "a", .proceed "a", .proceed "a"]

/-- Machine `b` starts, joins through `a`, which runs Paxos for view 2, and synchronises with
    `a`.  All answers of `a` are from the given epoch. -/
def secondJoins (epoch : Nat) : List (Cluster.Action Nat Nat) :=
  let join : Rpc Nat := ⟨"b", 0, "a", .joinreq "b"⟩
  let transfer : Rpc Nat := ⟨"b", 1, "a", .transferreq ⟨0, 0⟩ 2⟩
  let done : Rpc Nat := ⟨"b", 2, "a", .transferdonereq "b" 2⟩
  let log := logText
    [.done 1 "a", .propseen ⟨1, "a"⟩, .accepted ⟨1, "a"⟩ "a b ", .done 2 "a b "]
  [.start "b" "a" 0, .wake "b", .ask "b", .handle join,
    .paxos "a" (.request (.prepare ⟨2, ⟨1, "a"⟩⟩)),
    .paxos "a" (.request (.accept ⟨2, ⟨1, "a"⟩, "a b "⟩)),
    .paxos "a" (.request (.decide ⟨2, "a b "⟩)),
    .paxosCommit "a" (2, "a b "), .commitChange "a" 2,
    .added "a" join, .wake "a", .quiesce "a", .receive ⟨join, some (.joinreq log), epoch⟩ 0,
    .ask "b", .handle transfer, .receive ⟨transfer, some (.transferreq ⟨0, 0⟩ none), epoch⟩ 0,
    .ask "b", .handle done, .receive ⟨done, some .transferdonereq, epoch⟩ 0]

/-- The service state and the completed synchronisation of `b`, the service state of `a`, and
    the epochs of both. -/
def Cluster.outcome (s : Cluster Nat Nat) :
    Option (Nat × Option (Synced Nat)) × Option Nat × Nat × Nat :=
  ((s.replica "b").process.map fun p => (p.node.svc, p.synced),
    (s.replica "a").process.map fun p => p.node.svc, (s.replica "a").epoch, (s.replica "b").epoch)

theorem synchronised_second_joins :
    ∃ s, (cluster addUp 0).Reach
      (fun state action => state.nothingMissing addUp 0 action = true) s ∧
      s.outcome = (some (0, some ⟨2, "a", 1, 1, 0⟩), some 0, 1, 1) ∧ s.Synchronised := by
  obtain ⟨s, hreach, houtcome⟩ : ∃ s, (cluster addUp 0).Reach
      (fun state action => state.nothingMissing addUp 0 action = true) s ∧
      s.outcome = (some (0, some ⟨2, "a", 1, 1, 0⟩), some 0, 1, 1) :=
    System.Reach.of_exec (Cluster.nothingMissing addUp 0) (startFirst ++ secondJoins 1) rfl
      (fun _ _ h => h) (by decide +kernel)
  exact ⟨s, hreach, houtcome, synchronised_of_nothingMissing hreach⟩

/-- Machine `a` executes a request before `b` joins.  The synchronisation completes and `b`
    is still in the initial state. -/
theorem second_joins_without_state :
    ¬ ∀ s, (cluster addUp 0).Reach anyStep s → s.Synchronised := by
  intro hclaim
  obtain ⟨s, hreach, houtcome⟩ : ∃ s, (cluster addUp 0).Reach anyStep s ∧
      s.outcome = (some (0, some ⟨2, "a", 2, 1, 0⟩), some 7, 2, 1) :=
    System.Reach.of_exec (fun _ _ => true) (startFirst ++ requestAtFirst 7 ++ secondJoins 2) rfl
      (fun _ _ _ => trivial) (by decide +kernel)
  simp only [Cluster.outcome, Prod.mk.injEq, Option.map_eq_some_iff] at houtcome
  obtain ⟨⟨p, hp, -, hsync⟩, ⟨q, hq, hsvc⟩, hepoch, -⟩ := houtcome
  obtain ⟨heq, -⟩ := hclaim s hreach "b" p hp _ hsync q hq hepoch
  rw [hsvc] at heq
  exact absurd heq (by decide)

end DistributedLab.Rsm
