import DistributedLab.RsmSync

/-!
# The view-change barrier

A primary that enters a new view stops serving, waits until every backup of the view
has fetched its state and confirmed it, and serves again.  This module proves that
nothing slips through.  The runs of the cluster are watched: every machine keeps the
list of what its process has done, oldest first, and the recovery thread leaves a
condition wait only if `recovery_cond` was signalled while it waited.  A signal that
finds nobody waiting is lost.

Two facts carry the proof.  The recovery thread that rests after a synchronisation is
woken by a view above the one it has synchronised, so no view is synchronised twice;
and the `transferdonereq` of a backup is sent after the answer to its `transferreq`,
which the primary has given while it was synchronising that view.

Machines start at most once, over any log file; a node that comes back is another
machine.  They may crash at any point.
-/

namespace DistributedLab.Rsm

open Paxos Config Transition

variable {σ ρ β : Type}

/-! ### Watched runs -/

/-- What the process of a machine does. -/
inductive Event where
  /-- `sync_with_backups` sets `insync`; `view` is what `get_view(vid_insync)` returned. -/
  | began (vid : Nat) (view : List String)
  /-- `transferreq` of `m` is answered OK. -/
  | transferred (m : String) (vid : Nat)
  /-- `transferdonereq` of `m` is answered OK. -/
  | done (m : String) (vid : Nat)
  | executed
  /-- The recovery thread of a primary clears `inviewchange`. -/
  | cleared (vid : Nat)
deriving DecidableEq, Repr

/-- The machine whose process takes the step. -/
def Cluster.Action.machine : Cluster.Action σ ρ → String
  | .start n _ _ | .crash n | .paxos n _ | .paxosCommit n _ | .commitChange n _ | .wake n
  | .quiesce n | .ask n | .giveUp n | .clientInvoke n _ | .proceed n | .expire n _ | .added n _ => n
  | .handle rpc => rpc.dst
  | .receive reply _ => reply.rpc.clt

/-- The events of a step from `p` to `next`. -/
def Process.events (p next : Process σ ρ) : Cluster.Action σ ρ → List Event
  | .wake _ =>
      if p.node.pc = .awaiting ∧ next.node.pc = .resting then [.cleared p.node.vidInsync] else []
  | .quiesce _ =>
      .began p.node.vidInsync (getView p.node.acc p.node.vidInsync) ::
        if next.node.pc = .resting then [.cleared p.node.vidInsync] else []
  | .handle rpc =>
      match rpc.query with
      | .transferreq last vid =>
          if (p.node.transferreq last vid).isSome then [.transferred rpc.clt vid] else []
      | .transferdonereq m vid =>
          if (p.node.transferdonereq m vid).isSome then [.done m vid] else []
      | _ => []
  | .proceed _ => if p.executing then [.executed] else []
  | _ => []

/-- Does the step signal `recovery_cond`?  `commit_change_wo` does when it commits a view,
    `transferdonereq` when no backup is left.  The recovery thread signals too, but it does
    not wait then. -/
def Process.signals (p next : Process σ ρ) : Cluster.Action σ ρ → Bool
  | .commitChange _ _ => decide (p.node.vidCommit < next.node.vidCommit)
  | .handle rpc =>
      match rpc.query with
      | .transferdonereq m vid =>
          (p.node.transferdonereq m vid).isSome && next.node.backups.isEmpty
      | _ => false
  | _ => false

/-- Is it a step of the recovery thread?  If it waits on `recovery_cond` after the step, the
    wait begins there. -/
def Process.resumes [DecidableEq ρ] (p : Process σ ρ) : Cluster.Action σ ρ → Bool
  | .wake _ | .quiesce _ | .giveUp _ => true
  | .receive reply _ => decide (p.waiting = some reply.rpc)
  | _ => false

/-- A cluster and what has happened on each of its machines. -/
structure Watched (σ ρ : Type) where
  cluster : Cluster σ ρ
  /-- `recovery_cond` was signalled since the recovery thread took its last step. -/
  signalled : String → Bool
  events : String → List Event

/-- The recovery thread of `p` is in a condition wait. -/
def Process.suspended (p : Process σ ρ) : Bool :=
  decide (p.node.pc = .awaiting ∨ p.node.pc = .resting)

/-- A machine starts once, and a condition wait returns only when signalled. -/
def Watched.allows (s : Watched σ ρ) : Cluster.Action σ ρ → Bool
  | .start n _ _ => (s.cluster.replica n).epoch == 0
  | .wake n =>
      match (s.cluster.replica n).process with
      | some p => !p.suspended || s.signalled n
      | none => false
  | _ => true

/-- The process of machine `n` has taken a step with the events `new`. -/
def Watched.record (s : Watched σ ρ) (n : String) (next : Cluster σ ρ) (signal : Bool)
    (new : List Event) : Watched σ ρ where
  cluster := next
  signalled := Function.update s.signalled n signal
  events := Function.update s.events n (s.events n ++ new)

def Watched.observe [DecidableEq ρ] (s : Watched σ ρ) (action : Cluster.Action σ ρ)
    (next : Cluster σ ρ) : Watched σ ρ :=
  let n := action.machine
  match (s.cluster.replica n).process, (next.replica n).process with
  | some p, some q =>
      s.record n next (if p.resumes action then false else s.signalled n || p.signals q action)
        (p.events q action)
  | _, _ => { s with cluster := next }

/-- The runs of a cluster, watched, over arbitrary log files. -/
def watched (execute : ρ → σ → σ × β) (svc : σ) [DecidableEq σ] [DecidableEq ρ] :
    System (Watched σ ρ) (Cluster.Action σ ρ) where
  init := fun s => ∃ files : String → List Char, s =
    { cluster :=
        { replica := fun n => { file := files n, process := none, xid := 0, epoch := 0 }
          rpcs := []
          replies := [] }
      signalled := fun _ => false
      events := fun _ => [] }
  step := fun s action =>
    if s.allows action then (s.cluster.step execute svc action).map (s.observe action) else none

/-! ### The property -/

/-- What happens between setting `insync` for `vid` and clearing `inviewchange`: no request
    is executed, and every other member has its `transferreq` and then its
    `transferdonereq` accepted. -/
structure Synchronisation (me : String) (vid : Nat) (view : List String) (during : List Event) :
    Prop where
  once : ∀ vid' view', .began vid' view' ∉ during
  quiet : .executed ∉ during
  handed : ∀ m ∈ view, m ≠ me → List.Sublist [.transferred m vid, .done m vid] during

/-- `inviewchange` is cleared only at the end of a complete synchronisation. -/
def Barrier (me : String) (events : List Event) : Prop :=
  ∀ before after vid, events = before ++ .cleared vid :: after →
    ∃ earlier view during, before = earlier ++ .began vid view :: during ∧
      Synchronisation me vid view during

theorem Barrier.concat {me : String} {events : List Event} {e : Event} (h : Barrier me events)
    (hlast : ∀ vid, e = .cleared vid → ∃ earlier view during,
      events = earlier ++ .began vid view :: during ∧ Synchronisation me vid view during) :
    Barrier me (events ++ [e]) := by
  intro before after vid heq
  rcases List.eq_nil_or_concat after with rfl | ⟨rest, last, rfl⟩
  · obtain ⟨rfl, hcleared⟩ := List.append_inj' heq rfl
    exact hlast vid (List.singleton_inj.mp hcleared)
  · rw [List.concat_eq_append, ← List.cons_append, ← List.append_assoc] at heq
    exact h before rest vid (List.append_inj' heq rfl).1

/-- A step that does not clear `inviewchange`. -/
theorem Barrier.append {me : String} {events new : List Event} (h : Barrier me events)
    (hnew : ∀ vid, .cleared vid ∉ new) : Barrier me (events ++ new) := by
  induction new using List.reverseRecOn with
  | nil => rwa [List.append_nil]
  | append_singleton new e ih =>
      rw [← List.append_assoc]
      apply (ih fun vid hmem => hnew vid (List.mem_append_left _ hmem)).concat
      rintro vid rfl
      exact absurd (List.mem_append_right _ (List.mem_singleton_self _)) (hnew vid)

/-! ### Names -/

theorem Acceptor.me_readRecord {a : Acceptor} {type : String} {inst : Nat}
    {from' : TextStream.IStream} {next : Acceptor × Nat × TextStream.IStream}
    (h : a.readRecord type inst from' = some next) : next.1.me = a.me := by
  unfold Acceptor.readRecord at h
  split_ifs at h <;> cases h <;> rfl

theorem Acceptor.me_logreadLoop {fuel : Nat} {a next : Acceptor} {type : String} {inst : Nat}
    {from' : TextStream.IStream} (h : a.logreadLoop fuel type inst from' = some next) :
    next.me = a.me := by
  induction fuel generalizing a type inst from' with
  | zero => cases h
  | succ fuel ih =>
      rw [Acceptor.logreadLoop] at h
      split at h
      · cases h
        rfl
      · obtain ⟨after, hread, hrest⟩ := Option.bind_eq_some_iff.mp h
        exact (ih hrest).trans (me_readRecord hread)

theorem Acceptor.me_logread {a next : Acceptor} {junk : Nat} (h : a.logread junk = some next) :
    next.me = a.me :=
  me_logreadLoop h

theorem Acceptor.me_perform {a next : Acceptor} {op : Op} (h : a.perform op = some next) :
    next.me = a.me := by
  cases op with
  | request req =>
      obtain ⟨⟨after, res⟩, hhandle, rfl⟩ := Option.map_eq_some_iff.mp h
      cases Acceptor.handle_outcome hhandle <;> rfl
  | commit inst value =>
      cases h
      rw [Acceptor.commit, Acceptor.commitWo]
      split_ifs <;> rfl

section Names

variable {n next : Node σ}

theorem Node.myaddr_loopHead : n.loopHead.myaddr = n.myaddr := by
  unfold Node.loopHead
  split_ifs <;> rfl

theorem Node.myaddr_synced (r : Bool) : (n.synced r).myaddr = n.myaddr := by
  unfold Node.synced
  split_ifs
  · exact Node.myaddr_loopHead
  · rfl
  · exact Node.myaddr_loopHead

theorem Node.myaddr_awaitBackups : n.awaitBackups.myaddr = n.myaddr := by
  unfold Node.awaitBackups
  split_ifs
  · rfl
  · exact Node.myaddr_synced true

theorem Node.myaddr_commitChangeWo {vid : Nat} (h : n.commitChangeWo vid = some next) :
    next.myaddr = n.myaddr := by
  rw [Node.commitChangeWo_eq] at h
  split_ifs at h
  · cases h
    rfl
  · obtain ⟨primary, -, rfl⟩ := Option.map_eq_some_iff.mp h
    rfl

theorem Node.myaddr_reconstruct : n.reconstruct.myaddr = n.myaddr := by
  rw [Node.reconstruct_eq]
  split_ifs <;> rfl

theorem Node.myaddr_joined {log : List Char} {junk : Nat} (h : n.joined log junk = some next) :
    next.myaddr = n.myaddr := by
  obtain ⟨restored, hrestore, hrest⟩ := Option.bind_eq_some_iff.mp h
  obtain ⟨after, hcommit, rfl⟩ := Option.map_eq_some_iff.mp hrest
  obtain ⟨acc, hacc, rfl⟩ := Option.map_eq_some_iff.mp hrestore
  have hme : acc.me = n.acc.me := Acceptor.me_logread (a := { n.acc with file := log }) hacc
  rw [Node.myaddr_loopHead, Node.myaddr_commitChangeWo hcommit, Node.myaddr_reconstruct]
  exact hme

theorem Node.Recovery.myaddr {wakeup : Wakeup σ} (h : n.Recovery wakeup next) :
    next.myaddr = n.myaddr := by
  cases h with
  | looped hpc => exact Node.myaddr_loopHead
  | awaited hpc => exact Node.myaddr_awaitBackups
  | began hpc => exact Node.myaddr_awaitBackups
  | joined hpc hjoined => exact Node.myaddr_joined hjoined
  | transferred hpc => rfl
  | finished hpc => exact Node.myaddr_synced _
  | refused hpc => rfl
  | failed hpc => exact Node.myaddr_synced false

theorem Node.myaddr_new {first me : String} {svc : σ} {file : List Char} {junk : Nat}
    (h : Node.new first me svc file junk = some n) : n.myaddr = me := by
  obtain ⟨booted, hboot, hnew⟩ := Option.bind_eq_some_iff.mp h
  obtain ⟨acc, hacc, rfl⟩ := Option.map_eq_some_iff.mp hboot
  obtain ⟨read, hread, rfl⟩ := Option.map_eq_some_iff.mp hacc
  have hme : read.me = me := Acceptor.me_logread hread
  have hfirst : (read.logFirst (me == first) me).me = read.me := by
    unfold Acceptor.logFirst
    split_ifs <;> rfl
  split_ifs at hnew
  · rw [Node.myaddr_commitChangeWo hnew]
    exact Node.myaddr_reconstruct.trans (hfirst.trans hme)
  · cases hnew
    exact Node.myaddr_reconstruct.trans (hfirst.trans hme)

end Names

/-! ### One machine -/

/-- The view an event belongs to. -/
def Event.vid : Event → Option Nat
  | .began vid _ | .transferred _ vid | .done _ vid | .cleared vid => some vid
  | .executed => none

/-- All events are from views below `vid`. -/
def Below (events : List Event) (vid : Nat) : Prop := ∀ e ∈ events, ∀ v ∈ e.vid, v < vid

theorem below_append {events new : List Event} {vid : Nat} :
    Below (events ++ new) vid ↔ Below events vid ∧ Below new vid := by
  simp only [Below, List.mem_append, or_imp, forall_and]

theorem Below.mono {events : List Event} {vid vid' : Nat} (h : Below events vid)
    (hle : vid ≤ vid') : Below events vid' :=
  fun e he v hv => (h e he v hv).trans_le hle

/-- The thread with `invoke_mutex`, if there is one, has not yet looked at `inviewchange`. -/
def Process.Halted (p : Process σ ρ) : Prop :=
  p.handler = none ∨ ∃ rpc vs req, p.handler = some (.invoked rpc vs req)

/-- The events of a synchronisation in progress.  A member of the view is still in
    `backups`, or has been handed over to. -/
structure Node.Collects (me : String) (view : List String) (during : List Event) (n : Node σ) :
    Prop where
  events : ∀ e ∈ during, ∃ m, e = .transferred m n.vidInsync ∨ e = .done m n.vidInsync
  backups : ∀ m ∈ view, m ≠ me → m ∈ n.backups ∨
    List.Sublist [.transferred m n.vidInsync, .done m n.vidInsync] during

/-- The invariant of a process, by the point where the recovery thread stands. -/
structure Process.Guarded (me : String) (signalled : Bool) (events : List Event)
    (p : Process σ ρ) : Prop where
  changing : p.node.pc ≠ .resting ∨ signalled = true → p.node.inviewchange = true
  idle : p.node.pc ≠ .awaiting → p.node.insync = false
  old : p.node.pc ≠ .awaiting → p.node.pc ≠ .resting → Below events p.node.vidCommit
  quiescing : p.node.pc = .quiescing →
    p.node.vidInsync ≤ p.node.vidCommit ∧ Below events p.node.vidInsync
  awaiting : p.node.pc = .awaiting → p.node.vidInsync ≤ p.node.vidCommit ∧ p.Halted ∧
    ∃ earlier view during, events = earlier ++ .began p.node.vidInsync view :: during ∧
      Below earlier p.node.vidInsync ∧ p.node.Collects me view during
  resting : p.node.pc = .resting → p.node.vidInsync ≤ p.node.vidCommit ∧
    Below events (p.node.vidInsync + 1) ∧
    (signalled = true → p.node.vidInsync < p.node.vidCommit)

theorem Node.Collects.below {me : String} {view : List String} {during : List Event} {n : Node σ}
    (h : n.Collects me view during) : Below during (n.vidInsync + 1) := by
  intro e he v hv
  obtain ⟨m, rfl | rfl⟩ := h.events e he
  · cases hv
    exact Nat.lt_succ_self _
  · cases hv
    exact Nat.lt_succ_self _

/-- Nobody is left in `backups`. -/
theorem Node.Collects.synchronisation {me : String} {view : List String} {during : List Event}
    {n : Node σ} (h : n.Collects me view during) (hempty : n.backups = []) :
    Synchronisation me n.vidInsync view during := by
  constructor
  · intro vid view' hmem
    obtain ⟨m, heq | heq⟩ := h.events _ hmem <;> cases heq
  · intro hmem
    obtain ⟨m, heq | heq⟩ := h.events _ hmem <;> cases heq
  · intro m hm hne
    have hbackups := h.backups m hm hne
    rw [hempty] at hbackups
    exact hbackups.resolve_left List.not_mem_nil

section Recovery

variable {me : String} {signalled : Bool} {events : List Event} {p : Process σ ρ} {node : Node σ}

theorem Node.loopHead_ne_resting : node.loopHead.pc ≠ .resting := by
  unfold Node.loopHead
  split_ifs <;> nofun

/-- `join` restores a log and commits the view it ends with. -/
theorem Node.commitChangeWo_restore {log : List Char} {junk : Nat} {n restored after : Node σ}
    (hrestore : n.restore log junk = some restored)
    (hcommit : restored.commitChangeWo restored.myvid = some after) :
    (n.inviewchange = true → after.inviewchange = true) ∧ after.insync = n.insync ∧
      n.vidCommit ≤ after.vidCommit := by
  obtain ⟨acc, -, rfl⟩ := Option.map_eq_some_iff.mp hrestore
  have hsame : ∀ next : Node σ, (next.reconstruct).inviewchange = next.inviewchange ∧
      (next.reconstruct).insync = next.insync ∧ (next.reconstruct).vidCommit = next.vidCommit := by
    intro next
    rw [Node.reconstruct_eq]
    split_ifs <;> exact ⟨rfl, rfl, rfl⟩
  obtain ⟨hinviewchange, hinsync, hvidCommit⟩ := hsame { n with acc := acc }
  rw [Node.commitChangeWo_eq] at hcommit
  split_ifs at hcommit with hle
  · cases hcommit
    exact ⟨fun h => hinviewchange.trans h, hinsync, hvidCommit.ge⟩
  · obtain ⟨primary, -, rfl⟩ := Option.map_eq_some_iff.mp hcommit
    exact ⟨fun _ => rfl, hinsync, hvidCommit.ge.trans (Nat.lt_of_not_le hle).le⟩

/-- From the head of the loop on, whatever led there. -/
theorem Process.guarded_loopHead (hchanging : node.inviewchange = true)
    (hidle : node.insync = false) (hold : Below events node.vidCommit) :
    ({ p with node := node.loopHead, waiting := none } : Process σ ρ).Guarded me signalled
      events := by
  unfold Node.loopHead
  split_ifs
  · exact ⟨fun _ => hchanging, fun _ => hidle, fun _ _ => hold, nofun, nofun, nofun⟩
  · exact ⟨fun _ => hchanging, fun _ => hidle, fun _ _ => hold, fun _ => ⟨le_rfl, hold⟩,
      nofun, nofun⟩
  · exact ⟨fun _ => hchanging, fun _ => hidle, fun _ _ => hold, nofun, nofun, nofun⟩

/-- The end of a synchronisation. -/
theorem Process.guarded_synced {r : Bool} (hchanging : node.inviewchange = true)
    (hidle : node.insync = false)
    (hold : r = false ∨ node.vidInsync ≠ node.vidCommit → Below events node.vidCommit)
    (hbelow : node.vidInsync = node.vidCommit → Below events (node.vidInsync + 1)) :
    ({ p with node := node.synced r, waiting := none } : Process σ ρ).Guarded me false events := by
  unfold Node.synced
  split_ifs with hvid hr
  · exact Process.guarded_loopHead hchanging hidle (hold (.inr hvid))
  · have hvid : node.vidInsync = node.vidCommit := not_not.mp hvid
    exact ⟨by simp, fun _ => hidle, fun _ hne => absurd rfl hne, nofun, nofun,
      fun _ => ⟨hvid.le, hbelow hvid, nofun⟩⟩
  · exact Process.guarded_loopHead hchanging hidle (hold (.inl (by simpa using hr)))

/-- The condition of the wait is tested with the synchronisation in progress. -/
theorem Process.guarded_awaitBackups {earlier during : List Event} {view : List String}
    (hchanging : node.inviewchange = true) (hle : node.vidInsync ≤ node.vidCommit)
    (hhalted : p.Halted) (hevents : events = earlier ++ .began node.vidInsync view :: during)
    (hearlier : Below earlier node.vidInsync) (hcollects : node.Collects me view during)
    (hbarrier : Barrier me events) :
    ({ p with node := node.awaitBackups, waiting := none } : Process σ ρ).Guarded me false
        (events ++ if node.awaitBackups.pc = .resting then [.cleared node.vidInsync] else []) ∧
      Barrier me
        (events ++ if node.awaitBackups.pc = .resting then [.cleared node.vidInsync] else []) := by
  have hbelow : Below events (node.vidInsync + 1) := by
    rw [hevents, below_append]
    refine ⟨hearlier.mono (Nat.le_succ _), ?_⟩
    intro e he v hv
    rcases List.mem_cons.mp he with rfl | he
    · cases hv
      exact Nat.lt_succ_self _
    · exact hcollects.below e he v hv
  unfold Node.awaitBackups
  split_ifs with hwait hpc hpc
  · cases hpc
  · rw [List.append_nil]
    exact ⟨⟨fun _ => hchanging, fun hne => absurd rfl hne, fun hne => absurd rfl hne, nofun,
      fun _ => ⟨hle, hhalted, earlier, view, during, hevents, hearlier, { hcollects with }⟩,
      nofun⟩, hbarrier⟩
  · -- no view change has come and nobody is left
    have hvid : node.vidInsync = node.vidCommit := by
      by_contra hne
      rw [Node.synced, if_pos (by exact hne)] at hpc
      exact Node.loopHead_ne_resting hpc
    have hempty : node.backups = [] := by
      by_contra hne
      exact hwait ⟨hne, hvid⟩
    constructor
    · apply Process.guarded_synced
      · exact hchanging
      · rfl
      · rintro (hr | hne)
        · cases hr
        · exact absurd hvid hne
      · intro _
        refine below_append.mpr ⟨hbelow, ?_⟩
        intro e he v hv
        rw [List.mem_singleton.mp he] at hv
        cases hv
        exact Nat.lt_succ_self _
    · apply hbarrier.concat
      intro vid heq
      cases heq
      exact ⟨earlier, view, during, hevents, hcollects.synchronisation hempty⟩
  · rw [List.append_nil]
    refine ⟨?_, hbarrier⟩
    apply Process.guarded_synced
    · exact hchanging
    · rfl
    · rintro (hr | hne)
      · cases hr
      · exact hbelow.mono (lt_of_le_of_ne hle hne)
    · exact fun _ => hbelow

theorem Process.Guarded.wake {n : String} {q : Process σ ρ} (h : p.Guarded me signalled events)
    (hbarrier : Barrier me events) (hwoken : p.suspended = true → signalled = true)
    (hq : p.recovery .go = some q) :
    q.Guarded me false (events ++ p.events q (.wake n)) ∧
      Barrier me (events ++ p.events q (.wake n)) := by
  obtain ⟨node, hnode, rfl⟩ := Option.map_eq_some_iff.mp hq
  cases Node.recovery_cases hnode with
  | looped hpc =>
      have hne : p.node.pc ≠ .awaiting := by
        rcases hpc with hpc | hpc | hpc <;> rw [hpc] <;> nofun
      have hchanging : p.node.inviewchange = true := by
        apply h.changing
        by_cases hrest : p.node.pc = .resting
        · exact .inr (hwoken (by simp [Process.suspended, hrest]))
        · exact .inl hrest
      have hold : Below events p.node.vidCommit := by
        by_cases hrest : p.node.pc = .resting
        · -- woken by a view above the one that is synchronised
          obtain ⟨-, hbelow, hlt⟩ := h.resting hrest
          exact hbelow.mono (hlt (hwoken (by simp [Process.suspended, hrest])))
        · exact h.old hne hrest
      simp only [Process.events, hne, false_and, if_false, List.append_nil]
      exact ⟨Process.guarded_loopHead hchanging (h.idle hne) hold, hbarrier⟩
  | awaited hpc =>
      obtain ⟨hle, hhalted, earlier, view, during, hevents, hearlier, hcollects⟩ := h.awaiting hpc
      simp only [Process.events, hpc, true_and]
      exact Process.guarded_awaitBackups (h.changing (.inl (by rw [hpc]; nofun))) hle hhalted
        hevents hearlier hcollects hbarrier

theorem Process.Guarded.quiesce {n : String} {q : Process σ ρ} (h : p.Guarded me signalled events)
    (hme : p.node.myaddr = me) (hbarrier : Barrier me events) (hq : p.quiesce = some q) :
    q.Guarded me false (events ++ p.events q (.quiesce n)) ∧
      Barrier me (events ++ p.events q (.quiesce n)) := by
  unfold Process.quiesce at hq
  split_ifs at hq with hhandler
  obtain ⟨node, hnode, rfl⟩ := Option.map_eq_some_iff.mp hq
  cases Node.recovery_cases hnode with
  | began hpc =>
      obtain ⟨hle, hbelow⟩ := h.quiescing hpc
      have hcollects : ({ p.node with
          insync := true
          backups := (getView p.node.acc p.node.vidInsync).erase p.node.myaddr } : Node σ).Collects
          me (getView p.node.acc p.node.vidInsync) [] := by
        refine ⟨nofun, ?_⟩
        intro m hm hne
        exact .inl ((List.mem_erase_of_ne (by rw [hme]; exact hne)).mpr hm)
      rw [Process.events, List.append_cons]
      exact Process.guarded_awaitBackups (h.changing (.inl (by rw [hpc]; nofun))) hle
        (.inl (by simpa using hhandler)) rfl hbelow hcollects (hbarrier.append (by simp))

/-- The answer to an RPC, or its failure. -/
theorem Process.Guarded.recovery {wakeup : Wakeup σ} {q : Process σ ρ}
    (h : p.Guarded me signalled events) (hq : p.recovery wakeup = some q) (hgo : wakeup ≠ .go)
    (hmutex : wakeup ≠ .invokeMutex) : q.Guarded me false events := by
  obtain ⟨node, hnode, rfl⟩ := Option.map_eq_some_iff.mp hq
  cases Node.recovery_cases hnode with
  | looped hpc => exact absurd rfl hgo
  | awaited hpc => exact absurd rfl hgo
  | began hpc => exact absurd rfl hmutex
  | joined hpc hjoined =>
      have hchanging := h.changing (.inl (by rw [hpc]; nofun))
      have hidle := h.idle (by rw [hpc]; nofun)
      have hold := h.old (by rw [hpc]; nofun) (by rw [hpc]; nofun)
      obtain ⟨restored, hrestore, hrest⟩ := Option.bind_eq_some_iff.mp hjoined
      obtain ⟨after, hcommit, rfl⟩ := Option.map_eq_some_iff.mp hrest
      obtain ⟨hchanging', hidle', hvid⟩ := Node.commitChangeWo_restore hrestore hcommit
      exact Process.guarded_loopHead (hchanging' hchanging) (hidle'.trans hidle) (hold.mono hvid)
  | transferred hpc | refused hpc =>
      exact ⟨fun _ => h.changing (.inl (by rw [hpc]; nofun)),
        fun _ => h.idle (by rw [hpc]; nofun),
        fun _ _ => h.old (by rw [hpc]; nofun) (by rw [hpc]; nofun), nofun, nofun, nofun⟩
  | finished hpc =>
      have hold := h.old (by rw [hpc]; nofun) (by rw [hpc]; nofun)
      exact Process.guarded_synced (h.changing (.inl (by rw [hpc]; nofun)))
        (h.idle (by rw [hpc]; nofun)) (fun _ => hold) fun heq => hold.mono (by omega)
  | @failed m hpc =>
      have hne : p.node.pc ≠ .awaiting ∧ p.node.pc ≠ .resting := by
        rcases hpc with hpc | hpc <;> rw [hpc] <;> exact ⟨nofun, nofun⟩
      have hold := h.old hne.1 hne.2
      exact Process.guarded_synced (h.changing (.inl hne.2)) (h.idle hne.1) (fun _ => hold)
        fun heq => hold.mono (by omega)

end Recovery

section Handlers

variable {me : String} {signalled : Bool} {events : List Event} {p q : Process σ ρ}

/-- What only the recovery thread writes. -/
structure Node.SameQuery (n next : Node σ) : Prop where
  myaddr : next.myaddr = n.myaddr
  pc : next.pc = n.pc
  vidInsync : next.vidInsync = n.vidInsync
  lastMyvs : next.lastMyvs = n.lastMyvs

/-- What only the recovery thread, `commit_change` and the handlers of the synchronisation
    write. -/
structure Node.SameSync (n next : Node σ) : Prop extends Node.SameQuery n next where
  vidCommit : next.vidCommit = n.vidCommit
  insync : next.insync = n.insync
  inviewchange : next.inviewchange = n.inviewchange
  backups : next.backups = n.backups

theorem Node.SameSync.refl (n : Node σ) : n.SameSync n := ⟨⟨rfl, rfl, rfl, rfl⟩, rfl, rfl, rfl, rfl⟩

/-- Another thread takes a step that may execute a request. -/
theorem Process.Guarded.same {new : List Event} (h : p.Guarded me signalled events)
    (hsame : p.node.SameSync q.node)
    (hhalted : p.node.inviewchange = true → p.Halted → q.Halted ∧ new = [])
    (hnew : ∀ e ∈ new, e = .executed) : q.Guarded me signalled (events ++ new) := by
  have hbelow : ∀ {vid}, Below events vid → Below (events ++ new) vid := by
    intro vid hevents
    refine below_append.mpr ⟨hevents, ?_⟩
    intro e he v hv
    rw [hnew e he] at hv
    cases hv
  obtain ⟨⟨-, hpc, hvidInsync, -⟩, hvidCommit, hinsync, hinviewchange, hbackups⟩ := hsame
  constructor
  · rw [hpc, hinviewchange]
    exact h.changing
  · rw [hpc, hinsync]
    exact h.idle
  · rw [hpc, hvidCommit]
    exact fun hne hne' => hbelow (h.old hne hne')
  · rw [hpc, hvidCommit, hvidInsync]
    exact fun hq => ⟨(h.quiescing hq).1, hbelow (h.quiescing hq).2⟩
  · rw [hpc, hvidCommit, hvidInsync]
    intro hawaiting
    obtain ⟨hle, hp, earlier, view, during, hevents, hearlier, hcollects⟩ := h.awaiting hawaiting
    obtain ⟨hq, rfl⟩ := hhalted (h.changing (.inl (by rw [hawaiting]; nofun))) hp
    rw [List.append_nil]
    refine ⟨hle, hq, earlier, view, during, hevents, hearlier, ?_⟩
    constructor
    · rw [hvidInsync]
      exact hcollects.events
    · rw [hvidInsync, hbackups]
      exact hcollects.backups
  · rw [hpc, hvidCommit, hvidInsync]
    intro hresting
    obtain ⟨hle, hevents, hwoken⟩ := h.resting hresting
    exact ⟨hle, hbelow hevents, hwoken⟩

/-- `commit_change` passes a view on. -/
theorem Process.Guarded.commitChange {vid : Nat} {node : Node σ}
    (h : p.Guarded me signalled events) (hcommit : p.node.commitChange vid = some node) :
    ({ p with node := node } : Process σ ρ).Guarded me
      (signalled || decide (p.node.vidCommit < node.vidCommit)) events := by
  rw [Node.commitChange, Node.commitChangeWo_eq] at hcommit
  split_ifs at hcommit with hle
  · cases hcommit
    have hsame := h.same (q := { p with node := { p.node with
      changes := p.node.changes.erase vid } }) ⟨⟨rfl, rfl, rfl, rfl⟩, rfl, rfl, rfl, rfl⟩
      (fun _ hp => ⟨hp, rfl⟩) (List.forall_mem_nil _)
    simpa using hsame
  · obtain ⟨primary, -, rfl⟩ := Option.map_eq_some_iff.mp hcommit
    have hlt : p.node.vidCommit < vid := Nat.lt_of_not_le hle
    constructor
    · exact fun _ => rfl
    · exact h.idle
    · exact fun hne hne' => (h.old hne hne').mono hlt.le
    · exact fun hq => ⟨(h.quiescing hq).1.trans hlt.le, (h.quiescing hq).2⟩
    · intro hawaiting
      obtain ⟨hinsync, hp, earlier, view, during, hevents, hearlier, hcollects⟩ :=
        h.awaiting hawaiting
      exact ⟨hinsync.trans hlt.le, hp, earlier, view, during, hevents, hearlier, { hcollects with }⟩
    · intro hresting
      obtain ⟨hinsync, hevents, -⟩ := h.resting hresting
      exact ⟨hinsync.trans hlt.le, hevents, fun _ => hinsync.trans_lt hlt⟩

theorem Node.sameQuery_commitChange {n next : Node σ} {vid : Nat}
    (h : n.commitChange vid = some next) : n.SameQuery next := by
  rw [Node.commitChange, Node.commitChangeWo_eq] at h
  split_ifs at h
  · cases h
    exact ⟨rfl, rfl, rfl, rfl⟩
  · obtain ⟨primary, -, rfl⟩ := Option.map_eq_some_iff.mp h
    exact ⟨rfl, rfl, rfl, rfl⟩

/-- A handler accepts only while the recovery thread waits for the backups. -/
theorem Process.Guarded.awaiting_of_insync (h : p.Guarded me signalled events)
    (hinsync : p.node.insync = true) : p.node.pc = .awaiting := by
  by_contra hne
  rw [h.idle hne] at hinsync
  cases hinsync

theorem Process.Guarded.transferreq {m : String} (h : p.Guarded me signalled events)
    (hinsync : p.node.insync = true) :
    p.Guarded me signalled (events ++ [.transferred m p.node.vidInsync]) := by
  have hpc := h.awaiting_of_insync hinsync
  refine ⟨h.changing, h.idle, fun hne => absurd hpc hne, fun hq => ?_, fun _ => ?_, fun hr => ?_⟩
  · rw [hpc] at hq
    cases hq
  · obtain ⟨hle, hp, earlier, view, during, rfl, hearlier, hcollects⟩ := h.awaiting hpc
    refine ⟨hle, hp, earlier, view, during ++ [.transferred m p.node.vidInsync], by simp,
      hearlier, ?_⟩
    constructor
    · intro e he
      rcases List.mem_append.mp he with hold | hnew
      · exact hcollects.events e hold
      · exact ⟨m, .inl (List.mem_singleton.mp hnew)⟩
    · intro m' hm' hne
      exact (hcollects.backups m' hm' hne).imp_right
        fun hsub => hsub.trans (List.sublist_append_left _ _)
  · rw [hpc] at hr
    cases hr

theorem Process.Guarded.transferdonereq {m : String} {signalled' : Bool}
    (h : p.Guarded me signalled events) (hinsync : p.node.insync = true)
    (htransferred : .transferred m p.node.vidInsync ∈ events) :
    ({ p with node := { p.node with backups := p.node.backups.erase m } } : Process σ ρ).Guarded
      me signalled' (events ++ [.done m p.node.vidInsync]) := by
  have hpc := h.awaiting_of_insync hinsync
  refine ⟨fun _ => h.changing (.inl (by rw [hpc]; nofun)), h.idle, fun hne => absurd hpc hne,
    fun hq => ?_, fun _ => ?_, fun hr => ?_⟩
  · cases hpc.symm.trans hq
  · obtain ⟨hle, hp, earlier, view, during, rfl, hearlier, hcollects⟩ := h.awaiting hpc
    -- the answer to `transferreq` belongs to this synchronisation
    have hduring : .transferred m p.node.vidInsync ∈ during := by
      rcases List.mem_append.mp htransferred with hold | hnew
      · exact absurd (hearlier _ hold _ rfl) (lt_irrefl _)
      · exact (List.mem_cons.mp hnew).resolve_left nofun
    refine ⟨hle, hp, earlier, view, during ++ [.done m p.node.vidInsync], by simp, hearlier, ?_⟩
    constructor
    · intro e he
      rcases List.mem_append.mp he with hold | hnew
      · exact hcollects.events e hold
      · exact ⟨m, .inr (List.mem_singleton.mp hnew)⟩
    · intro m' hm' hne
      by_cases heq : m' = m
      · subst heq
        exact .inr ((List.singleton_sublist.mpr hduring).append (List.Sublist.refl [_]))
      · exact (hcollects.backups m' hm' hne).imp
          (fun hmem => (List.mem_erase_of_ne heq).mpr hmem)
          fun hsub => hsub.trans (List.sublist_append_left _ _)
  · cases hpc.symm.trans hr

end Handlers

/-! ### The cluster -/

/-- The RPC that the recovery thread waits for is the one it has sent, and a backup inside
    `statetransferdone` has been answered by the primary of its view. -/
structure Process.Asks (events : String → List Event) (me : String) (p : Process σ ρ) : Prop where
  name : p.node.myaddr = me
  waiting : ∀ rpc ∈ p.waiting, rpc.clt = me ∧ p.query = some (rpc.dst, rpc.query)
  finishing : ∀ m, p.node.pc = .finishing m → .transferred me p.node.vidInsync ∈ events m

structure Watched.Safe (s : Watched σ ρ) : Prop where
  unstarted : ∀ n, (s.cluster.replica n).epoch = 0 →
    (s.cluster.replica n).process = none ∧ s.events n = []
  process : ∀ n, ∀ p ∈ (s.cluster.replica n).process,
    p.Guarded n (s.signalled n) (s.events n) ∧ p.Asks s.events n
  rpcs : ∀ rpc ∈ s.cluster.rpcs, ∀ m vid, rpc.query = .transferdonereq m vid →
    .transferred m vid ∈ s.events rpc.dst
  replies : ∀ reply ∈ s.cluster.replies, ∀ last state,
    reply.result = some (.transferreq last state) → ∀ asked vid,
      reply.rpc.query = .transferreq asked vid →
        .transferred reply.rpc.clt vid ∈ s.events reply.rpc.dst
  barrier : ∀ n, Barrier n (s.events n)

section Cluster

variable {s : Watched σ ρ} {n m : String} {p : Process σ ρ} {e : Effect σ ρ}
  {next : Cluster σ ρ} {signal : Bool} {new : List Event}

@[simp] theorem Watched.events_record_self :
    (s.record n next signal new).events n = s.events n ++ new := by
  simp [Watched.record]

@[simp] theorem Watched.signalled_record_self :
    (s.record n next signal new).signalled n = signal := by
  simp [Watched.record]

theorem Watched.events_record_other (hm : m ≠ n) :
    (s.record n next signal new).events m = s.events m := by
  simp [Watched.record, hm]

theorem Watched.signalled_record_other (hm : m ≠ n) :
    (s.record n next signal new).signalled m = s.signalled m := by
  simp [Watched.record, hm]

/-- Events are only added. -/
theorem Watched.mem_record {event : Event} (h : event ∈ s.events m) :
    event ∈ (s.record n next signal new).events m := by
  by_cases hm : m = n
  · subst hm
    rw [Watched.events_record_self]
    exact List.mem_append_left _ h
  · rwa [Watched.events_record_other hm]

theorem Process.Asks.record (h : p.Asks s.events m) :
    p.Asks (s.record n next signal new).events m :=
  ⟨h.name, h.waiting, fun dst hpc => Watched.mem_record (h.finishing dst hpc)⟩

/-- The process of machine `n` takes a step. -/
theorem Watched.Safe.apply (h : s.Safe) (hp : (s.cluster.replica n).process = some p)
    (hself : e.process.Guarded n signal (s.events n ++ new))
    (hasks : e.process.Asks s.events n)
    (hsent : ∀ rpc ∈ e.sent, ∀ m vid, rpc.query = .transferdonereq m vid →
      .transferred m vid ∈ s.events rpc.dst)
    (hreplies : ∀ answer ∈ e.replies, ∀ last state, answer.2 = some (.transferreq last state) →
      ∀ asked vid, answer.1.query = .transferreq asked vid →
        answer.1.dst = n ∧ .transferred answer.1.clt vid ∈ s.events n ++ new)
    (hbarrier : Barrier n (s.events n ++ new)) :
    (s.record n (s.cluster.apply n e) signal new).Safe := by
  constructor
  · intro m hepoch
    change ((s.cluster.apply n e).replica m).epoch = 0 at hepoch
    change ((s.cluster.apply n e).replica m).process = none ∧ _
    by_cases hm : m = n
    · -- a machine with a process has started
      subst hm
      rw [Cluster.epoch_apply_self] at hepoch
      rw [(h.unstarted m (by omega)).1] at hp
      cases hp
    · rw [Cluster.replica_apply_other hm] at hepoch ⊢
      rw [Watched.events_record_other hm]
      exact h.unstarted m hepoch
  · intro m q hq
    change q ∈ ((s.cluster.apply n e).replica m).process at hq
    by_cases hm : m = n
    · subst hm
      rw [Cluster.process_apply_self] at hq
      cases hq
      rw [Watched.signalled_record_self, Watched.events_record_self]
      exact ⟨hself, hasks.record⟩
    · rw [Cluster.replica_apply_other hm] at hq
      rw [Watched.signalled_record_other hm, Watched.events_record_other hm]
      exact ⟨(h.process m q hq).1, (h.process m q hq).2.record⟩
  · intro rpc hrpc m vid hquery
    rcases List.mem_append.mp hrpc with hnew | hold
    · exact Watched.mem_record (hsent rpc hnew m vid hquery)
    · exact Watched.mem_record (h.rpcs rpc hold m vid hquery)
  · intro reply hreply last state hresult asked vid hquery
    rcases Cluster.mem_replies_apply hreply with ⟨answer, hanswer, rfl⟩ | hold
    · obtain ⟨hdst, hmem⟩ := hreplies answer hanswer last state hresult asked vid hquery
      rw [hdst, Watched.events_record_self]
      exact hmem
    · exact Watched.mem_record (h.replies reply hold last state hresult asked vid hquery)
  · intro m
    by_cases hm : m = n
    · subst hm
      rw [Watched.events_record_self]
      exact hbarrier
    · rw [Watched.events_record_other hm]
      exact h.barrier m

/-- What is observed when the process of machine `n` takes a step. -/
theorem Watched.observe_apply [DecidableEq ρ] {action : Cluster.Action σ ρ}
    (hn : action.machine = n) (hp : (s.cluster.replica n).process = some p) :
    s.observe action (next.apply n e) = s.record n (next.apply n e)
      (if p.resumes action then false else s.signalled n || p.signals e.process action)
      (p.events e.process action) := by
  subst hn
  simp only [Watched.observe, hp, Cluster.process_apply_self]

theorem Process.Asks.same {events : String → List Event} {q : Process σ ρ} (h : p.Asks events n)
    (hsame : p.node.SameQuery q.node) (hwaiting : q.waiting = p.waiting) : q.Asks events n := by
  have hquery : q.query = p.query := by
    unfold Process.query
    rw [hsame.pc, hsame.myaddr, hsame.lastMyvs, hsame.vidInsync]
  constructor
  · rw [hsame.myaddr]
    exact h.name
  · rw [hwaiting, hquery]
    exact h.waiting
  · rw [hsame.pc, hsame.vidInsync]
    exact h.finishing

/-- The recovery thread takes a step other than the one into `statetransferdone`. -/
theorem Process.Asks.recovery {events : String → List Event} {wakeup : Wakeup σ}
    {q : Process σ ρ} (h : p.Asks events n) (hq : p.recovery wakeup = some q)
    (hw : ∀ last state, wakeup ≠ .transferreq last state) : q.Asks events n := by
  obtain ⟨node, hnode, rfl⟩ := Option.map_eq_some_iff.mp hq
  have hcases := Node.recovery_cases hnode
  constructor
  · exact hcases.myaddr.trans h.name
  · nofun
  · intro m hpc
    exact absurd hpc (hcases.pc_ne_finishing hw)

/-- A step outside the synchronisation, which may execute a request. -/
theorem Watched.Safe.calm [DecidableEq ρ] {action : Cluster.Action σ ρ} (h : s.Safe)
    (hp : (s.cluster.replica n).process = some p) (hn : action.machine = n)
    (hresumes : p.resumes action = false) (hsignals : p.signals e.process action = false)
    (hnew : ∀ event ∈ p.events e.process action, event = .executed)
    (hsame : p.node.SameSync e.process.node) (hasks : e.process.Asks s.events n)
    (hhalted : p.node.inviewchange = true → p.Halted →
      e.process.Halted ∧ p.events e.process action = [])
    (hsent : ∀ rpc ∈ e.sent, ∀ m vid, rpc.query = .transferdonereq m vid →
      .transferred m vid ∈ s.events rpc.dst)
    (hreplies : ∀ answer ∈ e.replies, ∀ last state, answer.2 ≠ some (.transferreq last state)) :
    (s.observe action (s.cluster.apply n e)).Safe := by
  rw [Watched.observe_apply hn hp, hresumes, hsignals, Bool.or_false]
  apply h.apply hp
  · exact (h.process n p hp).1.same hsame hhalted hnew
  · exact hasks
  · exact hsent
  · intro answer hanswer last state hresult
    exact absurd hresult (hreplies answer hanswer last state)
  · apply (h.barrier n).append
    intro vid hmem
    cases hnew _ hmem

end Cluster

section Steps

variable {s : Watched σ ρ} {n : String} {p q : Process σ ρ} {e : Effect σ ρ}

theorem Node.sameSync_paxos {node next : Node σ} {op : Op} (h : node.paxos op = some next) :
    node.SameSync next := by
  obtain ⟨acc, hperform, rfl⟩ := Option.map_eq_some_iff.mp h
  have hme : acc.me = node.acc.me := Acceptor.me_perform hperform
  split_ifs <;> exact ⟨⟨hme, rfl, rfl, rfl⟩, rfl, rfl, rfl, rfl⟩

theorem Process.halted_clientInvoke {req : ρ} (h : p.clientInvoke req = some q) :
    q.node = p.node ∧ q.waiting = p.waiting ∧ (p.node.inviewchange = true → q.Halted) := by
  unfold Process.clientInvoke at h
  split_ifs at h <;> cases h <;> refine ⟨rfl, rfl, ?_⟩
  · exact fun _ => .inl rfl
  · intro hchanging
    contradiction

theorem Process.halted_forwarded [DecidableEq ρ] {rpc : Rpc ρ} {ok : Bool}
    (h : p.forwarded rpc ok = some q) :
    q.node = p.node ∧ q.waiting = p.waiting ∧ ¬ p.Halted := by
  unfold Process.forwarded at h
  split at h
  · rename_i hhandler
    split_ifs at h <;> cases h <;> refine ⟨rfl, rfl, ?_⟩ <;>
      · rintro (hnone | ⟨rpc, vs, req, hinvoked⟩)
        · rw [hhandler] at hnone
          cases hnone
        · rw [hhandler] at hinvoked
          cases hinvoked
  · cases h

/-- The thread with `invoke_mutex` leaves the synchronisation alone, and does not get past
    its test of `inviewchange` during a view change. -/
theorem Process.proceed_sync {execute : ρ → σ → σ × β} {xid : Nat}
    (h : p.proceed execute n xid = some e) :
    p.node.SameSync e.process.node ∧ e.process.waiting = p.waiting ∧
      (p.node.inviewchange = true → p.Halted → e.process.Halted ∧ p.executing = false) ∧
      ∀ rpc ∈ e.sent, ∀ m vid, rpc.query ≠ .transferdonereq m vid := by
  have hrun : ∀ handler, p.handler = some handler → (∀ rpc vs req, handler ≠ .invoked rpc vs req) →
      ¬ p.Halted := by
    rintro handler hhandler hne (hnone | ⟨rpc, vs, req, hinvoked⟩)
    · rw [hhandler] at hnone
      cases hnone
    · rw [hhandler, Option.some.injEq] at hinvoked
      exact hne rpc vs req hinvoked
  have hsame : p.node.SameSync p.node := .refl p.node
  have hexecuted : ∀ svc, p.node.SameSync { p.node with svc := svc } :=
    fun svc => ⟨⟨rfl, rfl, rfl, rfl⟩, rfl, rfl, rfl, rfl⟩
  rcases hhandler : p.handler with _ | handler
  · simp only [Process.proceed, hhandler, reduceCtorEq] at h
  cases handler with
  | clientEntered req | clientAdmitted req =>
      simp only [Process.proceed, hhandler, Option.some.injEq] at h
      subst h
      exact ⟨hsame, rfl, fun _ hhalted => absurd hhalted (hrun _ hhandler (by simp)), by simp⟩
  | forwarding req todo call =>
      have hhalted := hrun _ hhandler (by simp)
      rcases todo with _ | ⟨t, rest⟩
      · simp only [Process.proceed, hhandler, Option.some.injEq] at h
        subst h
        exact ⟨hexecuted _, rfl, fun _ h => absurd h hhalted, by simp⟩
      · rcases call with _ | rpc
        · simp only [Process.proceed, hhandler] at h
          split_ifs at h <;> cases h
          · exact ⟨hsame, rfl, fun _ h => absurd h hhalted, by simp⟩
          · refine ⟨hsame, rfl, fun _ h => absurd h hhalted, ?_⟩
            intro rpc hrpc m vid
            rw [List.mem_singleton.mp hrpc]
            simp
        · simp only [Process.proceed, hhandler, reduceCtorEq] at h
  | invoked rpc vs req =>
      simp only [Process.proceed, hhandler] at h
      split_ifs at h <;> cases h
      · exact ⟨hsame, rfl, fun _ _ => ⟨.inl rfl, by simp [Process.executing, hhandler]⟩,
          by simp [Process.refuse]⟩
      · exact ⟨hsame, rfl, fun hchanging => by contradiction, by simp⟩
  | invokeEntered rpc vs req | invokeAdmitted rpc vs req =>
      have hhalted := hrun _ hhandler (by simp)
      simp only [Process.proceed, hhandler] at h
      split_ifs at h <;> cases h <;>
        exact ⟨hsame, rfl, fun _ h => absurd h hhalted, by simp [Process.refuse]⟩
  | invokeAccepted rpc req =>
      simp only [Process.proceed, hhandler, Option.some.injEq] at h
      subst h
      exact ⟨hexecuted _, rfl, fun _ hhalted => absurd hhalted (hrun _ hhandler (by simp)), by simp⟩

theorem Process.added_sync [DecidableEq ρ] {rpc : Rpc ρ} (h : p.added rpc = some e) :
    e.process.node = p.node ∧ e.process.waiting = p.waiting ∧ e.process.handler = p.handler ∧
      e.sent = [] := by
  unfold Process.added at h
  split at h
  · split_ifs at h <;> cases h <;> exact ⟨rfl, rfl, rfl, rfl⟩
  · cases h

/-- The RPC of the recovery thread leaves. -/
theorem Process.ask_sync {xid : Nat} (hasks : p.Asks s.events n) (h : p.ask n xid = some e) :
    e.process.node = p.node ∧ e.process.handler = p.handler ∧ e.process.Asks s.events n ∧
      e.replies = [] ∧ ∀ rpc ∈ e.sent, ∀ m vid, rpc.query = .transferdonereq m vid →
        .transferred m vid ∈ s.events rpc.dst := by
  unfold Process.ask at h
  split_ifs at h
  obtain ⟨⟨dst, query⟩, hquery, rfl⟩ := Option.map_eq_some_iff.mp h
  refine ⟨rfl, rfl, ⟨hasks.name, ?_, hasks.finishing⟩, rfl, ?_⟩
  · intro rpc hrpc
    cases hrpc
    exact ⟨rfl, hquery⟩
  · intro rpc hrpc m vid heq
    rw [List.mem_singleton.mp hrpc] at heq ⊢
    have hdone : query = .transferdonereq m vid := heq
    unfold Process.query at hquery
    split at hquery <;> cases hquery <;> cases hdone
    rename_i hpc
    rw [hasks.name]
    exact hasks.finishing _ hpc

theorem Process.transferdonereq_some {m : String} {vid : Nat} {node : Node σ}
    (h : p.node.transferdonereq m vid = some node) :
    p.node.insync = true ∧ vid = p.node.vidInsync ∧
      node = { p.node with backups := p.node.backups.erase m } := by
  unfold Node.transferdonereq at h
  split_ifs at h with hbusy
  cases h
  simp only [not_or, Bool.not_eq_false, ne_eq, not_not] at hbusy
  exact ⟨hbusy.1, hbusy.2, rfl⟩

theorem Process.transferreq_some {last : Viewstamp} {vid : Nat} {r : Viewstamp × Option σ}
    (h : p.node.transferreq last vid = some r) :
    p.node.insync = true ∧ vid = p.node.vidInsync := by
  unfold Node.transferreq at h
  split_ifs at h with hbusy <;>
    · simp only [not_or, Bool.not_eq_false, ne_eq, not_not] at hbusy
      exact hbusy

/-- The three kinds of answers to an RPC, with what is observed of each. -/
inductive Process.Handled (p : Process σ ρ) (rpc : Rpc ρ) (e : Effect σ ρ) : Prop
  /-- Nothing that the barrier depends on changes. -/
  | calm (hevents : p.events e.process (.handle rpc) = [])
      (hsignals : p.signals e.process (.handle rpc) = false) (hnode : e.process.node = p.node)
      (hwaiting : e.process.waiting = p.waiting) (hhalted : p.Halted → e.process.Halted)
      (hreplies : ∀ answer ∈ e.replies, ∀ last state,
        answer.2 ≠ some (.transferreq last state)) : Handled p rpc e
  | transferred {last : Viewstamp} (hquery : rpc.query = .transferreq last p.node.vidInsync)
      (hinsync : p.node.insync = true) (hprocess : e.process = p)
      (hevents : p.events p (.handle rpc) = [.transferred rpc.clt p.node.vidInsync])
      (hreplies : ∀ answer ∈ e.replies, answer.1 = rpc) : Handled p rpc e
  | done {m : String} (hquery : rpc.query = .transferdonereq m p.node.vidInsync)
      (hinsync : p.node.insync = true)
      (hprocess : e.process =
        { p with node := { p.node with backups := p.node.backups.erase m } })
      (hevents : p.events e.process (.handle rpc) = [.done m p.node.vidInsync])
      (hreplies : ∀ answer ∈ e.replies, answer.1 = rpc) : Handled p rpc e

theorem Process.handle_sync {rpc : Rpc ρ} (h : p.handle rpc = some e) :
    e.sent = [] ∧ p.Handled rpc e := by
  cases hquery : rpc.query with
  | joinreq m =>
      simp only [Process.handle, hquery] at h
      split_ifs at h <;> cases h <;>
        exact ⟨rfl, .calm (by simp only [Process.events, hquery])
          (by simp only [Process.signals, hquery]) rfl rfl id (by simp)⟩
  | transferreq last vid =>
      simp only [Process.handle, hquery, Option.some.injEq] at h
      subst h
      refine ⟨rfl, ?_⟩
      rcases hr : p.node.transferreq last vid with _ | r
      · exact .calm (by simp [Process.events, hquery, hr]) (by simp only [Process.signals, hquery])
          rfl rfl id (by simp)
      · obtain ⟨hinsync, rfl⟩ := Process.transferreq_some hr
        exact .transferred hquery hinsync rfl (by simp [Process.events, hquery, hr]) (by simp)
  | transferdonereq m vid =>
      simp only [Process.handle, hquery] at h
      rcases hdone : p.node.transferdonereq m vid with _ | node
      · simp only [hdone, Option.some.injEq] at h
        subst h
        exact ⟨rfl, .calm (by simp [Process.events, hquery, hdone])
          (by simp [Process.signals, hquery, hdone]) rfl rfl id (by simp)⟩
      · simp only [hdone, Option.some.injEq] at h
        subst h
        obtain ⟨hinsync, rfl, rfl⟩ := Process.transferdonereq_some hdone
        exact ⟨rfl, .done hquery hinsync rfl (by simp [Process.events, hquery, hdone]) (by simp)⟩
  | invoke vs req =>
      simp only [Process.handle, hquery] at h
      split_ifs at h
      cases h
      exact ⟨rfl, .calm (by simp only [Process.events, hquery])
        (by simp only [Process.signals, hquery]) rfl rfl (fun _ => .inr ⟨rpc, vs, req, rfl⟩)
        (by simp)⟩

variable [DecidableEq ρ]

theorem Watched.Safe.handle {rpc : Rpc ρ} (h : s.Safe) (hrpc : rpc ∈ s.cluster.rpcs)
    (hp : (s.cluster.replica rpc.dst).process = some p) (hhandle : p.handle rpc = some e) :
    (s.observe (.handle rpc)
      (Cluster.apply { s.cluster with rpcs := s.cluster.rpcs.erase rpc } rpc.dst e)).Safe := by
  have herased : Watched.Safe
      { s with cluster := { s.cluster with rpcs := s.cluster.rpcs.erase rpc } } :=
    ⟨h.unstarted, h.process, fun other hother => h.rpcs other (List.mem_of_mem_erase hother),
      h.replies, h.barrier⟩
  obtain ⟨hguarded, hasks⟩ := h.process _ p hp
  obtain ⟨hsent, hhandled⟩ := Process.handle_sync hhandle
  have hnone : ∀ rpc ∈ e.sent, ∀ m vid, rpc.query = .transferdonereq m vid →
      .transferred m vid ∈ s.events rpc.dst := by
    rw [hsent]
    nofun
  cases hhandled with
  | calm hevents hsignals hnode hwaiting hhalted hreplies =>
      have hsame : p.node.SameSync e.process.node := hnode ▸ .refl p.node
      apply herased.calm hp rfl rfl hsignals
      · rw [hevents]
        nofun
      · exact hsame
      · exact hasks.same hsame.toSameQuery hwaiting
      · exact fun _ hp => ⟨hhalted hp, hevents⟩
      · exact hnone
      · exact hreplies
  | transferred hquery hinsync hprocess hevents hreplies =>
      rw [Watched.observe_apply (n := rpc.dst) rfl hp, hprocess, hevents]
      simp only [Process.resumes, Process.signals, hquery, Bool.or_false, Bool.false_eq_true,
        if_false]
      apply herased.apply hp
      · rw [hprocess]
        exact hguarded.transferreq hinsync
      · rw [hprocess]
        exact hasks
      · exact hnone
      · intro answer hanswer _ _ _ asked vid hasked
        rw [hreplies answer hanswer, hquery] at hasked
        cases hasked
        rw [hreplies answer hanswer]
        exact ⟨rfl, List.mem_append_right _ (List.mem_singleton_self _)⟩
      · exact (h.barrier rpc.dst).append (by simp)
  | done hquery hinsync hprocess hevents hreplies =>
      rw [Watched.observe_apply (n := rpc.dst) rfl hp, hevents]
      simp only [Process.resumes, Bool.false_eq_true, if_false]
      apply herased.apply hp
      · rw [hprocess]
        exact hguarded.transferdonereq hinsync (h.rpcs rpc hrpc _ _ hquery)
      · rw [hprocess]
        exact hasks.same ⟨rfl, rfl, rfl, rfl⟩ rfl
      · exact hnone
      · intro answer hanswer _ _ _ asked vid hasked
        rw [hreplies answer hanswer, hquery] at hasked
        cases hasked
      · exact (h.barrier rpc.dst).append (by simp)

/-- A step of the recovery thread, after which a condition wait begins anew. -/
theorem Watched.Safe.resume {action : Cluster.Action σ ρ} (h : s.Safe)
    (hp : (s.cluster.replica n).process = some p) (hn : action.machine = n)
    (hresumes : p.resumes action = true)
    (hself : q.Guarded n false (s.events n ++ p.events q action))
    (hbarrier : Barrier n (s.events n ++ p.events q action)) (hasks : q.Asks s.events n) :
    (s.observe action (s.cluster.apply n { process := q })).Safe := by
  rw [Watched.observe_apply hn hp, hresumes, if_pos rfl]
  apply h.apply hp
  · exact hself
  · exact hasks
  · nofun
  · nofun
  · exact hbarrier

/-- The recovery thread has the answer it waits for. -/
theorem Watched.Safe.answer {reply : Reply σ ρ} {junk epoch : Nat} (h : s.Safe)
    (hreply : reply ∈ s.cluster.replies)
    (hp : (s.cluster.replica reply.rpc.clt).process = some p) (hwaiting : p.waiting = some reply.rpc)
    (hq : p.answer reply junk epoch = some q) :
    (s.observe (.receive reply junk)
      (s.cluster.apply reply.rpc.clt { process := q })).Safe := by
  obtain ⟨hguarded, hasks⟩ := h.process _ p hp
  have hquery := (hasks.waiting _ hwaiting).2
  have hstep : q.Guarded reply.rpc.clt false (s.events reply.rpc.clt) ∧
      q.Asks s.events reply.rpc.clt := by
    rcases hresult : reply.result with _ | result
    · simp only [Process.answer, hresult] at hq
      exact ⟨hguarded.recovery hq (by simp) (by simp), hasks.recovery hq (by simp)⟩
    cases result with
    | joinreq log =>
        simp only [Process.answer, hresult] at hq
        exact ⟨hguarded.recovery hq (by simp) (by simp), hasks.recovery hq (by simp)⟩
    | transferreq last state =>
        simp only [Process.answer, hresult] at hq
        obtain ⟨next, hnext, rfl⟩ := Option.map_eq_some_iff.mp hq
        have hrecovered := hguarded.recovery hnext (by simp) (by simp)
        obtain ⟨node, hnode, rfl⟩ := Option.map_eq_some_iff.mp hnext
        cases Node.recovery_cases hnode with
        | transferred hpc =>
            -- the answer came from the machine that the backup goes on with
            simp only [Process.query, hpc, Option.some.injEq, Prod.mk.injEq] at hquery
            obtain ⟨hdst, hasked⟩ := hquery
            have hmem := h.replies reply hreply last state hresult _ _ hasked.symm
            refine ⟨{ hrecovered with }, hasks.name, by simp, ?_⟩
            intro m hm
            cases hm
            rw [hdst]
            exact hmem
    | transferdonereq =>
        simp only [Process.answer, hresult] at hq
        obtain ⟨next, hnext, rfl⟩ := Option.map_eq_some_iff.mp hq
        have hnext' := hasks.recovery hnext (by simp)
        exact ⟨{ hguarded.recovery hnext (by simp) (by simp) with }, hnext'.name, hnext'.waiting,
          hnext'.finishing⟩
    | invoke => simp only [Process.answer, hresult, reduceCtorEq] at hq
  apply h.resume hp rfl
  · simp [Process.resumes, hwaiting]
  · simpa [Process.events] using hstep.1
  · simpa [Process.events] using h.barrier reply.rpc.clt
  · exact hstep.2

/-- What a new process looks like to the barrier. -/
theorem Node.new_sync {first me : String} {svc : σ} {file : List Char} {junk : Nat} {node : Node σ}
    (h : Node.new first me svc file junk = some node) :
    node.pc = .created ∧ node.inviewchange = true ∧ node.insync = false := by
  obtain ⟨booted, hboot, hnew⟩ := Option.bind_eq_some_iff.mp h
  obtain ⟨acc, -, rfl⟩ := Option.map_eq_some_iff.mp hboot
  unfold Node.commitChange Node.commitChangeWo Node.reconstruct at hnew
  split_ifs at hnew
  all_goals first
    | (cases hnew; exact ⟨rfl, rfl, rfl⟩)
    | (obtain ⟨primary, -, rfl⟩ := Option.map_eq_some_iff.mp hnew; exact ⟨rfl, rfl, rfl⟩)

theorem Watched.Safe.start {first : String} {svc : σ} {junk : Nat} {t : Cluster σ ρ} (h : s.Safe)
    (hepoch : (s.cluster.replica n).epoch = 0)
    (hstart : s.cluster.start n first svc junk = some t) :
    (s.observe (.start n first junk) t).Safe := by
  obtain ⟨hprocess, hevents⟩ := h.unstarted n hepoch
  unfold Cluster.start at hstart
  split_ifs at hstart
  obtain ⟨node, hnode, rfl⟩ := Option.map_eq_some_iff.mp hstart
  obtain ⟨hpc, hchanging, hidle⟩ := Node.new_sync hnode
  simp only [Watched.observe, Cluster.Action.machine, hprocess]
  refine ⟨fun m hm => ?_, fun m q hq => ?_, h.rpcs, h.replies, h.barrier⟩
  · by_cases heq : m = n
    · subst heq
      simp at hm
    · simp only [Function.update_of_ne heq] at hm ⊢
      exact h.unstarted m hm
  · by_cases heq : m = n
    · subst heq
      simp only [Function.update_self, Option.mem_some] at hq
      subst hq
      have hne : node.pc ≠ .awaiting ∧ node.pc ≠ .resting ∧ node.pc ≠ .quiescing := by
        rw [hpc]
        exact ⟨nofun, nofun, nofun⟩
      rw [hevents]
      refine ⟨⟨fun _ => hchanging, fun _ => hidle, fun _ _ => nofun,
        fun hq => absurd hq hne.2.2, fun hq => absurd hq hne.1, fun hq => absurd hq hne.2.1⟩,
        Node.myaddr_new hnode, nofun, ?_⟩
      intro m hm
      rw [Process.start, hpc] at hm
      cases hm
    · simp only [Function.update_of_ne heq] at hq
      exact h.process m q hq

theorem Watched.Safe.crash {t : Cluster σ ρ} (h : s.Safe) (hcrash : s.cluster.crash n = some t) :
    (s.observe (.crash n) t).Safe := by
  obtain ⟨p, hp, rfl⟩ := Option.map_eq_some_iff.mp hcrash
  simp only [Watched.observe, Cluster.Action.machine, hp, Function.update_self]
  refine ⟨fun m hm => ?_, fun m q hq => ?_, h.rpcs, h.replies, h.barrier⟩
  · by_cases heq : m = n
    · subst heq
      simp at hm
    · simp only [Function.update_of_ne heq] at hm ⊢
      exact h.unstarted m hm
  · by_cases heq : m = n
    · subst heq
      simp at hq
    · simp only [Function.update_of_ne heq] at hq
      exact h.process m q hq

/-- A step of another thread that leaves the node alone. -/
theorem Watched.Safe.calm_process {action : Cluster.Action σ ρ} (h : s.Safe)
    (hp : (s.cluster.replica n).process = some p) (hn : action.machine = n)
    (hresumes : p.resumes action = false) (hsignals : p.signals q action = false)
    (hevents : p.events q action = []) (hsame : p.node.SameSync q.node)
    (hwaiting : q.waiting = p.waiting)
    (hhalted : p.node.inviewchange = true → p.Halted → q.Halted) :
    (s.observe action (s.cluster.apply n { process := q })).Safe := by
  apply h.calm hp hn hresumes hsignals
  · rw [hevents]
    nofun
  · exact hsame
  · exact (h.process n p hp).2.same hsame.toSameQuery hwaiting
  · exact fun hchanging hp => ⟨hhalted hchanging hp, hevents⟩
  · nofun
  · nofun

variable [DecidableEq σ] {execute : ρ → σ → σ × β} {svc : σ}

theorem Watched.Safe.step {action : Cluster.Action σ ρ} {t : Cluster σ ρ} (h : s.Safe)
    (hallows : s.allows action = true) (hstep : s.cluster.step execute svc action = some t) :
    (s.observe action t).Safe := by
  cases action with
  | start n first junk => exact h.start (by simpa [Watched.allows] using hallows) hstep
  | crash n => exact h.crash hstep
  | paxos n op =>
      obtain ⟨p, q, hp, hq, rfl⟩ := Cluster.onNode_some hstep
      obtain ⟨node, hnode, rfl⟩ := Option.map_eq_some_iff.mp hq
      exact h.calm_process hp rfl rfl rfl rfl (Node.sameSync_paxos hnode) rfl fun _ hp => hp
  | paxosCommit n upcall =>
      obtain ⟨p, q, hp, hq, rfl⟩ := Cluster.onNode_some hstep
      split_ifs at hq
      cases hq
      exact h.calm_process hp rfl rfl rfl rfl ⟨⟨rfl, rfl, rfl, rfl⟩, rfl, rfl, rfl, rfl⟩ rfl
        fun _ hp => hp
  | commitChange n vid =>
      obtain ⟨p, q, hp, hq, rfl⟩ := Cluster.onNode_some hstep
      split_ifs at hq
      obtain ⟨node, hnode, rfl⟩ := Option.map_eq_some_iff.mp hq
      obtain ⟨hguarded, hasks⟩ := h.process n p hp
      rw [Watched.observe_apply (n := n) rfl hp]
      simp only [Process.resumes, Process.events, Process.signals, Bool.false_eq_true, if_false]
      apply h.apply hp
      · rw [List.append_nil]
        exact hguarded.commitChange hnode
      · exact hasks.same (Node.sameQuery_commitChange hnode) rfl
      · nofun
      · nofun
      · rw [List.append_nil]
        exact h.barrier n
  | wake n =>
      obtain ⟨p, q, hp, hq, rfl⟩ := Cluster.onNode_some hstep
      obtain ⟨hguarded, hasks⟩ := h.process n p hp
      have hwoken : p.suspended = true → s.signalled n = true := by
        intro hsuspended
        simpa [Watched.allows, hp, hsuspended] using hallows
      obtain ⟨hself, hbarrier⟩ := hguarded.wake (n := n) (h.barrier n) hwoken hq
      exact h.resume hp rfl rfl hself hbarrier (hasks.recovery hq nofun)
  | quiesce n =>
      obtain ⟨p, q, hp, hq, rfl⟩ := Cluster.onNode_some hstep
      obtain ⟨hguarded, hasks⟩ := h.process n p hp
      obtain ⟨hself, hbarrier⟩ := hguarded.quiesce (n := n) hasks.name (h.barrier n) hq
      refine h.resume hp rfl rfl hself hbarrier ?_
      unfold Process.quiesce at hq
      split_ifs at hq
      exact hasks.recovery hq nofun
  | ask n =>
      obtain ⟨p, e, hp, hask, rfl⟩ := Cluster.onProcess_some hstep
      obtain ⟨hnode, hhandler, hasks, hreplies, hsent⟩ :=
        Process.ask_sync (h.process n p hp).2 hask
      apply h.calm hp rfl rfl rfl (List.forall_mem_nil _)
      · rw [hnode]
        exact .refl p.node
      · exact hasks
      · intro _ hhalted
        exact ⟨by rwa [Process.Halted, hhandler], rfl⟩
      · exact hsent
      · rw [hreplies]
        nofun
  | giveUp n =>
      obtain ⟨p, q, hp, hq, rfl⟩ := Cluster.onNode_some hstep
      obtain ⟨hguarded, hasks⟩ := h.process n p hp
      apply h.resume hp rfl rfl
      · simpa [Process.events] using hguarded.recovery hq nofun nofun
      · simpa [Process.events] using h.barrier n
      · exact hasks.recovery hq nofun
  | clientInvoke n req =>
      obtain ⟨p, q, hp, hq, rfl⟩ := Cluster.onNode_some hstep
      obtain ⟨hnode, hwaiting, hhalted⟩ := Process.halted_clientInvoke hq
      exact h.calm_process hp rfl rfl rfl rfl (hnode ▸ .refl p.node) hwaiting
        fun hchanging _ => hhalted hchanging
  | proceed n =>
      obtain ⟨p, e, hp, hproceed, rfl⟩ := Cluster.onProcess_some hstep
      obtain ⟨hsame, hwaiting, hhalted, hsent⟩ := Process.proceed_sync hproceed
      have hevents : p.executing = false → p.events e.process (.proceed n) = [] := by
        intro hidle
        simp [Process.events, hidle]
      apply h.calm hp rfl rfl rfl
      · intro event hmem
        change event ∈ if p.executing then [.executed] else [] at hmem
        split_ifs at hmem
        · exact List.mem_singleton.mp hmem
        · cases hmem
      · exact hsame
      · exact (h.process n p hp).2.same hsame.toSameQuery hwaiting
      · intro hchanging hp
        exact ⟨(hhalted hchanging hp).1, hevents (hhalted hchanging hp).2⟩
      · intro rpc hrpc m vid hquery
        exact absurd hquery (hsent rpc hrpc m vid)
      · exact (Process.proceed_cases hproceed).1.replies
  | expire n rpc =>
      obtain ⟨p, q, hp, hq, rfl⟩ := Cluster.onNode_some hstep
      obtain ⟨hnode, hwaiting, hhalted⟩ := Process.halted_forwarded hq
      exact h.calm_process hp rfl rfl rfl rfl (hnode ▸ .refl p.node) hwaiting
        fun _ hp => absurd hp hhalted
  | added n rpc =>
      obtain ⟨p, e, hp, hadded, rfl⟩ := Cluster.onProcess_some hstep
      obtain ⟨hnode, hwaiting, hhandler, hsent⟩ := Process.added_sync hadded
      have hsame : p.node.SameSync e.process.node := hnode ▸ .refl p.node
      obtain ⟨hplain, -⟩ : e.Plain n 0 ∧ p.Quiet e.process ∧ e.executed = 0 :=
        Process.added_cases hadded
      apply h.calm hp rfl rfl rfl (List.forall_mem_nil _)
      · exact hsame
      · exact (h.process n p hp).2.same hsame.toSameQuery hwaiting
      · intro _ hhalted
        exact ⟨by rwa [Process.Halted, hhandler], rfl⟩
      · rw [hsent]
        nofun
      · exact hplain.replies
  | handle rpc =>
      simp only [Cluster.step] at hstep
      split_ifs at hstep with hrpc
      obtain ⟨p, e, hp, hhandle, rfl⟩ := Cluster.onProcess_some hstep
      exact h.handle hrpc hp hhandle
  | receive reply junk =>
      simp only [Cluster.step] at hstep
      split_ifs at hstep with hreply
      obtain ⟨p, q, hp, hq, rfl⟩ := Cluster.onNode_some hstep
      split_ifs at hq with hwaiting
      · exact h.answer hreply hp hwaiting hq
      · obtain ⟨hnode, hsame, hhalted⟩ := Process.halted_forwarded hq
        exact h.calm_process hp rfl (by simp [Process.resumes, hwaiting]) rfl rfl
          (hnode ▸ .refl p.node) hsame fun _ hp => absurd hp hhalted

theorem Watched.safe_initial (h : (watched execute svc).init s) : s.Safe := by
  obtain ⟨files, rfl⟩ := h
  constructor
  · exact fun _ _ => ⟨rfl, rfl⟩
  · intro n p hp
    exact absurd hp (Option.not_mem_none p)
  · exact List.forall_mem_nil _
  · exact List.forall_mem_nil _
  · intro n before after vid heq
    simp at heq

/-- **The view-change barrier.**  Whenever the recovery thread of a primary clears
    `inviewchange` for a view, every other member of the view has had its `transferreq` and
    then its `transferdonereq` for this view accepted since `insync` was set, and the
    primary has executed no request since then. -/
theorem barrier_of_reach (h : (watched execute svc).Reach anyStep s) (n : String) :
    Barrier n (s.events n) := by
  have hsafe : s.Safe := by
    apply h.invariant (P := Watched.Safe)
    · exact fun start hinit => Watched.safe_initial hinit
    · intro state next action hstate _ hstep
      change (if state.allows action then _ else none) = some next at hstep
      split_ifs at hstep with hallows
      obtain ⟨t, ht, rfl⟩ := Option.map_eq_some_iff.mp hstep
      exact hstate.step hallows ht
  exact hsafe.barrier n

end Steps

/-- Machine `b` joins `a` and synchronises with it; `a` is woken by the `transferdonereq`
    and serves view 2. -/
theorem barrier_second_joins :
    ∃ s : Watched Nat Nat, (watched addUp 0).Reach anyStep s ∧
      s.events "a" = [.began 1 ["a"], .cleared 1, .began 2 ["a", "b"], .transferred "b" 2,
        .done "b" 2, .cleared 2] ∧ Barrier "a" (s.events "a") := by
  obtain ⟨s, hreach, hevents⟩ : ∃ s : Watched Nat Nat, (watched addUp 0).Reach anyStep s ∧
      s.events "a" = [.began 1 ["a"], .cleared 1, .began 2 ["a", "b"], .transferred "b" 2,
        .done "b" 2, .cleared 2] :=
    System.Reach.of_exec (fun _ _ => true) (startFirst ++ secondJoins 1 ++ [.wake "a"])
      ⟨fun _ => [], rfl⟩ (fun _ _ _ => trivial) (by decide +kernel)
  exact ⟨s, hreach, hevents, barrier_of_reach hreach "a"⟩

end DistributedLab.Rsm
