import DistributedLab.PaxosChronicle
import DistributedLab.RsmNode

/-!
# A cluster of config modules

The config modules of all nodes over the acceptors and proposers of `PaxosCluster`,
with the part of `rsm.cc` that feeds them: `commit_change`, `joinreq` and `join`.

A thread inside `class config` gives up `cfg_mutex` before it calls the proposer, the
RSM or another node, and `commit_wo` gives up `pxs_mutex` before it calls
`paxos_commit`.  What such a thread carries across the gap is part of the state: an
instance on its way to `paxos_commit`, a view on its way to `commit_change`, a joiner
that was not a member when `joinreq` looked, the arguments that `add` or `remove_wo`
took for `run`, and the round of heartbeats in progress.  The recovery thread keeps
`rsm_mutex` from the moment `join` restores a log until it has called `commit_change_wo`,
but the acceptor does not take that mutex.

`proposer::run` holds the proposer's `pxs_mutex` until it returns, so a second `run`
and `isrunning` wait for the first one to end.  A heartbeat may be answered late or
not at all, so `doheartbeat` may come back with any result.
-/

namespace DistributedLab.Config

open Transition TextStream Paxos

/-! ### One config module -/

/-- The arguments of a `run` call. -/
structure Proposal where
  inst : Nat
  curNodes : List String
  newv : String
deriving DecidableEq, Repr

/-- One iteration of the heartbeater: the view it started in and the nodes still to ping. -/
structure Round where
  vid : Nat
  todo : List String
deriving DecidableEq, Repr

/-- `class config` on one node, the threads inside it, and what `joinreq` reads of the RSM. -/
structure Peer extends Rsm.ViewState where
  /-- Arguments with which `add` or `remove_wo` is about to call `run`. -/
  proposals : List Proposal
  /-- Joiners that were no members of the view `joinreq` has cached. -/
  joins : List (String × Nat)
  round : Option Round
  /-- `join` has restored a log and `commit_change_wo` has not been called for it. -/
  joined : Bool

def Peer.blank (first : String) : Peer where
  myvid := 0
  mems := []
  upcalls := []
  changes := []
  proposals := []
  joins := []
  round := none
  joined := false
  vidCommit := 0
  primary := first

def Peer.reconstruct (c : Peer) (acc : Acceptor) : Peer :=
  { c with toViewState := c.toViewState.reconstruct acc }

def Peer.decided (c : Peer) (acc : Acceptor) : Peer :=
  { c with toViewState := c.toViewState.decided acc }

def Peer.paxosCommit (c : Peer) (upcall : Nat × String) : Peer :=
  { c with toViewState := c.toViewState.paxosCommit upcall }

def Peer.commitChangeWo (c : Peer) (acc : Acceptor) (vid : Nat) : Option Peer :=
  if vid ≤ c.vidCommit then some c
  else (c.toViewState.enter acc vid).map fun views => { c with toViewState := views }

theorem Peer.commitChangeWo_eq (c : Peer) (acc : Acceptor) (vid : Nat) :
    c.commitChangeWo acc vid =
      if vid ≤ c.vidCommit then some c
      else
        (Rsm.setPrimary (getView acc) c.primary vid).map fun primary =>
          { c with vidCommit := vid, primary := primary } := by
  rw [Peer.commitChangeWo, Rsm.ViewState.enter, Option.map_map]
  rfl

theorem Peer.reconstruct_eq (c : Peer) (acc : Acceptor) : c.reconstruct acc =
    if acc.instanceH > 0 then
      { c with myvid := acc.instanceH, mems := getView acc acc.instanceH }
    else c := by
  unfold Peer.reconstruct Rsm.ViewState.reconstruct
  split <;> rfl

/-- `myvid + 1` as an `unsigned`. -/
def Peer.nextvid (c : Peer) : Nat := (c.myvid + 1) % unsignedBound

/-- `config::add`, up to the call of `run`. -/
def Peer.add (c : Peer) (newM : String) (vid : Nat) : Peer :=
  let next := { c with joins := c.joins.erase (newM, vid) }
  if vid ≠ c.myvid then next
  else
    { next with
      proposals := ⟨c.nextvid, c.mems, value (addMember c.mems newM)⟩ :: c.proposals }

/-- `config::remove_wo`, up to the call of `run`. -/
def Peer.removeWo (c : Peer) (m : String) : Peer :=
  { c with proposals := ⟨c.nextvid, c.mems, value (removeMember c.mems m)⟩ :: c.proposals }

/-- The smallest name among `me` and `cmems`. -/
def smallest (me : String) (cmems : List String) : String :=
  cmems.foldl (fun m member => if m > member then member else m) me

/-- The nodes that the heartbeater pings: all others when `me` is the smallest, else the
    smallest. -/
def targets (me : String) (cmems : List String) : List String :=
  if smallest me cmems = me then cmems.filter fun member => member ≠ me
  else [smallest me cmems]

/-- The heartbeater wakes up. -/
def Peer.wake (c : Peer) (acc : Acceptor) (me : String) : Peer :=
  let cmems := getView acc c.myvid
  if isamember me cmems then { c with round := some ⟨c.myvid, targets me cmems⟩ } else c

/-- `doheartbeat` of the next node has failed: the loop is left, and the node removed if the
    view is still the same. -/
def Peer.failed (c : Peer) (vid : Nat) (m : String) : Peer :=
  let next := { c with round := none }
  if vid = c.myvid then next.removeWo m else next

/-- `config::heartbeat` with the result of `isrunning`: whether it answers OK, `none` when its
    `VERIFY` fails. -/
def Peer.heartbeat (c : Peer) (isrunning : Bool) (vid : Nat) : Option Bool :=
  if vid = c.myvid then some true
  else if isrunning then
    if vid = (c.myvid + 1) % unsignedBound ∨ (vid + 1) % unsignedBound = c.myvid then some true
    else none
  else some false

/-- `proposer::isrunning`: `stable` is read under `pxs_mutex`, which `run` holds while it is in
    progress; `none` while the call waits for it. -/
def isrunning (pro : Proposer) : Option Bool :=
  let stable := pro.run.isNone
  if pro.run.isSome then none else some !stable

/-! ### The cluster -/

/-- A heartbeat on its way. -/
structure Beat where
  m : String
  dst : String
  vid : Nat
deriving DecidableEq, Repr

/-- `logs` are the answers to `joinreq`: the joiner and the log it is sent. -/
structure Cluster where
  paxos : Paxos.Cluster
  peer : String → Peer
  beats : List Beat
  logs : List (String × List Char)

def Cluster.acc (s : Cluster) (p : String) : Acceptor := s.paxos.acc p

def Cluster.pro (s : Cluster) (p : String) : Proposer := s.paxos.pro p

def Cluster.up (s : Cluster) (p : String) : Bool := (s.paxos.node p).up

def Cluster.setPeer (s : Cluster) (p : String) (peer : Peer) : Cluster :=
  { s with peer := Function.update s.peer p peer }

def Cluster.setAcc (s : Cluster) (p : String) (acc : Acceptor) : Cluster :=
  { s with paxos := s.paxos.setAcc p acc }

/-- The process of `p` ends. -/
def Cluster.setDown (s : Cluster) (p : String) : Cluster :=
  { s with paxos := s.paxos.setDown p }

/-- The constructor of `class proposer`; `xid` numbers its calls. -/
def newProposer (me : String) (xid : Nat) : Proposer where
  me := me
  myN := ⟨0, me⟩
  run := none
  xid := xid

/-- The acceptor and the proposer of a new process of `p`.  Replies to calls of an earlier
    process do not reach it, so `xid` goes on. -/
def Cluster.boot (s : Cluster) (p : String) (acc : Acceptor) : Cluster :=
  { s with paxos := { s.paxos with
      node := Function.update s.paxos.node p
        { acc := acc
          pro := newProposer p (s.pro p).xid
          up := true } } }

/-- A Paxos step at `p`; what it decides goes to `paxos_commit`. -/
def Cluster.withPaxos (s : Cluster) (p : String) (next : Paxos.Cluster) : Cluster :=
  if (s.acc p).instanceH < (next.acc p).instanceH then
    { s with paxos := next, peer := Function.update s.peer p ((s.peer p).decided (next.acc p)) }
  else { s with paxos := next }

/-- `commit_change_wo` at `p`. -/
def Cluster.changeView (s : Cluster) (p : String) (vid : Nat) : Cluster :=
  match (s.peer p).commitChangeWo (s.acc p) vid with
  | some peer => s.setPeer p peer
  | none => s.setDown p

/-- `join` at `p` has its answer and restores the log. -/
def Cluster.restore (s : Cluster) (p : String) (log : List Char) (junk : Nat) : Cluster :=
  match (s.acc p).restore log junk with
  | some acc =>
      (s.setAcc p acc).setPeer p { (s.peer p).reconstruct acc with joined := true }
  | none => (s.setAcc p { s.acc p with file := log }).setDown p

/-- A process of `p` is started over the log file that is there. -/
def Cluster.start (s : Cluster) (first p : String) (junk : Nat) : Option Cluster :=
  (Acceptor.new (p == first) p p (s.acc p).file junk).map fun acc =>
    let next := (s.boot p acc).setPeer p ((Peer.blank first).reconstruct acc)
    if first = p then next.changeView p 1 else next

/-- `config::heartbeat` at the destination; not taken while it waits for the proposer. -/
def Cluster.heartbeat (s : Cluster) (beat : Beat) : Option Cluster :=
  if beat.vid = (s.peer beat.dst).myvid then some s
  else
    (isrunning (s.pro beat.dst)).map fun running =>
      match (s.peer beat.dst).heartbeat running beat.vid with
      | some _ => s
      | none => s.setDown beat.dst

inductive Action where
  /-- A step of the acceptors and proposers other than the start of a `run`. -/
  | paxos (action : Paxos.Action)
  /-- `add` or `remove_wo` calls `run`. -/
  | run (p : String) (proposal : Proposal)
  | paxosCommit (p : String) (upcall : Nat × String)
  | commitChange (p : String) (vid : Nat)
  /-- `joinreq` of `m`, no member of view `vid_commit`, arrives at the primary. -/
  | joinreq (p m : String)
  | add (p m : String) (vid : Nat)
  /-- `joinreq` of a member answers with the log. -/
  | dump (p m : String)
  | restore (p : String) (log : List Char) (junk : Nat)
  /-- `join` has returned true, and the recovery thread commits the view of config. -/
  | joined (p : String)
  | wake (p : String)
  /-- `doheartbeat` sends its request. -/
  | ping (p : String)
  /-- `doheartbeat` returns OK. -/
  | pong (p : String)
  /-- `doheartbeat` returns FAILURE or VIEWERR. -/
  | fail (p : String)
  | heartbeat (beat : Beat)
  | start (p : String) (junk : Nat)
  | crash (p : String)
deriving DecidableEq, Repr

def Cluster.step (first : String) (s : Cluster) : Action → Option Cluster
  | .paxos action =>
      match action with
      | .run .. => none
      | action => (s.paxos.step action).map (s.withPaxos action.node)
  | .run p proposal =>
      if proposal ∈ (s.peer p).proposals then
        (s.paxos.step (.run p proposal.inst proposal.curNodes proposal.newv)).map fun next =>
          ({ s with paxos := next } : Cluster).setPeer p
            { s.peer p with proposals := (s.peer p).proposals.erase proposal }
      else none
  | .paxosCommit p upcall =>
      if s.up p ∧ upcall ∈ (s.peer p).upcalls then
        some (s.setPeer p ((s.peer p).paxosCommit upcall))
      else none
  | .commitChange p vid =>
      if s.up p ∧ (s.peer p).joined = false ∧ vid ∈ (s.peer p).changes then
        some ((s.setPeer p
          { s.peer p with changes := (s.peer p).changes.erase vid }).changeView p vid)
      else none
  | .joinreq p m =>
      if s.up p ∧ (s.peer p).joined = false ∧
          ismember (s.acc p) m (s.peer p).vidCommit = false ∧ (s.peer p).primary = p then
        some (s.setPeer p
          { s.peer p with joins := (m, (s.peer p).vidCommit) :: (s.peer p).joins })
      else none
  | .add p m vid =>
      if s.up p ∧ (m, vid) ∈ (s.peer p).joins then some (s.setPeer p ((s.peer p).add m vid))
      else none
  | .dump p m =>
      if s.up p ∧ (s.peer p).joined = false ∧
          (ismember (s.acc p) m (s.peer p).vidCommit = true ∨
            ismember (s.acc p) m (s.peer p).myvid = true) then
        some { s with logs := (m, (s.acc p).dump) :: s.logs }
      else none
  | .restore p log junk =>
      if s.up p ∧ (s.peer p).joined = false ∧ (p, log) ∈ s.logs then some (s.restore p log junk)
      else none
  | .joined p =>
      if s.up p ∧ (s.peer p).joined = true then
        some ((s.setPeer p { s.peer p with joined := false }).changeView p (s.peer p).myvid)
      else none
  | .wake p =>
      if s.up p ∧ (s.peer p).round = none then
        some (s.setPeer p ((s.peer p).wake (s.acc p) p))
      else none
  | .ping p =>
      match (s.peer p).round with
      | some ⟨_, m :: _⟩ =>
          if s.up p then some { s with beats := ⟨p, m, (s.peer p).myvid⟩ :: s.beats } else none
      | _ => none
  | .pong p =>
      match (s.peer p).round with
      | some ⟨vid, _ :: todo⟩ =>
          if s.up p then some (s.setPeer p { s.peer p with round := some ⟨vid, todo⟩ }) else none
      | some ⟨_, []⟩ =>
          if s.up p then some (s.setPeer p { s.peer p with round := none }) else none
      | none => none
  | .fail p =>
      match (s.peer p).round with
      | some ⟨vid, m :: _⟩ =>
          if s.up p then some (s.setPeer p ((s.peer p).failed vid m)) else none
      | _ => none
  | .heartbeat beat =>
      if s.up beat.dst ∧ beat ∈ s.beats then s.heartbeat beat else none
  | .start p junk => if s.up p then none else s.start first p junk
  | .crash p => if s.up p then some (s.setDown p) else none

/-- The actions of one Paxos RPC that completes. -/
def Action.rpc (call : Call) (res : Response) : List Action :=
  (Paxos.Action.roundTrip call res).map .paxos

/-- No process runs and no node has a log. -/
def Cluster.initial (first : String) : Cluster where
  paxos :=
    { node := fun me =>
        { acc := Acceptor.blank me []
          pro := newProposer me 0
          up := false }
      calls := []
      replies := []
      runs := [] }
  peer := fun _ => Peer.blank first
  beats := []
  logs := []

/-- The runs of a cluster whose nodes are all started with the first node `first`. -/
def views (first : String) : System Cluster Action where
  init := fun s => s = Cluster.initial first
  step := Cluster.step first

/-! ### Reading an updated cluster -/

section Updates

variable (s : Cluster) (p q : String)

theorem Cluster.peer_setPeer (c : Peer) :
    (s.setPeer p c).peer q = if q = p then c else s.peer q := by
  by_cases h : q = p
  · subst h
    simp [Cluster.setPeer]
  · simp [Cluster.setPeer, h]

@[simp] theorem Cluster.peer_setPeer_self (c : Peer) : (s.setPeer p c).peer p = c := by
  simp [Cluster.setPeer]

@[simp] theorem Cluster.acc_setPeer (c : Peer) : (s.setPeer p c).acc q = s.acc q := rfl

theorem Cluster.acc_setAcc (acc : Acceptor) :
    (s.setAcc p acc).acc q = if q = p then acc else s.acc q :=
  s.paxos.acc_setAcc p q acc

@[simp] theorem Cluster.pro_setAcc (acc : Acceptor) : (s.setAcc p acc).pro q = s.pro q :=
  s.paxos.pro_setAcc p q acc

@[simp] theorem Cluster.acc_setDown : (s.setDown p).acc q = s.acc q := s.paxos.acc_setDown p q

@[simp] theorem Cluster.pro_setDown : (s.setDown p).pro q = s.pro q := s.paxos.pro_setDown p q

theorem Cluster.up_setDown (h : (s.setDown p).up q = true) : s.up q = true := by
  by_cases heq : q = p
  · subst heq
    simp [Cluster.up, Cluster.setDown, Paxos.Cluster.setDown] at h
  · simpa [Cluster.up, Cluster.setDown, Paxos.Cluster.setDown, heq] using h

theorem Cluster.acc_boot (acc : Acceptor) :
    (s.boot p acc).acc q = if q = p then acc else s.acc q := by
  by_cases h : q = p
  · subst h
    simp [Cluster.boot, Cluster.acc, Paxos.Cluster.acc]
  · simp [Cluster.boot, Cluster.acc, Paxos.Cluster.acc, h]

theorem Cluster.pro_boot (acc : Acceptor) :
    (s.boot p acc).pro q =
      if q = p then newProposer p (s.pro p).xid else s.pro q := by
  by_cases h : q = p
  · subst h
    simp [Cluster.boot, Cluster.pro, Paxos.Cluster.pro]
  · simp [Cluster.boot, Cluster.pro, Paxos.Cluster.pro, h]

/-- But for `up`, a new process is a change of proposer and of acceptor. -/
theorem Cluster.accs_boot (acc : Acceptor) : (s.boot p acc).acc =
    ((s.paxos.setPro p (newProposer p (s.pro p).xid)).setAcc p acc).acc := by
  funext q
  rw [Cluster.acc_boot, Paxos.Cluster.acc_setAcc, Paxos.Cluster.acc_setPro]
  rfl

theorem Cluster.pros_boot (acc : Acceptor) : (s.boot p acc).pro =
    ((s.paxos.setPro p (newProposer p (s.pro p).xid)).setAcc p acc).pro := by
  funext q
  rw [Cluster.pro_boot, Paxos.Cluster.pro_setAcc, Paxos.Cluster.pro_setPro]
  rfl

theorem Cluster.up_boot (acc : Acceptor) (h : (s.boot p acc).up q = true) :
    q = p ∨ s.up q = true := by
  by_cases heq : q = p
  · exact .inl heq
  · exact .inr (by simpa [Cluster.boot, Cluster.up, heq] using h)

@[simp] theorem Cluster.paxos_withPaxos (next : Paxos.Cluster) :
    (s.withPaxos p next).paxos = next := by
  unfold Cluster.withPaxos
  split <;> rfl

@[simp] theorem Cluster.acc_withPaxos (next : Paxos.Cluster) :
    (s.withPaxos p next).acc q = next.acc q := by
  rw [Cluster.acc, Cluster.paxos_withPaxos]

@[simp] theorem Cluster.logs_withPaxos (next : Paxos.Cluster) :
    (s.withPaxos p next).logs = s.logs := by
  unfold Cluster.withPaxos
  split <;> rfl

theorem Cluster.peer_withPaxos_of_ne (next : Paxos.Cluster) (h : q ≠ p) :
    (s.withPaxos p next).peer q = s.peer q := by
  unfold Cluster.withPaxos
  split
  · exact Function.update_of_ne h _ _
  · rfl

theorem Cluster.peer_withPaxos_self (next : Paxos.Cluster) :
    (s.withPaxos p next).peer p =
      if (s.acc p).instanceH < (next.acc p).instanceH then (s.peer p).decided (next.acc p)
      else s.peer p := by
  unfold Cluster.withPaxos
  split
  · exact Function.update_self ..
  · rfl

end Updates

/-! ### What each action does -/

/-- `c` has gone on to view `vid`, or stayed where it was. -/
def Peer.AtView (c : Peer) (vid : Nat) (next : Peer) : Prop :=
  next = c ∨ ∃ primary, next = { c with vidCommit := vid, primary := primary }

theorem Peer.atView_of_commitChangeWo {c next : Peer} {acc : Acceptor} {vid : Nat}
    (h : c.commitChangeWo acc vid = some next) : c.AtView vid next := by
  rw [Peer.commitChangeWo_eq] at h
  split at h
  · exact .inl (Option.some.inj h).symm
  · obtain ⟨primary, -, rfl⟩ := Option.map_eq_some_iff.mp h
    exact .inr ⟨primary, rfl⟩

/-- The steps of the threads of one config module, `joinreq` apart. -/
inductive Peer.Step (acc : Acceptor) (me : String) (c : Peer) : Peer → Prop
  | paxosCommit {upcall : Nat × String} (hmem : upcall ∈ c.upcalls) :
      Step acc me c (c.paxosCommit upcall)
  | commitChange {vid : Nat} {next : Peer} (hmem : vid ∈ c.changes)
      (hnext : ({ c with changes := c.changes.erase vid } : Peer).AtView vid next) :
      Step acc me c next
  | joined {next : Peer} (hnext : ({ c with joined := false } : Peer).AtView c.myvid next) :
      Step acc me c next
  | add {m : String} {vid : Nat} (hmem : (m, vid) ∈ c.joins) : Step acc me c (c.add m vid)
  | wake : Step acc me c (c.wake acc me)
  | pong {vid : Nat} {m : String} {todo : List String} (hround : c.round = some ⟨vid, m :: todo⟩) :
      Step acc me c { c with round := some ⟨vid, todo⟩ }
  | rested : Step acc me c { c with round := none }
  | failed {vid : Nat} {m : String} {todo : List String}
      (hround : c.round = some ⟨vid, m :: todo⟩) : Step acc me c (c.failed vid m)

/-- `t` is `base`, or `base` after a failed `VERIFY` at `p`. -/
def Cluster.OrDown (base : Cluster) (p : String) (t : Cluster) : Prop :=
  t = base ∨ t = base.setDown p

/-- Everything a step can do, with what is known when it is taken. -/
inductive Cluster.Move (first : String) (s : Cluster) : Action → Cluster → Prop
  | paxos {action : Paxos.Action} {next : Paxos.Cluster}
      (hrun : ∀ p inst curNodes newv, action ≠ .run p inst curNodes newv)
      (hmove : s.paxos.Move action next) :
      Move first s (.paxos action) (s.withPaxos action.node next)
  | run {p : String} {proposal : Proposal} {next : Paxos.Cluster} (hup : s.up p = true)
      (hmem : proposal ∈ (s.peer p).proposals)
      (hmove : s.paxos.Move (.run p proposal.inst proposal.curNodes proposal.newv) next) :
      Move first s (.run p proposal) (({ s with paxos := next } : Cluster).setPeer p
        { s.peer p with proposals := (s.peer p).proposals.erase proposal })
  | peer {action : Action} {p : String} {next : Peer} {t : Cluster} (hup : s.up p = true)
      (hstep : (s.peer p).Step (s.acc p) p next) (ht : (s.setPeer p next).OrDown p t) :
      Move first s action t
  | joinreq {p m : String} (hup : s.up p = true)
      (hm : ismember (s.acc p) m (s.peer p).vidCommit = false) :
      Move first s (.joinreq p m) (s.setPeer p
        { s.peer p with joins := (m, (s.peer p).vidCommit) :: (s.peer p).joins })
  | dump {p m : String} {vid : Nat} (hmember : ismember (s.acc p) m vid = true) :
      Move first s (.dump p m) { s with logs := (m, (s.acc p).dump) :: s.logs }
  | restored {p : String} {log : List Char} {junk : Nat} {acc : Acceptor}
      (hlog : (p, log) ∈ s.logs) (hacc : (s.acc p).restore log junk = some acc) :
      Move first s (.restore p log junk)
        ((s.setAcc p acc).setPeer p { (s.peer p).reconstruct acc with joined := true })
  | unreadable {p : String} {log : List Char} {junk : Nat} (hlog : (p, log) ∈ s.logs)
      (hacc : (s.acc p).restore log junk = none) :
      Move first s (.restore p log junk) ((s.setAcc p { s.acc p with file := log }).setDown p)
  | ping {p m : String} {action : Action} :
      Move first s action { s with beats := ⟨p, m, (s.peer p).myvid⟩ :: s.beats }
  | heartbeat {action : Action} : Move first s action s
  | down {p : String} {action : Action} : Move first s action (s.setDown p)
  | started {p : String} {junk vid : Nat} {acc : Acceptor} {next : Peer} {t : Cluster}
      (hacc : Acceptor.new (p == first) p p (s.acc p).file junk = some acc)
      (hnext : ((Peer.blank first).reconstruct acc).AtView vid next)
      (hvid : vid ≤ acc.instanceH)
      (ht : ((s.boot p acc).setPeer p next).OrDown p t) :
      Move first s (.start p junk) t

section Steps

variable {first : String} {s t : Cluster} {p : String}

/-- `commit_change_wo` at `p`, whose state has just become `c`. -/
theorem Cluster.changeView_cases (base : Cluster) (c : Peer) (vid : Nat) :
    ∃ next, c.AtView vid next ∧
      (base.setPeer p next).OrDown p ((base.setPeer p c).changeView p vid) := by
  have htwice : ∀ next, (base.setPeer p c).setPeer p next = base.setPeer p next := fun next => by
    simp [Cluster.setPeer]
  unfold Cluster.changeView
  rw [Cluster.peer_setPeer_self]
  rcases hnext : c.commitChangeWo ((base.setPeer p c).acc p) vid with _ | next
  · exact ⟨c, .inl rfl, .inr rfl⟩
  · exact ⟨next, Peer.atView_of_commitChangeWo hnext, .inl (htwice next)⟩

theorem Cluster.move_of_restore {log : List Char} {junk : Nat} (hlog : (p, log) ∈ s.logs) :
    s.Move first (.restore p log junk) (s.restore p log junk) := by
  unfold Cluster.restore
  rcases hacc : (s.acc p).restore log junk with _ | acc
  · exact .unreadable hlog hacc
  · exact .restored hlog hacc

theorem Cluster.move_of_start {junk : Nat} (h : s.start first p junk = some t) :
    s.Move first (.start p junk) t := by
  obtain ⟨acc, hacc, rfl⟩ := Option.map_eq_some_iff.mp h
  dsimp only
  split
  · rename_i heq
    obtain ⟨next, hnext, ht⟩ := Cluster.changeView_cases (p := p) (s.boot p acc)
      ((Peer.blank first).reconstruct acc) 1
    have hone : 1 ≤ acc.instanceH := by
      rw [heq, beq_self_eq_true] at hacc
      exact Acceptor.one_le_instanceH_of_new hacc
    exact .started hacc hnext hone ht
  · exact .started hacc (.inl rfl) (Nat.zero_le _) (.inl rfl)

theorem Cluster.move_of_heartbeat {beat : Beat} (h : s.heartbeat beat = some t) :
    s.Move first (.heartbeat beat) t := by
  unfold Cluster.heartbeat at h
  split at h
  · obtain rfl := Option.some.inj h
    exact .heartbeat
  · obtain ⟨running, -, rfl⟩ := Option.map_eq_some_iff.mp h
    split
    · exact .heartbeat
    · exact .down

/-- **Inversion of a step.** -/
theorem Cluster.move_of_step {action : Action} (h : s.step first action = some t) :
    s.Move first action t := by
  cases action with
  | paxos action =>
      cases action with
      | run p inst curNodes newv => cases h
      | call p | skip p | deliver call | receive p reply | next p =>
          obtain ⟨next, hnext, rfl⟩ := Option.map_eq_some_iff.mp h
          exact .paxos nofun (Paxos.Cluster.move_of_step hnext)
  | run p proposal =>
      simp only [Cluster.step, Option.ite_none_right_eq_some] at h
      obtain ⟨hmem, h⟩ := h
      obtain ⟨next, hnext, rfl⟩ := Option.map_eq_some_iff.mp h
      refine .run ?_ hmem (Paxos.Cluster.move_of_step hnext)
      simp only [Paxos.Cluster.step, Option.ite_none_right_eq_some] at hnext
      exact hnext.1.1
  | paxosCommit p upcall =>
      simp only [Cluster.step, Option.ite_none_right_eq_some, Option.some.injEq] at h
      obtain ⟨⟨hup, hmem⟩, rfl⟩ := h
      exact .peer hup (.paxosCommit hmem) (.inl rfl)
  | commitChange p vid =>
      simp only [Cluster.step, Option.ite_none_right_eq_some, Option.some.injEq] at h
      obtain ⟨⟨hup, -, hmem⟩, rfl⟩ := h
      obtain ⟨next, hnext, ht⟩ := Cluster.changeView_cases (p := p) s
        { s.peer p with changes := (s.peer p).changes.erase vid } vid
      exact .peer hup (.commitChange hmem hnext) ht
  | joinreq p m =>
      simp only [Cluster.step, Option.ite_none_right_eq_some, Option.some.injEq] at h
      obtain ⟨⟨hup, -, hm, -⟩, rfl⟩ := h
      exact .joinreq hup hm
  | add p m vid =>
      simp only [Cluster.step, Option.ite_none_right_eq_some, Option.some.injEq] at h
      obtain ⟨⟨hup, hmem⟩, rfl⟩ := h
      exact .peer hup (.add hmem) (.inl rfl)
  | dump p m =>
      simp only [Cluster.step, Option.ite_none_right_eq_some, Option.some.injEq] at h
      obtain ⟨⟨-, -, hmember⟩, rfl⟩ := h
      rcases hmember with hmember | hmember
      · exact .dump hmember
      · exact .dump hmember
  | restore p log junk =>
      simp only [Cluster.step, Option.ite_none_right_eq_some, Option.some.injEq] at h
      obtain ⟨⟨-, -, hlog⟩, rfl⟩ := h
      exact Cluster.move_of_restore hlog
  | joined p =>
      simp only [Cluster.step, Option.ite_none_right_eq_some, Option.some.injEq] at h
      obtain ⟨⟨hup, -⟩, rfl⟩ := h
      obtain ⟨next, hnext, ht⟩ := Cluster.changeView_cases (p := p) s
        { s.peer p with joined := false } (s.peer p).myvid
      exact .peer hup (.joined hnext) ht
  | wake p =>
      simp only [Cluster.step, Option.ite_none_right_eq_some, Option.some.injEq] at h
      obtain ⟨⟨hup, -⟩, rfl⟩ := h
      exact .peer hup .wake (.inl rfl)
  | ping p =>
      rcases hround : (s.peer p).round with _ | ⟨vid, _ | ⟨m, todo⟩⟩ <;>
        simp only [Cluster.step, hround, Option.ite_none_right_eq_some, reduceCtorEq,
          Option.some.injEq] at h
      obtain ⟨-, rfl⟩ := h
      exact .ping
  | pong p =>
      rcases hround : (s.peer p).round with _ | ⟨vid, _ | ⟨m, todo⟩⟩ <;>
        simp only [Cluster.step, hround, Option.ite_none_right_eq_some, reduceCtorEq,
          Option.some.injEq] at h
      · obtain ⟨hup, rfl⟩ := h
        exact .peer hup .rested (.inl rfl)
      · obtain ⟨hup, rfl⟩ := h
        exact .peer hup (.pong hround) (.inl rfl)
  | fail p =>
      rcases hround : (s.peer p).round with _ | ⟨vid, _ | ⟨m, todo⟩⟩ <;>
        simp only [Cluster.step, hround, Option.ite_none_right_eq_some, reduceCtorEq,
          Option.some.injEq] at h
      obtain ⟨hup, rfl⟩ := h
      exact .peer hup (.failed hround) (.inl rfl)
  | heartbeat beat =>
      simp only [Cluster.step, Option.ite_none_right_eq_some] at h
      exact Cluster.move_of_heartbeat h.2
  | start p junk =>
      simp only [Cluster.step, Option.ite_none_left_eq_some] at h
      exact Cluster.move_of_start h.2
  | crash p =>
      simp only [Cluster.step, Option.ite_none_right_eq_some, Option.some.injEq] at h
      obtain ⟨-, rfl⟩ := h
      exact .down

/-- What a step makes of the config module of one node, whose acceptor goes from `before` to
    `after`. -/
inductive Peer.Change (first me : String) (before after : Acceptor) (c : Peer) :
    Action → Peer → Prop
  | same {action : Action} (hacc : before.Progress after) : Change first me before after c action c
  | decided {action : Action} (hacc : before.Progress after)
      (hlt : before.instanceH < after.instanceH) :
      Change first me before after c action (c.decided after)
  | began {action : Action} (hacc : before.Progress after) (proposal : Proposal) :
      Change first me before after c action
        { c with proposals := c.proposals.erase proposal }
  | step {action : Action} {next : Peer} (hacc : after = before) (hstep : c.Step before me next) :
      Change first me before after c action next
  | joinreq {m : String} (hacc : after = before) (hm : ismember before m c.vidCommit = false) :
      Change first me before after c (.joinreq me m)
        { c with joins := (m, c.vidCommit) :: c.joins }
  | restored {log : List Char} {junk : Nat} :
      Change first me before after c (.restore me log junk)
        { c.reconstruct after with joined := true }
  | unreadable {log : List Char} {junk : Nat} (hacc : before.restore log junk = none) :
      Change first me before after c (.restore me log junk) c
  | started {junk vid : Nat} {next : Peer} (hvid : vid ≤ after.instanceH)
      (hnext : ((Peer.blank first).reconstruct after).AtView vid next) :
      Change first me before after c (.start me junk) next

theorem Cluster.OrDown.peer {base : Cluster} (h : base.OrDown p t) : t.peer = base.peer := by
  rcases h with rfl | rfl <;> rfl

theorem Cluster.OrDown.acc {base : Cluster} (h : base.OrDown p t) (q : String) :
    t.acc q = base.acc q := by
  rcases h with rfl | rfl
  · rfl
  · exact Cluster.acc_setDown ..

theorem Cluster.Move.peer_change {action : Action} (h : s.Move first action t) (q : String) :
    (s.peer q).Change first q (s.acc q) (t.acc q) action (t.peer q) := by
  cases h with
  | @paxos action next hrun hmove =>
      have hprogress := hmove.progress q
      rw [Cluster.acc_withPaxos]
      by_cases hq : q = action.node
      · subst hq
        rw [Cluster.peer_withPaxos_self]
        split
        · rename_i hlt
          exact .decided hprogress hlt
        · exact .same hprogress
      · rw [Cluster.peer_withPaxos_of_ne _ _ _ _ hq]
        exact .same hprogress
  | @run p proposal next hup hmem hmove =>
      have hprogress := hmove.progress q
      rw [Cluster.peer_setPeer]
      split
      · rename_i heq
        subst heq
        exact .began hprogress proposal
      · exact .same hprogress
  | peer hup hstep ht =>
      rw [ht.peer, ht.acc, Cluster.peer_setPeer]
      split
      · rename_i heq
        subst heq
        exact .step rfl hstep
      · exact .same (.refl _)
  | joinreq hup hm =>
      rw [Cluster.peer_setPeer]
      split
      · rename_i heq
        subst heq
        exact .joinreq rfl hm
      · exact .same (.refl _)
  | dump hmember => exact .same (.refl _)
  | @restored p log junk acc hlog hacc =>
      rw [Cluster.peer_setPeer, Cluster.acc_setPeer, Cluster.acc_setAcc]
      split
      · rename_i heq
        subst heq
        exact .restored
      · exact .same (.refl _)
  | @unreadable p log junk hlog hacc =>
      rw [Cluster.acc_setDown, Cluster.acc_setAcc]
      split
      · rename_i heq
        subst heq
        exact .unreadable hacc
      · exact .same (.refl _)
  | ping => exact .same (.refl _)
  | heartbeat => exact .same (.refl _)
  | down =>
      rw [Cluster.acc_setDown]
      exact .same (.refl _)
  | @started p junk vid acc next t hacc hnext hvid ht =>
      rw [ht.peer, ht.acc, Cluster.peer_setPeer, Cluster.acc_setPeer, Cluster.acc_boot]
      split
      · rename_i heq
        subst heq
        exact .started hvid hnext
      · exact .same (.refl _)

end Steps

end DistributedLab.Config
