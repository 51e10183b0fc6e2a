import DistributedLab.Config
import DistributedLab.PaxosReplay

/-!
# One replica

`class rsm` of `rsm.cc` on one node, together with the acceptor and the config module
below it.  The three layers hold three notions of the current view: the acceptor's
`instance_h`, config's `myvid` and the RSM's `vid_commit`.  A decided instance reaches
the RSM through two upcalls, each in a critical section of its own, so an upcall that
has not run yet is part of the state.

The recovery thread gives up `rsm_mutex` only around RPCs, the sleep and the condition
waits.  Everything it does between two of these is one step, and `Pc` says at which of
them it stands.
-/

namespace DistributedLab.Rsm

open Paxos Config

/-! ### State -/

structure Viewstamp where
  vid : Nat
  seqno : Nat
deriving DecidableEq, Repr

/-- Where the recovery thread stands while it does not hold `rsm_mutex`. -/
inductive Pc where
  /-- The thread has not started. -/
  | created
  /-- `join`: waiting for the answer of `m` to `joinreq`. -/
  | joining (m : String)
  /-- `sleep(5)` after a failed `join`. -/
  | napping
  /-- `sync_with_backups`: about to take `invoke_mutex`. -/
  | quiescing
  /-- `sync_with_backups`: waiting for the backups. -/
  | awaiting
  /-- `statetransfer`: waiting for the answer of `m` to `transferreq`. -/
  | transferring (m : String)
  /-- `statetransferdone`: waiting for the answer of `m` to `transferdonereq`. -/
  | finishing (m : String)
  /-- Waiting on `recovery_cond` at the end of the loop. -/
  | resting
deriving DecidableEq, Repr

/-- What config and the RSM of a node know of the views, and the upcalls on their way. -/
structure ViewState where
  /-- Instances that `commit_wo` has decided and `paxos_commit` has not seen. -/
  upcalls : List (Nat × String)
  myvid : Nat
  mems : List String
  /-- Views that `paxos_commit` has passed on and `commit_change` has not seen. -/
  changes : List Nat
  primary : String
  vidCommit : Nat

/-- A node.  `σ` is the state of the replicated service, what `stf` marshals. -/
structure Node (σ : Type) extends ViewState where
  acc : Acceptor
  svc : σ
  myvs : Viewstamp
  lastMyvs : Viewstamp
  insync : Bool
  inviewchange : Bool
  vidInsync : Nat
  backups : List String
  pc : Pc

variable {σ : Type}

/-- Upcalls are looked up by value. -/
instance lawfulBEqUpcall : LawfulBEq (Nat × String) := inferInstance

/-- `cfg->myaddr()`. -/
def Node.myaddr (n : Node σ) : String := n.acc.me

/-! ### View changes -/

/-- `set_primary`: the primary stays if it is in the new view, else the first member of the
    previous view that is.  `none` when a `VERIFY` fails. -/
def setPrimary (view : Nat → List String) (primary : String) (vid : Nat) : Option String :=
  let c := view vid
  let p := view (vid - 1)
  if c = [] then none
  else if isamember primary c then some primary
  else p.find? fun m => isamember m c

/-- `commit_change_wo` with a view that is not old; `none` when a `VERIFY` of `set_primary`
    fails. -/
def ViewState.enter (v : ViewState) (acc : Acceptor) (vid : Nat) : Option ViewState :=
  (setPrimary (getView acc) v.primary vid).map fun primary =>
    { v with vidCommit := vid, primary := primary }

/-- `config::reconstruct`. -/
def ViewState.reconstruct (v : ViewState) (acc : Acceptor) : ViewState :=
  if acc.instanceH > 0 then
    { v with myvid := acc.instanceH, mems := getView acc acc.instanceH }
  else v

/-- `commit_wo` has decided an instance. -/
def ViewState.decided (v : ViewState) (acc : Acceptor) : ViewState :=
  { v with upcalls := v.upcalls ++ [(acc.instanceH, acc.value acc.instanceH)] }

/-- `config::paxos_commit`, up to its own upcall. -/
def ViewState.paxosCommit (v : ViewState) (upcall : Nat × String) : ViewState :=
  { v with
    upcalls := v.upcalls.erase upcall
    mems := members upcall.2
    myvid := upcall.1
    changes := v.changes ++ [upcall.1] }

def Node.commitChangeWo (n : Node σ) (vid : Nat) : Option (Node σ) :=
  if vid ≤ n.vidCommit then some n
  else
    (n.toViewState.enter n.acc vid).map fun views =>
      { n with toViewState := views, inviewchange := true }

def Node.reconstruct (n : Node σ) : Node σ :=
  { n with toViewState := n.toViewState.reconstruct n.acc }

/-- `config::restore`. -/
def Node.restore (n : Node σ) (log : List Char) (junk : Nat) : Option (Node σ) :=
  (n.acc.restore log junk).map fun acc => ({ n with acc := acc }).reconstruct

/-- A call on the acceptor.  `commit_wo` leaves an upcall behind when it decides. -/
def Node.paxos (n : Node σ) (op : Op) : Option (Node σ) :=
  (n.acc.perform op).map fun acc =>
    if n.acc.instanceH < acc.instanceH then
      { n with acc := acc, toViewState := n.toViewState.decided acc }
    else { n with acc := acc }

def Node.paxosCommit (n : Node σ) (upcall : Nat × String) : Node σ :=
  { n with toViewState := n.toViewState.paxosCommit upcall }

theorem Node.commitChangeWo_eq (n : Node σ) (vid : Nat) : n.commitChangeWo vid =
    if vid ≤ n.vidCommit then some n
    else
      (setPrimary (getView n.acc) n.primary vid).map fun primary =>
        { n with vidCommit := vid, inviewchange := true, primary := primary } := by
  rw [Node.commitChangeWo, ViewState.enter, Option.map_map]
  rfl

theorem Node.reconstruct_eq (n : Node σ) : n.reconstruct =
    if n.acc.instanceH > 0 then
      { n with myvid := n.acc.instanceH, mems := getView n.acc n.acc.instanceH }
    else n := by
  unfold Node.reconstruct ViewState.reconstruct
  split <;> rfl

/-- `rsm::commit_change`. -/
def Node.commitChange (n : Node σ) (vid : Nat) : Option (Node σ) :=
  ({ n with changes := n.changes.erase vid }).commitChangeWo vid

/-! ### The constructor -/

/-- The members of a new `rsm` before `commit_change(1)`.  `junk` stands for what
    uninitialised variables hold. -/
def Node.boot (first me : String) (svc : σ) (file : List Char) (junk : Nat) :
    Option (Node σ) :=
  (Acceptor.new (me == first) me me file junk).map fun acc =>
    Node.reconstruct {
      acc := acc
      upcalls := []
      myvid := 0
      mems := []
      changes := []
      svc := svc
      myvs := ⟨0, 1⟩
      lastMyvs := ⟨0, 0⟩
      primary := first
      insync := false
      inviewchange := true
      vidCommit := 0
      vidInsync := junk
      backups := []
      pc := .created }

/-- `rsm::rsm`. -/
def Node.new (first me : String) (svc : σ) (file : List Char) (junk : Nat) : Option (Node σ) :=
  (Node.boot first me svc file junk).bind fun n =>
    if first = me then n.commitChange 1 else some n

/-! ### The recovery thread -/

/-- From the head of the loop to the next point where the thread gives up `rsm_mutex`. -/
def Node.loopHead (n : Node σ) : Node σ :=
  if ismember n.acc n.myaddr n.vidCommit = false then
    { n with pc := .joining n.primary }
  else if n.primary = n.myaddr then
    { n with vidInsync := n.vidCommit, pc := .quiescing }
  else
    { n with vidInsync := n.vidCommit, pc := .transferring n.primary }

/-- From the end of the synchronisation, with result `r`, to the next such point. -/
def Node.synced (n : Node σ) (r : Bool) : Node σ :=
  if n.vidInsync ≠ n.vidCommit then n.loopHead
  else if r then
    { n with myvs := ⟨n.vidCommit, 1⟩, inviewchange := false, pc := .resting }
  else n.loopHead

/-- The loop of `sync_with_backups` around its condition wait. -/
def Node.awaitBackups (n : Node σ) : Node σ :=
  if n.backups ≠ [] ∧ n.vidInsync = n.vidCommit then { n with pc := .awaiting }
  else ({ n with insync := false }).synced true

/-- `sync_with_backups` after `invoke_mutex`. -/
def Node.beginSync (n : Node σ) : Node σ :=
  ({ n with insync := true, backups := (getView n.acc n.vidInsync).erase n.myaddr }).awaitBackups

/-- `join` has its answer: `restore` the log and commit the view it ends with. -/
def Node.joined (n : Node σ) (log : List Char) (junk : Nat) : Option (Node σ) :=
  (n.restore log junk).bind fun restored =>
    (restored.commitChangeWo restored.myvid).map Node.loopHead

/-- `statetransfer` has its answer.  The state is used only if the viewstamps differ. -/
def Node.transferred (n : Node σ) (m : String) (last : Viewstamp) (state : Option σ) : Node σ :=
  { n with
    svc := if n.lastMyvs ≠ last then state.getD n.svc else n.svc
    lastMyvs := last
    pc := .finishing m }

/-- What the recovery thread waited for. -/
inductive Wakeup (σ : Type) where
  /-- It runs for the first time, has slept or is woken from a condition wait. -/
  | go
  | invokeMutex
  | joinreq (log : List Char) (junk : Nat)
  | transferreq (last : Viewstamp) (state : Option σ)
  | transferdonereq
  /-- An RPC fails or is answered with an error. -/
  | failure

/-- One step of the recovery thread: `none` when it does not wait for this, or a `VERIFY`
    fails. -/
def Node.recovery (n : Node σ) : Wakeup σ → Option (Node σ)
  | .go =>
      match n.pc with
      | .created | .napping | .resting => some n.loopHead
      | .awaiting => some n.awaitBackups
      | _ => none
  | .invokeMutex => if n.pc = .quiescing then some n.beginSync else none
  | .joinreq log junk =>
      match n.pc with
      | .joining _ => n.joined log junk
      | _ => none
  | .transferreq last state =>
      match n.pc with
      | .transferring m => some (n.transferred m last state)
      | _ => none
  | .transferdonereq =>
      match n.pc with
      | .finishing _ => some (n.synced (n.vidInsync == n.vidCommit))
      | _ => none
  | .failure =>
      match n.pc with
      | .joining _ => some { n with pc := .napping }
      | .transferring _ | .finishing _ => some (n.synced false)
      | _ => none

/-- The eight steps of the recovery thread. -/
inductive Node.Recovery (n : Node σ) : Wakeup σ → Node σ → Prop
  | looped (hpc : n.pc = .created ∨ n.pc = .napping ∨ n.pc = .resting) :
      Recovery n .go n.loopHead
  | awaited (hpc : n.pc = .awaiting) : Recovery n .go n.awaitBackups
  | began (hpc : n.pc = .quiescing) : Recovery n .invokeMutex n.beginSync
  | joined {m : String} {log : List Char} {junk : Nat} {next : Node σ} (hpc : n.pc = .joining m)
      (h : n.joined log junk = some next) : Recovery n (.joinreq log junk) next
  | transferred {m : String} {last : Viewstamp} {state : Option σ} (hpc : n.pc = .transferring m) :
      Recovery n (.transferreq last state) (n.transferred m last state)
  | finished {m : String} (hpc : n.pc = .finishing m) :
      Recovery n .transferdonereq (n.synced (n.vidInsync == n.vidCommit))
  | refused {m : String} (hpc : n.pc = .joining m) :
      Recovery n .failure { n with pc := .napping }
  | failed {m : String} (hpc : n.pc = .transferring m ∨ n.pc = .finishing m) :
      Recovery n .failure (n.synced false)

theorem Node.recovery_cases {n next : Node σ} {wakeup : Wakeup σ}
    (h : n.recovery wakeup = some next) : n.Recovery wakeup next := by
  cases wakeup with
  | go =>
      cases hpc : n.pc <;> simp only [Node.recovery, hpc, Option.some.injEq, reduceCtorEq] at h
      · exact h ▸ .looped (.inl hpc)
      · exact h ▸ .looped (.inr (.inl hpc))
      · exact h ▸ .awaited hpc
      · exact h ▸ .looped (.inr (.inr hpc))
  | invokeMutex =>
      by_cases hpc : n.pc = .quiescing
      · rw [Node.recovery, if_pos hpc, Option.some.injEq] at h
        exact h ▸ .began hpc
      · rw [Node.recovery, if_neg hpc] at h
        cases h
  | joinreq log junk =>
      cases hpc : n.pc <;> simp only [Node.recovery, hpc, reduceCtorEq] at h
      exact .joined hpc h
  | transferreq last state =>
      cases hpc : n.pc <;> simp only [Node.recovery, hpc, Option.some.injEq, reduceCtorEq] at h
      exact h ▸ .transferred hpc
  | transferdonereq =>
      cases hpc : n.pc <;> simp only [Node.recovery, hpc, Option.some.injEq, reduceCtorEq] at h
      exact h ▸ .finished hpc
  | failure =>
      cases hpc : n.pc <;> simp only [Node.recovery, hpc, Option.some.injEq, reduceCtorEq] at h
      · exact h ▸ .refused hpc
      · exact h ▸ .failed (.inl hpc)
      · exact h ▸ .failed (.inr hpc)

/-! ### Handlers of the synchronisation -/

/-- `transferreq`: `none` is BUSY. -/
def Node.transferreq (n : Node σ) (last : Viewstamp) (vid : Nat) : Option (Viewstamp × Option σ) :=
  if n.insync = false ∨ vid ≠ n.vidInsync then none
  else some (n.lastMyvs, if last ≠ n.lastMyvs then some n.svc else none)

/-- `transferdonereq`: `none` is BUSY. -/
def Node.transferdonereq (n : Node σ) (m : String) (vid : Nat) : Option (Node σ) :=
  if n.insync = false ∨ vid ≠ n.vidInsync then none
  else some { n with backups := n.backups.erase m }

end DistributedLab.Rsm
