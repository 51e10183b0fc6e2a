import DistributedLab.RsmInvoke
import DistributedLab.Transition
import Mathlib.Logic.Function.Basic

/-!
# A cluster of replicas

Every machine runs at most one `rsm` process over its log file.  A process has the
recovery thread, the threads of its handlers, and RPCs to other machines in flight.
A handler of an RPC runs at most once, an answer may arrive late or never, and a
machine may crash and start again at any point.

`client_invoke` and `invoke` hold `invoke_mutex` from beginning to end and take
`rsm_mutex` only inside `amiprimary`, so a view change can come between any two of
their tests.  `Handler` says how far the thread with `invoke_mutex` has come.  What
Paxos does below is left open: calls on the acceptors come in any order and with any
arguments.

The counter `epoch` of a machine is not in the source.  It counts executed requests,
starts and crashes, and so tells whether a replica has done anything since an answer.
-/

namespace DistributedLab.Rsm

open Paxos Config Transition

variable {σ ρ β : Type}

/-! ### RPCs -/

inductive Query (ρ : Type) where
  | joinreq (m : String)
  | transferreq (last : Viewstamp) (vid : Nat)
  | transferdonereq (m : String) (vid : Nat)
  | invoke (vs : Viewstamp) (req : ρ)
deriving DecidableEq, Repr

structure Rpc (ρ : Type) where
  clt : String
  xid : Nat
  dst : String
  query : Query ρ
deriving DecidableEq, Repr

/-- What an answer with status OK carries. -/
inductive Result (σ : Type) where
  | joinreq (log : List Char)
  | transferreq (last : Viewstamp) (state : Option σ)
  | transferdonereq
  | invoke
deriving DecidableEq, Repr

structure Reply (σ ρ : Type) where
  rpc : Rpc ρ
  /-- `none` for every other status. -/
  result : Option (Result σ)
  /-- The epoch of the answering machine. -/
  epoch : Nat
deriving DecidableEq, Repr

/-- An answer OK to `transferreq`. -/
def Reply.isTransfer (reply : Reply σ ρ) : Bool :=
  reply.result matches some (.transferreq _ _)

/-! ### Processes -/

/-- The thread that holds `invoke_mutex`. -/
inductive Handler (ρ : Type) where
  /-- `client_invoke`, about to call `amiprimary`. -/
  | clientEntered (req : ρ)
  /-- `client_invoke`, about to read the view. -/
  | clientAdmitted (req : ρ)
  /-- The loop of `client_invoke`: the members left, and the RPC to the first of them. -/
  | forwarding (req : ρ) (todo : List String) (call : Option (Rpc ρ))
  /-- `invoke`, about to test `inviewchange`, to call `amiprimary`, to compare the
      viewstamps, to execute. -/
  | invoked (rpc : Rpc ρ) (vs : Viewstamp) (req : ρ)
  | invokeEntered (rpc : Rpc ρ) (vs : Viewstamp) (req : ρ)
  | invokeAdmitted (rpc : Rpc ρ) (vs : Viewstamp) (req : ρ)
  | invokeAccepted (rpc : Rpc ρ) (req : ρ)
deriving DecidableEq, Repr

/-- A completed `sync_with_primary`: the epoch of the primary when it answered `transferreq`,
    and the epoch and the service state of the backup when it was done. -/
structure Synced (σ : Type) where
  vid : Nat
  primary : String
  answered : Nat
  epoch : Nat
  svc : σ
deriving DecidableEq, Repr

structure Process (σ ρ : Type) where
  node : Node σ
  handler : Option (Handler ρ)
  /-- `joinreq` handlers inside `cfg->add`. -/
  adding : List (Rpc ρ)
  /-- The RPC that the recovery thread waits for. -/
  waiting : Option (Rpc ρ)
  /-- The epoch in the last answer OK to `transferreq`. -/
  answered : Nat
  synced : Option (Synced σ)
  /-- The requests executed since the start, the last one at the end. -/
  requests : List ρ

/-- What a step of a process does besides changing the process. -/
structure Effect (σ ρ : Type) where
  process : Process σ ρ
  sent : List (Rpc ρ) := []
  replies : List (Rpc ρ × Option (Result σ)) := []
  executed : Nat := 0

/-- A constructed `rsm` object. -/
def Process.start (node : Node σ) : Process σ ρ where
  node := node
  handler := none
  adding := []
  waiting := none
  answered := 0
  synced := none
  requests := []

/-! ### The recovery thread -/

def Process.recovery (p : Process σ ρ) (wakeup : Wakeup σ) : Option (Process σ ρ) :=
  (p.node.recovery wakeup).map fun node => { p with node := node, waiting := none }

/-- `sync_with_backups` takes `invoke_mutex`. -/
def Process.quiesce (p : Process σ ρ) : Option (Process σ ρ) :=
  if p.handler.isSome then none else p.recovery .invokeMutex

/-- The RPC of `join`, `statetransfer` or `statetransferdone`. -/
def Process.query (p : Process σ ρ) : Option (String × Query ρ) :=
  match p.node.pc with
  | .joining m => some (m, .joinreq p.node.myaddr)
  | .transferring m => some (m, .transferreq p.node.lastMyvs p.node.vidInsync)
  | .finishing m => some (m, .transferdonereq p.node.myaddr p.node.vidInsync)
  | _ => none

def Process.ask (p : Process σ ρ) (clt : String) (xid : Nat) : Option (Effect σ ρ) :=
  if p.waiting.isSome then none
  else
    p.query.map fun target =>
      let rpc : Rpc ρ := ⟨clt, xid, target.1, target.2⟩
      { process := { p with waiting := some rpc }, sent := [rpc] }

/-- `sync_with_primary` returns true if the view has not changed. -/
def Process.finish (p : Process σ ρ) (m : String) (epoch : Nat) : Option (Synced σ) :=
  if p.node.vidInsync = p.node.vidCommit then
    some ⟨p.node.vidInsync, m, p.answered, epoch, p.node.svc⟩
  else p.synced

/-- The recovery thread has the answer it waits for. -/
def Process.answer (p : Process σ ρ) (reply : Reply σ ρ) (junk epoch : Nat) :
    Option (Process σ ρ) :=
  match reply.result with
  | some (.joinreq log) => p.recovery (.joinreq log junk)
  | some (.transferreq last state) =>
      (p.recovery (.transferreq last state)).map fun next => { next with answered := reply.epoch }
  | some .transferdonereq =>
      (p.recovery .transferdonereq).map fun next =>
        { next with synced := p.finish reply.rpc.dst epoch }
  | some .invoke => none
  | none => p.recovery .failure

/-! ### Client requests -/

/-- `client_invoke` up to its test of `inviewchange`. -/
def Process.clientInvoke (p : Process σ ρ) (req : ρ) : Option (Process σ ρ) :=
  if p.handler.isSome then none
  else some { p with handler := if p.node.inviewchange then none else some (.clientEntered req) }

/-- `execute`, the last statement of `client_invoke` and of `invoke`. -/
def Process.execute (execute : ρ → σ → σ × β) (p : Process σ ρ) (req : ρ) : Process σ ρ :=
  { p with
    node := { p.node with svc := (execute req p.node.svc).1 }
    handler := none
    requests := p.requests ++ [req] }

/-- The service state that the requests lead to. -/
def executeAll (execute : ρ → σ → σ × β) (svc : σ) (requests : List ρ) : σ :=
  requests.foldl (fun svc req => (execute req svc).1) svc

/-- `invoke` returns ERR. -/
def Process.refuse (p : Process σ ρ) (rpc : Rpc ρ) : Effect σ ρ :=
  { process := { p with handler := none }, replies := [(rpc, none)] }

/-- The next step of the thread that holds `invoke_mutex`. -/
def Process.proceed (execute : ρ → σ → σ × β) (p : Process σ ρ) (clt : String) (xid : Nat) :
    Option (Effect σ ρ) :=
  match p.handler with
  | none => none
  | some (.clientEntered req) =>
      some { process :=
        { p with handler := if p.node.amiprimary then some (.clientAdmitted req) else none } }
  | some (.clientAdmitted req) =>
      some { process :=
        { p with handler := some (.forwarding req (getView p.node.acc p.node.vidCommit) none) } }
  | some (.forwarding req [] _) => some { process := p.execute execute req, executed := 1 }
  | some (.forwarding req (t :: rest) none) =>
      if t = p.node.myaddr then
        some { process := { p with handler := some (.forwarding req rest none) } }
      else
        let rpc : Rpc ρ := ⟨clt, xid, t, .invoke p.node.myvs req⟩
        some {
          process := { p with handler := some (.forwarding req (t :: rest) (some rpc)) }
          sent := [rpc] }
  | some (.forwarding _ (_ :: _) (some _)) => none
  | some (.invoked rpc vs req) =>
      if p.node.inviewchange then some (p.refuse rpc)
      else some { process := { p with handler := some (.invokeEntered rpc vs req) } }
  | some (.invokeEntered rpc vs req) =>
      if p.node.amiprimary then some (p.refuse rpc)
      else some { process := { p with handler := some (.invokeAdmitted rpc vs req) } }
  | some (.invokeAdmitted rpc vs req) =>
      if vs ≠ p.node.myvs then some (p.refuse rpc)
      else some { process := { p with handler := some (.invokeAccepted rpc req) } }
  | some (.invokeAccepted rpc req) =>
      some { process := p.execute execute req, replies := [(rpc, some .invoke)], executed := 1 }

/-- The RPC of `client_invoke` has its answer, or fails: BUSY unless the status is OK. -/
def Process.forwarded [DecidableEq ρ] (p : Process σ ρ) (rpc : Rpc ρ) (ok : Bool) :
    Option (Process σ ρ) :=
  match p.handler with
  | some (.forwarding req (_ :: rest) (some call)) =>
      if call = rpc then
        some { p with handler := if ok then some (.forwarding req rest none) else none }
      else none
  | _ => none

/-- The thread with `invoke_mutex` is about to execute a request. -/
def Process.executing (p : Process σ ρ) : Bool :=
  p.handler matches some (.forwarding _ [] _) | some (.invokeAccepted _ _)

/-! ### Requests of other machines -/

/-- `joinreq` after `cfg->add`. -/
def Process.added [DecidableEq ρ] (p : Process σ ρ) (rpc : Rpc ρ) : Option (Effect σ ρ) :=
  match rpc.query with
  | .joinreq m =>
      if rpc ∈ p.adding then
        some {
          process := { p with adding := p.adding.erase rpc }
          replies := [(rpc,
            if ismember p.node.acc m p.node.myvid then some (.joinreq p.node.acc.dump) else none)] }
      else none
  | _ => none

def Process.handle (p : Process σ ρ) (rpc : Rpc ρ) : Option (Effect σ ρ) :=
  match rpc.query with
  | .joinreq m =>
      if ismember p.node.acc m p.node.vidCommit then
        some { process := p, replies := [(rpc, some (.joinreq p.node.acc.dump))] }
      else if p.node.myaddr ≠ p.node.primary then
        some { process := p, replies := [(rpc, none)] }
      else some { process := { p with adding := rpc :: p.adding } }
  | .transferreq last vid =>
      some {
        process := p
        replies := [(rpc, (p.node.transferreq last vid).map fun r => .transferreq r.1 r.2)] }
  | .transferdonereq m vid =>
      match p.node.transferdonereq m vid with
      | none => some { process := p, replies := [(rpc, none)] }
      | some node =>
          some { process := { p with node := node }, replies := [(rpc, some .transferdonereq)] }
  | .invoke vs req =>
      if p.handler.isSome then none
      else some { process := { p with handler := some (.invoked rpc vs req) } }

/-! ### The cluster -/

structure Replica (σ ρ : Type) where
  file : List Char
  process : Option (Process σ ρ)
  /-- Numbers the RPCs of the machine. -/
  xid : Nat
  epoch : Nat

structure Cluster (σ ρ : Type) where
  replica : String → Replica σ ρ
  rpcs : List (Rpc ρ)
  replies : List (Reply σ ρ)

inductive Cluster.Action (σ ρ : Type) where
  | start (n first : String) (junk : Nat)
  | crash (n : String)
  | paxos (n : String) (op : Op)
  | paxosCommit (n : String) (upcall : Nat × String)
  | commitChange (n : String) (vid : Nat)
  /-- The recovery thread wakes up, takes `invoke_mutex`, sends its RPC or gives up. -/
  | wake (n : String)
  | quiesce (n : String)
  | ask (n : String)
  | giveUp (n : String)
  | clientInvoke (n : String) (req : ρ)
  /-- The thread with `invoke_mutex` takes a step, or its RPC fails. -/
  | proceed (n : String)
  | expire (n : String) (rpc : Rpc ρ)
  | added (n : String) (rpc : Rpc ρ)
  | handle (rpc : Rpc ρ)
  | receive (reply : Reply σ ρ) (junk : Nat)
deriving DecidableEq

/-- A process of machine `n` has taken a step. -/
def Cluster.apply (s : Cluster σ ρ) (n : String) (e : Effect σ ρ) : Cluster σ ρ where
  replica := Function.update s.replica n { s.replica n with
    process := some e.process
    xid := (s.replica n).xid + e.sent.length
    epoch := (s.replica n).epoch + e.executed }
  rpcs := e.sent ++ s.rpcs
  replies := e.replies.map (fun answer => ⟨answer.1, answer.2, (s.replica n).epoch⟩) ++ s.replies

def Cluster.onProcess (s : Cluster σ ρ) (n : String)
    (f : Process σ ρ → Option (Effect σ ρ)) : Option (Cluster σ ρ) :=
  ((s.replica n).process.bind f).map (s.apply n)

/-- A step that changes nothing but the process. -/
def Cluster.onNode (s : Cluster σ ρ) (n : String)
    (f : Process σ ρ → Option (Process σ ρ)) : Option (Cluster σ ρ) :=
  s.onProcess n fun p => (f p).map fun next => { process := next }

def Cluster.start (s : Cluster σ ρ) (n first : String) (svc : σ) (junk : Nat) :
    Option (Cluster σ ρ) :=
  if (s.replica n).process.isSome then none
  else
    (Node.new first n svc (s.replica n).file junk).map fun node =>
      { s with replica := Function.update s.replica n { s.replica n with
          process := some (.start node), epoch := (s.replica n).epoch + 1 } }

/-- Only the log file survives. -/
def Cluster.crash (s : Cluster σ ρ) (n : String) : Option (Cluster σ ρ) :=
  (s.replica n).process.map fun p =>
    { s with replica := Function.update s.replica n { s.replica n with
        file := p.node.acc.file, process := none, epoch := (s.replica n).epoch + 1 } }

/-- `svc` is the state of a new service object. -/
def Cluster.step (execute : ρ → σ → σ × β) (svc : σ) [DecidableEq σ] [DecidableEq ρ]
    (s : Cluster σ ρ) : Cluster.Action σ ρ → Option (Cluster σ ρ)
  | .start n first junk => s.start n first svc junk
  | .crash n => s.crash n
  | .paxos n op => s.onNode n fun p => (p.node.paxos op).map fun node => { p with node := node }
  | .paxosCommit n upcall => s.onNode n fun p =>
      if upcall ∈ p.node.upcalls then some { p with node := p.node.paxosCommit upcall } else none
  | .commitChange n vid => s.onNode n fun p =>
      if vid ∈ p.node.changes then
        (p.node.commitChange vid).map fun node => { p with node := node }
      else none
  | .wake n => s.onNode n fun p => p.recovery .go
  | .quiesce n => s.onNode n fun p => p.quiesce
  | .ask n => s.onProcess n fun p => p.ask n (s.replica n).xid
  | .giveUp n => s.onNode n fun p => p.recovery .failure
  | .clientInvoke n req => s.onNode n fun p => p.clientInvoke req
  | .proceed n => s.onProcess n fun p => p.proceed execute n (s.replica n).xid
  | .expire n rpc => s.onNode n fun p => p.forwarded rpc false
  | .added n rpc => s.onProcess n fun p => p.added rpc
  | .handle rpc =>
      if rpc ∈ s.rpcs then
        ({ s with rpcs := s.rpcs.erase rpc }).onProcess rpc.dst fun p => p.handle rpc
      else none
  | .receive reply junk =>
      if reply ∈ s.replies then
        s.onNode reply.rpc.clt fun p =>
          if p.waiting = some reply.rpc then
            p.answer reply junk (s.replica reply.rpc.clt).epoch
          else p.forwarded reply.rpc reply.result.isSome
      else none

/-- No machine has started yet and all log files are empty. -/
def Cluster.off : Cluster σ ρ where
  replica := fun _ => { file := [], process := none, xid := 0, epoch := 0 }
  rpcs := []
  replies := []

/-- The runs of a cluster. -/
def cluster (execute : ρ → σ → σ × β) (svc : σ) [DecidableEq σ] [DecidableEq ρ] :
    System (Cluster σ ρ) (Cluster.Action σ ρ) where
  init := fun s => s = Cluster.off
  step := Cluster.step execute svc

end DistributedLab.Rsm
