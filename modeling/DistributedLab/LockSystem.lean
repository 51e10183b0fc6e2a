import DistributedLab.LockClient
import DistributedLab.LockServer
import DistributedLab.Transition

/-!
# Lock clients and the lock server

Clients are known by the number that they send as `clt`; `dst` gives their addresses.
The server may execute a request that a client has issued any number of times and at
any time from then on, as the replicated state machine below does when it repeats a
request.  The answer of an execution may be lost.

The revoker and the retryer may run at any time.  Since they hold the mutex of the
server, the handler that they call runs in the state of the server that they have
seen, so the call is one step.  The releaser of a client may wake up without a revoke,
as condition variables allow.
-/

namespace DistributedLab.Lock

open Transition

inductive LockOp where
  | acquire
  | release
deriving DecidableEq, Repr

structure LockRequest where
  op : LockOp
  clt : Nat
  lid : Nat
  xid : Nat
deriving DecidableEq, Repr

structure LockSystem where
  client : Nat → LockClient
  server : LockServer
  requests : List LockRequest
  replies : List (LockRequest × Status)

inductive LockSystem.Action where
  /-- Threads in `acquire` and `release`. -/
  | enter (c t lid : Nat)
  | test (c t : Nat)
  | send (c t : Nat)
  | answered (c t : Nat) (reply : LockRequest × Status)
  | again (c t : Nat)
  | release (c t lid : Nat)
  /-- The releaser thread. -/
  | wake (c : Nat)
  | visit (c : Nat)
  | sendRelease (c : Nat)
  | released (c : Nat) (reply : LockRequest × Status)
  /-- The server executes a request, and its answer is kept or discarded. -/
  | serve (req : LockRequest) (discard : Bool)
  | revoke (lid c : Nat)
  | retry (lid c : Nat)
deriving DecidableEq, Repr

def LockServer.execute (s : LockServer) (dst : Nat → String) (req : LockRequest) :
    LockServer × Status :=
  match req.op with
  | .acquire => s.acquire req.clt req.lid (dst req.clt) req.xid
  | .release => s.release req.clt req.lid (dst req.clt) req.xid

/-- A client takes a step and issues some requests. -/
def LockSystem.onClient (s : LockSystem) (c : Nat) (client : LockClient)
    (issued : List LockRequest) : LockSystem :=
  { s with
    client := Function.update s.client c client
    requests := issued ++ s.requests }

/-- The server executes a request. -/
def LockSystem.onServer (s : LockSystem) (req : LockRequest) (discard : Bool)
    (out : LockServer × Status) : LockSystem :=
  { s with
    server := out.1
    replies := if discard then s.replies else (req, out.2) :: s.replies }

def LockSystem.step (dst : Nat → String) (s : LockSystem) :
    LockSystem.Action → Option LockSystem
  | .enter c t lid => ((s.client c).enter t lid).map (s.onClient c · [])
  | .test c t => ((s.client c).test t).map (s.onClient c · [])
  | .send c t => ((s.client c).send t).map fun out =>
      s.onClient c out.1 [⟨.acquire, c, out.2.1, out.2.2⟩]
  | .answered c t reply =>
      if reply ∈ s.replies ∧ reply.1.op = .acquire ∧ reply.1.clt = c then
        ((s.client c).answered t reply.1.lid reply.1.xid (reply.2 == .retry)).map
          (s.onClient c · [])
      else none
  | .again c t => ((s.client c).again t).map (s.onClient c · [])
  | .release c t lid => ((s.client c).release t lid).map (s.onClient c · [])
  | .wake c => some (s.onClient c (s.client c).wake [])
  | .visit c => (s.client c).visit.map (s.onClient c · [])
  | .sendRelease c => (s.client c).sendRelease.map fun out =>
      s.onClient c out.1 [⟨.release, c, out.2.1, out.2.2⟩]
  | .released c reply =>
      if reply ∈ s.replies ∧ reply.1.op = .release ∧ reply.1.clt = c then
        ((s.client c).released reply.1.lid reply.1.xid).map (s.onClient c · [])
      else none
  | .serve req discard =>
      if req ∈ s.requests then some (s.onServer req discard (s.server.execute dst req)) else none
  | .revoke lid c =>
      if s.server.revokes lid = some (dst c) then some (s.onClient c (s.client c).wake []) else none
  | .retry lid c =>
      if s.server.retries lid = some (dst c) then
        some (s.onClient c ((s.client c).retryHandler lid) [])
      else none

def lockSystem (dst : Nat → String) : System LockSystem LockSystem.Action where
  init := fun s => s = ⟨fun _ => LockClient.new, LockServer.new, [], []⟩
  step := LockSystem.step dst

/-- No two threads have the same lock. -/
def LockSystem.MutualExclusion (s : LockSystem) : Prop :=
  ∀ lid c t c' t', (s.client c).holds t lid = true → (s.client c').holds t' lid = true →
    c = c' ∧ t = t'

end DistributedLab.Lock
