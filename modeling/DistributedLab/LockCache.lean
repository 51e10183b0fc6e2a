import DistributedLab.LockClient
import DistributedLab.LockServer
import DistributedLab.Transition

/-!
# The caching lock service without replication

`lock_server_cache` keeps the clients of a lock in a list.  A client that asks while
another one is the first in the list takes its place at once, and only then does the
server's thread call `revoke` at the other one.  It holds no mutex during this call, so
further requests are executed meanwhile, and each of them has its own thread that
revokes the lock from the client before it.

`lock_client_cache` runs `acquire`, `release` and the two handlers under one mutex,
which is free during the first call of the server and during `dorelease`.  The second
call, after a RETRY, is made with the mutex locked.

A request is executed once and its answer arrives, so the thread of the server that
works on it is kept with the thread of the client that waits for it.  A step is a
critical section of one of the two.
-/

namespace DistributedLab.LockCache

open Transition
open Lock (LockStatus Status enlist)

/-- The answers to `revoke`. -/
inductive RStatus where
  | ok
  | rpcerr
deriving DecidableEq, Repr

/-- Where `revoke_handler` is. -/
inductive Handler where
  /-- Called, or in the loop that waits for FREE or NONE. -/
  | waiting
  /-- In `dorelease`. -/
  | releasing
  | answered (status : RStatus)
deriving DecidableEq, Repr

/-- Where the thread of the server is that works on an `acquire`. -/
inductive Call where
  | requested
  | revoking (client : String) (handler : Handler)
  | retrying (client : String)
  | answered (status : Status)
  /-- A VERIFY has failed. -/
  | aborted
deriving DecidableEq, Repr

/-- Where a thread of a client is in `acquire` once it has set the status to ACQUIRING. -/
inductive Stage where
  | calling (call : Call)
  /-- At the loop that waits for RETRY. -/
  | retrying
  /-- In the second call, with the mutex. -/
  | recalling (call : Call)
  /-- A VERIFY has failed. -/
  | aborted
deriving DecidableEq, Repr

inductive Thread where
  | outside
  /-- At the first loop, which waits for FREE or NONE. -/
  | entering (lid : Nat)
  | acquiring (lid : Nat) (stage : Stage)
deriving DecidableEq, Repr

/-! ### The client -/

/-- A key that is missing in `lock_status_list` reads as NONE.  `mutex` says whether the mutex
    stays locked between two steps.  `holds` is not in the source: the locks that `acquire` has
    returned to a thread and that the thread has not released. -/
structure LockClientCache where
  status : Nat → LockStatus
  mutex : Bool
  thread : Nat → Thread
  holds : Nat → Nat → Bool

def LockClientCache.new : LockClientCache where
  status := fun _ => .none
  mutex := false
  thread := fun _ => .outside
  holds := fun _ _ => false

def LockClientCache.setStatus (c : LockClientCache) (lid : Nat) (status : LockStatus) :
    LockClientCache :=
  { c with status := Function.update c.status lid status }

def LockClientCache.setThread (c : LockClientCache) (t : Nat) (thread : Thread) :
    LockClientCache :=
  { c with thread := Function.update c.thread t thread }

def LockClientCache.setHolds (c : LockClientCache) (t lid : Nat) (held : Bool) :
    LockClientCache :=
  { c with holds := Function.update c.holds t (Function.update (c.holds t) lid held) }

def LockClientCache.setMutex (c : LockClientCache) (mutex : Bool) : LockClientCache :=
  { c with mutex := mutex }

/-- The thread calls `acquire`. -/
def LockClientCache.enter (c : LockClientCache) (t lid : Nat) : Option LockClientCache :=
  if c.thread t = .outside then some (c.setThread t (.entering lid)) else none

/-- `acquire` returns OK. -/
def LockClientCache.granted (c : LockClientCache) (t lid : Nat) : LockClientCache :=
  ((c.setStatus lid .locked).setThread t .outside).setHolds t lid true

/-- `acquire` after its first loop. -/
def LockClientCache.test (c : LockClientCache) (t : Nat) : Option LockClientCache :=
  match c.thread t, c.mutex with
  | .entering lid, false =>
      match c.status lid with
      | .none =>
          some ((c.setStatus lid .acquiring).setThread t (.acquiring lid (.calling .requested)))
      | .free => some (c.granted t lid)
      | _ => none
  | _, _ => none

/-- A call returns. -/
def LockClientCache.answered (c : LockClientCache) (t : Nat) : Option LockClientCache :=
  match c.thread t, c.mutex with
  | .acquiring lid (.calling (.answered .ok)), false => some (c.granted t lid)
  | .acquiring lid (.calling (.answered .retry)), false =>
      some (c.setThread t (.acquiring lid .retrying))
  | .acquiring lid (.recalling (.answered .ok)), _ => some ((c.granted t lid).setMutex false)
  | .acquiring lid (.recalling (.answered .retry)), _ =>
      some (c.setThread t (.acquiring lid .aborted))
  | _, _ => none

/-- The loop that waits for RETRY ends. -/
def LockClientCache.again (c : LockClientCache) (t : Nat) : Option LockClientCache :=
  match c.thread t, c.mutex with
  | .acquiring lid .retrying, false =>
      if c.status lid = .retry then
        some ((c.setThread t (.acquiring lid (.recalling .requested))).setMutex true)
      else none
  | _, _ => none

/-- `release` by a thread that has the lock. -/
def LockClientCache.release (c : LockClientCache) (t lid : Nat) : Option LockClientCache :=
  if c.mutex = false ∧ c.thread t = .outside ∧ c.holds t lid = true then
    some ((c.setStatus lid .free).setHolds t lid false)
  else none

/-- One critical section of `revoke_handler`.  If the lock is NONE, the handler returns without
    unlocking the mutex. -/
def LockClientCache.revokeHandler (c : LockClientCache) (lid : Nat) :
    Handler → Option (LockClientCache × Handler)
  | .waiting =>
      match c.mutex, c.status lid with
      | false, .free => some (c.setStatus lid .releasing, .releasing)
      | false, .none => some (c.setMutex true, .answered .rpcerr)
      | _, _ => none
  | .releasing => if c.mutex then none else some (c.setStatus lid .none, .answered .ok)
  | .answered _ => none

def LockClientCache.retryHandler (c : LockClientCache) (lid : Nat) : Option LockClientCache :=
  if c.mutex then none else some (c.setStatus lid .retry)

/-! ### The server -/

/-- `connection` are the clients that the server has a connection to. -/
structure LockServerCache where
  nacquire : Nat
  lockClientList : Nat → List String
  connection : List String

def LockServerCache.new : LockServerCache where
  nacquire := 0
  lockClientList := fun _ => []
  connection := []

/-- What `acquire` does after its first critical section. -/
inductive Turn where
  | answer (status : Status)
  | revoke (client : String)
deriving DecidableEq, Repr

/-- The list with the new client, and how `acquire` goes on. -/
def takeTurn (list : List String) (dst : String) : List String × Turn :=
  match list.idxOf dst, list with
  | 0, _ => (list, .answer .ok)
  | 1, client :: rest => (rest, .revoke client)
  | _, _ => (list, .answer .retry)

/-- The first critical section of `acquire`, with the value of `r`. -/
def LockServerCache.acquire (s : LockServerCache) (lid : Nat) (dst : String) :
    LockServerCache × Turn × Nat :=
  let turn := takeTurn (enlist (s.lockClientList lid) dst) dst
  ({ nacquire := s.nacquire + 1
     lockClientList := Function.update s.lockClientList lid turn.1
     connection := s.connection.insert dst },
    turn.2, s.nacquire + 1)

/-- The client that is told to ask again when a revoke has been answered. -/
def LockServerCache.retries (s : LockServerCache) (lid : Nat) : Option String :=
  (s.lockClientList lid).tail.head?

/-- A client is called through its connection. -/
def LockServerCache.reaches (s : LockServerCache) (client : String) (call : Call) : Call :=
  if client ∈ s.connection then call else .aborted

def LockServerCache.goOn (s : LockServerCache) : Turn → Call
  | .answer status => .answered status
  | .revoke client => s.reaches client (.revoking client .waiting)

/-- `acquire` from the answer to the revoke on.  After a retry the server unlocks its mutex once
    more than it has locked it. -/
def LockServerCache.revoked (s : LockServerCache) (lid : Nat) : RStatus → Call
  | .rpcerr => .aborted
  | .ok =>
      match s.retries lid with
      | none => .answered .ok
      | some client => s.reaches client (.retrying client)

/-! ### The service -/

structure LockCacheSystem where
  client : Nat → LockClientCache
  server : LockServerCache

inductive LockCacheSystem.Action where
  /-- Threads in `acquire` and `release`. -/
  | enter (c t lid : Nat)
  | test (c t : Nat)
  | answered (c t : Nat)
  | again (c t : Nat)
  | release (c t lid : Nat)
  /-- The thread of the server that works on the request of a thread, and the handlers that it
      calls at the client `target`. -/
  | serve (c t : Nat)
  | revoke (c t target : Nat)
  | revoked (c t : Nat)
  | retry (c t target : Nat)
deriving DecidableEq, Repr

/-- The request that a thread waits for. -/
def Thread.call? : Thread → Option (Nat × Call)
  | .acquiring lid (.calling call) => some (lid, call)
  | .acquiring lid (.recalling call) => some (lid, call)
  | _ => none

def Thread.setCall (call : Call) : Thread → Thread
  | .acquiring lid (.calling _) => .acquiring lid (.calling call)
  | .acquiring lid (.recalling _) => .acquiring lid (.recalling call)
  | thread => thread

def LockCacheSystem.call? (s : LockCacheSystem) (c t : Nat) : Option (Nat × Call) :=
  ((s.client c).thread t).call?

def LockCacheSystem.onClient (s : LockCacheSystem) (c : Nat) (client : LockClientCache) :
    LockCacheSystem :=
  { s with client := Function.update s.client c client }

def LockCacheSystem.setCall (s : LockCacheSystem) (c t : Nat) (call : Call) : LockCacheSystem :=
  s.onClient c ((s.client c).setThread t (((s.client c).thread t).setCall call))

def LockCacheSystem.serve (dst : Nat → String) (s : LockCacheSystem) (c t : Nat) :
    Option LockCacheSystem :=
  match s.call? c t with
  | some (lid, .requested) =>
      let out := s.server.acquire lid (dst c)
      some { s.setCall c t (out.1.goOn out.2.1) with server := out.1 }
  | _ => none

def LockCacheSystem.revoke (dst : Nat → String) (s : LockCacheSystem) (c t target : Nat) :
    Option LockCacheSystem :=
  match s.call? c t with
  | some (lid, .revoking client handler) =>
      if dst target = client then
        ((s.client target).revokeHandler lid handler).map fun out =>
          (s.onClient target out.1).setCall c t (.revoking client out.2)
      else none
  | _ => none

def LockCacheSystem.revoked (s : LockCacheSystem) (c t : Nat) : Option LockCacheSystem :=
  match s.call? c t with
  | some (lid, .revoking _ (.answered status)) => some (s.setCall c t (s.server.revoked lid status))
  | _ => none

def LockCacheSystem.retry (dst : Nat → String) (s : LockCacheSystem) (c t target : Nat) :
    Option LockCacheSystem :=
  match s.call? c t with
  | some (lid, .retrying client) =>
      if dst target = client then
        ((s.client target).retryHandler lid).map fun out =>
          (s.onClient target out).setCall c t (.answered .ok)
      else none
  | _ => none

def LockCacheSystem.step (dst : Nat → String) (s : LockCacheSystem) :
    LockCacheSystem.Action → Option LockCacheSystem
  | .enter c t lid => ((s.client c).enter t lid).map (s.onClient c)
  | .test c t => ((s.client c).test t).map (s.onClient c)
  | .answered c t => ((s.client c).answered t).map (s.onClient c)
  | .again c t => ((s.client c).again t).map (s.onClient c)
  | .release c t lid => ((s.client c).release t lid).map (s.onClient c)
  | .serve c t => s.serve dst c t
  | .revoke c t target => s.revoke dst c t target
  | .revoked c t => s.revoked c t
  | .retry c t target => s.retry dst c t target

def lockCacheSystem (dst : Nat → String) : System LockCacheSystem LockCacheSystem.Action where
  init := fun s => s = ⟨fun _ => LockClientCache.new, LockServerCache.new⟩
  step := LockCacheSystem.step dst

/-- No two threads have the same lock. -/
def LockCacheSystem.MutualExclusion (s : LockCacheSystem) : Prop :=
  ∀ lid c t c' t', (s.client c).holds t lid = true → (s.client c').holds t' lid = true →
    c = c' ∧ t = t'

/-- Every revoke that was answered was answered OK, and no VERIFY of the server has failed. -/
def LockCacheSystem.RevokesSucceed (s : LockCacheSystem) : Prop :=
  ∀ c t lid call, s.call? c t = some (lid, call) →
    call ≠ .aborted ∧ ∀ client status, call = .revoking client (.answered status) → status = .ok

end DistributedLab.LockCache
