import Mathlib.Algebra.Group.Nat.Defs
import Mathlib.Data.List.MinMax
import Mathlib.Logic.Function.Basic

/-!
# The caching lock client

`lock_client_cache_rsm` keeps a status for every lock.  Threads that want a lock wait
until it is FREE or NONE.  On FREE they take it, on NONE they ask the server, with a
new xid for every request.  A thread that gives a lock back leaves it FREE, and the
releaser thread returns FREE locks to the server when a revoke has woken it.

All of this runs under the mutex of the client except for the calls to the server,
where `++xid` is evaluated outside as well.  A step is a critical section, or the
`++xid` with the sending of the request.
-/

namespace DistributedLab.Lock

/-- `xid_t` is `unsigned long long`. -/
def xidBound : Nat := 2 ^ 64

inductive LockStatus where
  | none
  | free
  | locked
  | acquiring
  | releasing
  | retry
deriving DecidableEq, Repr

/-- Where a thread is in `acquire`. -/
inductive Thread where
  | outside
  /-- At the first loop, which waits for FREE or NONE. -/
  | entering (lid : Nat)
  /-- About to call the server. -/
  | sending (lid : Nat)
  | calling (lid xid : Nat)
  /-- At the loop that waits for RETRY. -/
  | retrying (lid : Nat)
deriving DecidableEq, Repr

/-- Where the releaser thread is. -/
inductive Releaser where
  /-- Waiting on `revoke_cond`. -/
  | resting
  /-- Its iterator is at a lock. -/
  | visiting (lid : Nat)
  | sending (lid : Nat)
  | calling (lid xid : Nat)
deriving DecidableEq, Repr

/-- A client.  `keys` are the locks in `lock_status_list`; `status` is NONE for the others.
    `holds` is not in the source: the locks that `acquire` has returned to a thread and that the
    thread has not released. -/
structure LockClient where
  xid : Nat
  status : Nat → LockStatus
  keys : List Nat
  thread : Nat → Thread
  releaser : Releaser
  holds : Nat → Nat → Bool

def LockClient.new : LockClient where
  xid := 0
  status := fun _ => .none
  keys := []
  thread := fun _ => .outside
  releaser := .resting
  holds := fun _ _ => false

/-! ### `acquire` and `release` -/

def LockClient.setStatus (c : LockClient) (lid : Nat) (status : LockStatus) : LockClient :=
  { c with status := Function.update c.status lid status }

def LockClient.setThread (c : LockClient) (t : Nat) (thread : Thread) : LockClient :=
  { c with thread := Function.update c.thread t thread }

def LockClient.setHolds (c : LockClient) (t lid : Nat) (held : Bool) : LockClient :=
  { c with holds := Function.update c.holds t (Function.update (c.holds t) lid held) }

/-- The thread calls `acquire`, which puts the lock into `lock_status_list`. -/
def LockClient.enter (c : LockClient) (t lid : Nat) : Option LockClient :=
  if c.thread t = .outside then
    some { c.setThread t (.entering lid) with keys := c.keys.insert lid }
  else none

/-- `acquire` returns OK. -/
def LockClient.granted (c : LockClient) (t lid : Nat) : LockClient :=
  ((c.setStatus lid .locked).setThread t .outside).setHolds t lid true

/-- `acquire` after its first loop. -/
def LockClient.test (c : LockClient) (t : Nat) : Option LockClient :=
  match c.thread t with
  | .entering lid =>
      match c.status lid with
      | .none => some ((c.setStatus lid .acquiring).setThread t (.sending lid))
      | .free => some (c.granted t lid)
      | _ => none
  | _ => none

/-- `++xid`. -/
def LockClient.nextXid (c : LockClient) : Nat := (c.xid + 1) % xidBound

/-- The call of `acquire` at the server: the client, the lock and the xid. -/
def LockClient.send (c : LockClient) (t : Nat) : Option (LockClient × Nat × Nat) :=
  match c.thread t with
  | .sending lid =>
      some ({ c.setThread t (.calling lid c.nextXid) with xid := c.nextXid }, lid, c.nextXid)
  | _ => none

/-- The call returns. -/
def LockClient.answered (c : LockClient) (t lid xid : Nat) (retry : Bool) : Option LockClient :=
  if c.thread t = .calling lid xid then
    some (if retry then c.setThread t (.retrying lid) else c.granted t lid)
  else none

/-- The loop that waits for RETRY ends. -/
def LockClient.again (c : LockClient) (t : Nat) : Option LockClient :=
  match c.thread t with
  | .retrying lid => if c.status lid = .retry then some (c.setThread t (.sending lid)) else none
  | _ => none

/-- `release` by a thread that has the lock. -/
def LockClient.release (c : LockClient) (t lid : Nat) : Option LockClient :=
  if c.thread t = .outside ∧ c.holds t lid = true then
    some ((c.setStatus lid .free).setHolds t lid false)
  else none

/-! ### The handlers and the releaser -/

def LockClient.retryHandler (c : LockClient) (lid : Nat) : LockClient :=
  { c.setStatus lid .retry with keys := c.keys.insert lid }

/-- Advance the iterator past `lid`. -/
def LockClient.visitAfter (c : LockClient) (lid : Nat) : Releaser :=
  match (c.keys.filter fun key => lid < key).min? with
  | some key => .visiting key
  | none => .resting

/-- The releaser wakes up and starts over. -/
def LockClient.wake (c : LockClient) : LockClient :=
  match c.releaser, c.keys.min? with
  | .resting, some key => { c with releaser := .visiting key }
  | _, _ => c

/-- The body of the loop up to the call of `release`; while the lock is in use, it waits. -/
def LockClient.visit (c : LockClient) : Option LockClient :=
  match c.releaser with
  | .visiting lid =>
      match c.status lid with
      | .free => some { c.setStatus lid .releasing with releaser := .sending lid }
      | .none => some { c with releaser := c.visitAfter lid }
      | _ => none
  | _ => none

def LockClient.sendRelease (c : LockClient) : Option (LockClient × Nat × Nat) :=
  match c.releaser with
  | .sending lid =>
      some ({ c with xid := c.nextXid, releaser := .calling lid c.nextXid }, lid, c.nextXid)
  | _ => none

/-- The call of `release` returns. -/
def LockClient.released (c : LockClient) (lid xid : Nat) : Option LockClient :=
  if c.releaser = .calling lid xid then
    some { c.setStatus lid .none with releaser := c.visitAfter lid }
  else none

end DistributedLab.Lock
