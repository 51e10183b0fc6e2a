import DistributedLab.LockCache

/-!
# Extents and their caches

An `extent_client` keeps the attributes and the content of extents.  `get` and
`getattr` fetch from the server what is missing, without the mutex during the call.
`put` and `remove` work on the cache only; `flush` brings their effect to the server.

A `yfs_client` accesses an extent while it has the lock of the same number, from the
constructor of a `YFSLock` to its destructor.  When the lock is revoked the lock client
calls `dorelease`.
-/

namespace DistributedLab.Extent

open Transition LockCache

/-- The two of the codes of `extent_protocol` that the server returns. -/
inductive Status where
  | ok
  | ioerr
deriving DecidableEq, Repr

/-- The bytes of a `std::string`. -/
abbrev Buf := List UInt8

structure Attr where
  atime : UInt32
  mtime : UInt32
  ctime : UInt32
  size : UInt32
deriving DecidableEq, Repr

/-- What `attributes[eid]` creates. -/
def Attr.zero : Attr := ⟨0, 0, 0, 0⟩

/-! ### The server -/

structure ExtentServer where
  contents : Nat → Option Buf
  attributes : Nat → Option Attr

def ExtentServer.new : ExtentServer where
  contents := Function.update (fun _ => none) 1 (some [])
  attributes := Function.update (fun _ => none) 1 (some Attr.zero)

/-- The field `atime` is not set; `junk` is what it happens to be. -/
def ExtentServer.put (s : ExtentServer) (id : Nat) (buf : Buf) (now junk : UInt32) :
    ExtentServer × Status :=
  ({ contents := Function.update s.contents id (some buf)
     attributes := Function.update s.attributes id
       (some ⟨junk, now, now, UInt32.ofNat buf.length⟩) }, .ok)

def ExtentServer.get (s : ExtentServer) (id : Nat) (now : UInt32) :
    ExtentServer × Status × Buf :=
  match s.contents id with
  | none => (s, .ioerr, [])
  | some buf =>
      ({ s with
          attributes := Function.update s.attributes id
            (some { (s.attributes id).getD Attr.zero with atime := now }) }, .ok, buf)

/-- On an error the attributes are not set; `junk` is what they happen to be. -/
def ExtentServer.getattr (s : ExtentServer) (id : Nat) (junk : Attr) : Status × Attr :=
  match s.attributes id with
  | none => (.ioerr, junk)
  | some attr => (.ok, attr)

def ExtentServer.remove (s : ExtentServer) (id : Nat) : ExtentServer × Status :=
  match s.contents id with
  | none => (s, .ioerr)
  | some _ =>
      ({ contents := Function.update s.contents id none
         attributes := Function.update s.attributes id none }, .ok)

/-! ### The client -/

structure ExtentClient where
  contents : Nat → Option Buf
  attributes : Nat → Option Attr

def ExtentClient.new : ExtentClient where
  contents := fun _ => none
  attributes := fun _ => none

inductive Op where
  | get
  | getattr
deriving DecidableEq, Repr

/-- Where a thread is in `get` or `getattr`. -/
inductive Access where
  | idle
  /-- Calling `getattr` at the server, and with its answer. -/
  | fetching (eid : Nat) (op : Op)
  | fetched (eid : Nat) (op : Op) (status : Status) (attr : Attr)
  /-- Calling `get` at the server, and with its answer. -/
  | reading (eid : Nat)
  | read (eid : Nat) (status : Status) (buf : Buf)
  /-- What the caller gets. -/
  | got (eid : Nat) (status : Status) (buf : Buf)
  | gotattr (eid : Nat) (status : Status) (attr : Attr)
deriving DecidableEq, Repr

def ExtentClient.setAttr (e : ExtentClient) (eid : Nat) (attr : Attr) : ExtentClient :=
  { e with attributes := Function.update e.attributes eid (some attr) }

def ExtentClient.setContent (e : ExtentClient) (eid : Nat) (buf : Buf) : ExtentClient :=
  { e with contents := Function.update e.contents eid (some buf) }

def ExtentClient.erase (e : ExtentClient) (eid : Nat) : ExtentClient where
  contents := Function.update e.contents eid none
  attributes := Function.update e.attributes eid none

/-- `attributes[eid].atime = time(NULL)`. -/
def ExtentClient.touch (e : ExtentClient) (eid : Nat) (now : UInt32) : ExtentClient :=
  e.setAttr eid { (e.attributes eid).getD Attr.zero with atime := now }

/-- The end of `get`, with the content in `buf`. -/
def ExtentClient.conclude (e : ExtentClient) (eid : Nat) (status : Status) (buf : Buf) :
    ExtentClient × Access :=
  (if status = .ok then e else e.erase eid, .got eid status buf)

/-- `get` when the attributes are there. -/
def ExtentClient.readContent (e : ExtentClient) (eid : Nat) (status : Status) (now : UInt32) :
    ExtentClient × Access :=
  match e.contents eid with
  | none => (e.touch eid now, .reading eid)
  | some buf => (e.touch eid now).conclude eid status buf

def ExtentClient.get (e : ExtentClient) (eid : Nat) (now : UInt32) : ExtentClient × Access :=
  match e.attributes eid with
  | none => (e, .fetching eid .get)
  | some _ => e.readContent eid .ok now

def ExtentClient.getattr (e : ExtentClient) (eid : Nat) : ExtentClient × Access :=
  match e.attributes eid with
  | none => (e, .fetching eid .getattr)
  | some attr => (e, .gotattr eid .ok attr)

/-- `get` or `getattr` after a call. -/
def ExtentClient.resume (e : ExtentClient) (now : UInt32) : Access → Option (ExtentClient × Access)
  | .fetched eid .get status attr => some ((e.setAttr eid attr).readContent eid status now)
  | .fetched eid .getattr status attr =>
      some (if status = .ok then e.setAttr eid attr else e.erase eid, .gotattr eid status attr)
  | .read eid status buf => some ((e.setContent eid buf).conclude eid status buf)
  | _ => none

/-- The server works on a call. -/
def ExtentServer.answer (s : ExtentServer) (now : UInt32) (junk : Attr) :
    Access → Option (ExtentServer × Access)
  | .fetching eid op =>
      some (s, .fetched eid op (s.getattr eid junk).1 (s.getattr eid junk).2)
  | .reading eid => some ((s.get eid now).1, .read eid (s.get eid now).2.1 (s.get eid now).2.2)
  | _ => none

/-- The clock is read twice. -/
def ExtentClient.put (e : ExtentClient) (eid : Nat) (buf : Buf) (now later : UInt32) :
    ExtentClient :=
  (e.setAttr eid { (e.attributes eid).getD Attr.zero with
    mtime := now, ctime := later, size := UInt32.ofNat buf.length }).setContent eid buf

def ExtentClient.remove (e : ExtentClient) (eid : Nat) : ExtentClient := e.erase eid

def ExtentClient.flush (e : ExtentClient) (s : ExtentServer) (eid : Nat) (now junk : UInt32) :
    ExtentClient × ExtentServer × Status :=
  match e.attributes eid, e.contents eid with
  | none, _ => (e.erase eid, s.remove eid)
  | some _, some buf => (e.erase eid, s.put eid buf now junk)
  | some _, none => (e.erase eid, s, .ok)

/-- In `lock_release_user_cache::dorelease` the call of `flush` is commented out, as it is in the
    destructor of `YFSLock`. -/
def ExtentClient.dorelease (e : ExtentClient) (_lid : Nat) : ExtentClient := e

/-! ### Processes with locks and extents -/

/-- A `put` or, without content, a `remove`. -/
structure Write where
  process : Nat
  content : Option Buf
deriving DecidableEq, Repr

/-- What a `get` is to return after a write. -/
def Write.Agrees (w : Write) (status : Status) (buf : Buf) : Prop :=
  match w.content with
  | some content => status = .ok ∧ buf = content
  | none => status ≠ .ok

/-- The processes with one lock server and one extent server.  `last` is not in the source: the
    most recent `put` or `remove` on an extent. -/
structure FileSystem where
  locks : LockCacheSystem
  client : Nat → ExtentClient
  access : Nat → Nat → Access
  server : ExtentServer
  last : Nat → Option Write

inductive FileSystem.Action where
  | lock (action : LockCacheSystem.Action)
  /-- A thread of a process accesses an extent. -/
  | get (c t eid : Nat) (now : UInt32)
  | getattr (c t eid : Nat)
  | put (c t eid : Nat) (buf : Buf) (now later : UInt32)
  | remove (c t eid : Nat)
  /-- The extent server works on the call of a thread, the thread goes on, and it returns. -/
  | answer (c t : Nat) (now : UInt32) (junk : Attr)
  | resume (c t : Nat) (now : UInt32)
  | finish (c t : Nat)
deriving DecidableEq, Repr

/-- The thread is between the constructor and the destructor of a `YFSLock` of this extent, and
    does nothing else. -/
def FileSystem.locked (s : FileSystem) (c t eid : Nat) : Bool :=
  (s.locks.client c).holds t eid && decide ((s.locks.client c).thread t = .outside) &&
    decide (s.access c t = .idle)

/-- A thread calls `acquire` and `release` while it is not in an extent access. -/
def FileSystem.mayLock (s : FileSystem) : LockCacheSystem.Action → Bool
  | .enter c t _ => decide (s.access c t = .idle)
  | .release c t _ => decide (s.access c t = .idle)
  | _ => true

def FileSystem.onClient (s : FileSystem) (c t : Nat) (out : ExtentClient × Access) : FileSystem :=
  { s with
    client := Function.update s.client c out.1
    access := Function.update s.access c (Function.update (s.access c) t out.2) }

/-- The end of `dorelease` comes before the second critical section of `revoke_handler`. -/
def FileSystem.dorelease (s : FileSystem) : LockCacheSystem.Action → FileSystem
  | .revoke c t target =>
      match s.locks.call? c t with
      | some (lid, .revoking _ .releasing) =>
          { s with client := Function.update s.client target ((s.client target).dorelease lid) }
      | _ => s
  | _ => s

def FileSystem.written (s : FileSystem) (c eid : Nat) (client : ExtentClient)
    (content : Option Buf) : FileSystem :=
  { s with
    client := Function.update s.client c client
    last := Function.update s.last eid (some ⟨c, content⟩) }

def FileSystem.step (dst : Nat → String) (s : FileSystem) : FileSystem.Action → Option FileSystem
  | .lock action =>
      if s.mayLock action then
        (s.locks.step dst action).map fun locks => { s.dorelease action with locks := locks }
      else none
  | .get c t eid now =>
      if s.locked c t eid then some (s.onClient c t ((s.client c).get eid now)) else none
  | .getattr c t eid =>
      if s.locked c t eid then some (s.onClient c t ((s.client c).getattr eid)) else none
  | .put c t eid buf now later =>
      if s.locked c t eid then
        some (s.written c eid ((s.client c).put eid buf now later) (some buf))
      else none
  | .remove c t eid =>
      if s.locked c t eid then some (s.written c eid ((s.client c).remove eid) none) else none
  | .answer c t now junk =>
      (s.server.answer now junk (s.access c t)).map fun out =>
        { s.onClient c t (s.client c, out.2) with server := out.1 }
  | .resume c t now => ((s.client c).resume now (s.access c t)).map (s.onClient c t)
  | .finish c t =>
      match s.access c t with
      | .got _ _ _ => some (s.onClient c t (s.client c, .idle))
      | .gotattr _ _ _ => some (s.onClient c t (s.client c, .idle))
      | _ => none

def fileSystem (dst : Nat → String) : System FileSystem FileSystem.Action where
  init := fun s => s = ⟨⟨fun _ => LockClientCache.new, LockServerCache.new⟩,
    fun _ => ExtentClient.new, fun _ _ => .idle, ExtentServer.new, fun _ => none⟩
  step := FileSystem.step dst

/-- What `get` returns is what the most recent `put` or `remove` has left. -/
def FileSystem.Coherent (s : FileSystem) : Prop :=
  ∀ c t eid status buf, s.access c t = .got eid status buf →
    ∀ w, s.last eid = some w → w.Agrees status buf

/-- `get` is called by the process of the most recent `put` or `remove`.  After a `remove` the
    extent is not the root directory, which the server has from the start. -/
def FileSystem.own (s : FileSystem) : FileSystem.Action → Prop
  | .get c _ eid _ => ∀ w, s.last eid = some w → w.process = c ∧ (w.content = none → eid ≠ 1)
  | _ => True

end DistributedLab.Extent
