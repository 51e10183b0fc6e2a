import Mathlib.Data.List.Nodup
import Mathlib.Logic.Function.Basic

/-!
# The lock server

`lock_server_cache_rsm` keeps for every lock the clients that want it, in the order of
their requests.  The first one has the lock or is to be told to ask again, which the
flag in `locks` tells apart.  For every client and lock the server keeps the xid of
the last `release`, and answers requests with older xids OK without looking at the
queue: they are repetitions.

The revoker and the retryer hold the mutex of the server while they call a client, so
no request is executed during such a call.
-/

namespace DistributedLab.Lock

/-- The answers to `acquire`; `release` is always answered OK. -/
inductive Status where
  | ok
  | retry
deriving DecidableEq, Repr

/-- A key that is missing in `client_lock_id` reads as 0, one missing in `lock_client_list` as
    the empty list. -/
structure LockServer where
  locks : Nat → Option Bool
  lockClientList : Nat → List String
  clientLockId : Nat → Nat → Nat

def LockServer.new : LockServer where
  locks := fun _ => none
  lockClientList := fun _ => []
  clientLockId := fun _ _ => 0

/-- `push_back` unless the client is in the list. -/
def enlist (list : List String) (dst : String) : List String :=
  if dst ∈ list then list else list ++ [dst]

def LockServer.acquire (s : LockServer) (clt lid : Nat) (dst : String) (xid : Nat) :
    LockServer × Status :=
  if xid < s.clientLockId clt lid then (s, .ok)
  else if xid = s.clientLockId clt lid then (s, .ok)
  else
    let list := enlist (s.lockClientList lid) dst
    let t := { s with lockClientList := Function.update s.lockClientList lid list }
    if list.idxOf dst = 0 then
      ({ t with locks := Function.update t.locks lid (some true) }, .ok)
    else (t, .retry)

def LockServer.release (s : LockServer) (clt lid : Nat) (dst : String) (xid : Nat) :
    LockServer × Status :=
  if xid < s.clientLockId clt lid then (s, .ok)
  else if xid = s.clientLockId clt lid then (s, .ok)
  else
    let t := { s with
      clientLockId := Function.update s.clientLockId clt
        (Function.update (s.clientLockId clt) lid xid) }
    if (t.lockClientList lid).head? = some dst then
      ({ t with
        locks := Function.update t.locks lid (some false)
        lockClientList := Function.update t.lockClientList lid (t.lockClientList lid).tail }, .ok)
    else (t, .ok)

/-- The client that the revoker calls for a lock. -/
def LockServer.revokes (s : LockServer) (lid : Nat) : Option String :=
  if s.locks lid = some true ∧ 1 < (s.lockClientList lid).length then
    (s.lockClientList lid).head?
  else none

/-- The client that the retryer calls for a lock. -/
def LockServer.retries (s : LockServer) (lid : Nat) : Option String :=
  if s.locks lid = some false then (s.lockClientList lid).head? else none

/-! ### What the handlers do -/

section Enlist

variable {list : List String} {dst other : String}

theorem mem_enlist : other ∈ enlist list dst ↔ other ∈ list ∨ other = dst := by
  unfold enlist
  split_ifs with hmem
  · constructor
    · exact .inl
    · rintro (h | rfl)
      · exact h
      · exact hmem
  · simp

theorem nodup_enlist (h : list.Nodup) : (enlist list dst).Nodup := by
  unfold enlist
  split_ifs with hmem
  · exact h
  · rw [List.nodup_append]
    refine ⟨h, List.nodup_singleton dst, ?_⟩
    intro client hclient other hother
    rw [List.mem_singleton.mp hother]
    rintro rfl
    exact hmem hclient

/-- A queue that is not empty keeps its front. -/
theorem head?_enlist (h : list.head? = some other) : (enlist list dst).head? = some other := by
  unfold enlist
  split_ifs
  · exact h
  · rw [List.head?_append, h, Option.some_or]

theorem head?_of_idxOf_enlist (h : (enlist list dst).idxOf dst = 0) :
    (enlist list dst).head? = some dst := by
  have hmem : dst ∈ enlist list dst := mem_enlist.mpr (.inr rfl)
  rcases hlist : enlist list dst with _ | ⟨first, rest⟩
  · rw [hlist] at hmem
    cases hmem
  · rw [hlist] at h
    by_contra hne
    have hfirst : ¬ first = dst := by simpa using hne
    simp [hfirst] at h

end Enlist

/-- The two ways in which `acquire` can go. -/
inductive LockServer.Acquired (s : LockServer) (clt lid : Nat) (dst : String) (xid : Nat) :
    LockServer × Status → Prop
  | stale (h : xid ≤ s.clientLockId clt lid) : Acquired s clt lid dst xid (s, .ok)
  | queued (t : LockServer) (status : Status) (h : s.clientLockId clt lid < xid)
      (hlist : t.lockClientList =
        Function.update s.lockClientList lid (enlist (s.lockClientList lid) dst))
      (hid : t.clientLockId = s.clientLockId)
      (hlocks : t.locks = s.locks ∨ t.locks = Function.update s.locks lid (some true))
      (hok : status = .ok → (t.lockClientList lid).head? = some dst ∧ t.locks lid = some true) :
      Acquired s clt lid dst xid (t, status)

theorem LockServer.acquired (s : LockServer) (clt lid : Nat) (dst : String) (xid : Nat) :
    s.Acquired clt lid dst xid (s.acquire clt lid dst xid) := by
  simp only [LockServer.acquire]
  split_ifs with hlt heq hpos
  · exact .stale (Nat.le_of_lt hlt)
  · exact .stale (Nat.le_of_eq heq)
  · refine .queued _ _ (by omega) rfl rfl (.inr rfl) ?_
    intro _
    constructor
    · simpa using head?_of_idxOf_enlist hpos
    · simp
  · exact .queued _ _ (by omega) rfl rfl (.inl rfl) nofun

/-- The two ways in which `release` can go for the client at the front. -/
inductive LockServer.Released (s : LockServer) (clt lid xid : Nat) : LockServer × Status → Prop
  | stale (h : xid ≤ s.clientLockId clt lid) : Released s clt lid xid (s, .ok)
  | popped (t : LockServer) (h : s.clientLockId clt lid < xid)
      (hlist : t.lockClientList =
        Function.update s.lockClientList lid (s.lockClientList lid).tail)
      (hid : t.clientLockId = Function.update s.clientLockId clt
        (Function.update (s.clientLockId clt) lid xid))
      (hlocks : t.locks = Function.update s.locks lid (some false)) :
      Released s clt lid xid (t, .ok)

theorem LockServer.released {s : LockServer} {clt lid : Nat} {dst : String} {xid : Nat}
    (hfront : s.clientLockId clt lid < xid → (s.lockClientList lid).head? = some dst) :
    s.Released clt lid xid (s.release clt lid dst xid) := by
  simp only [LockServer.release]
  split_ifs with hlt heq hhead
  · exact .stale (Nat.le_of_lt hlt)
  · exact .stale (Nat.le_of_eq heq)
  · exact .popped _ (by omega) rfl rfl rfl
  · exact absurd (hfront (by omega)) hhead

end DistributedLab.Lock
