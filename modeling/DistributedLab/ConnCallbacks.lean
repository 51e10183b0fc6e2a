import DistributedLab.PollMgr
import DistributedLab.RpcConnections

/-!
# Connections and the poll thread

The poll thread calls the callbacks of a connection without holding a reference to it.  A
connection is deleted with its last reference once it is dead, and then its descriptor is closed,
which the system may give to a new connection at once.  What keeps the poll thread from a deleted
connection is the order of the steps by which a connection dies: a callback that finds the other
end gone removes itself before it marks the connection dead, and any other thread marks it first
and then waits for `block_remove_fd`, with a reference of its own.

A step is what a thread does under the mutex of the connection, or a step of the poll manager.
Threads act on connections that they have a reference to, and a thread that is in a call does
nothing else.  `block_remove_fd` waits without a loop, so everything here rests on
`pthread_cond_wait` not returning without a signal: after such a wakeup the descriptor is closed
and the connection deleted while the poll thread may still be about to call it.
-/

namespace DistributedLab.Rpc

open Transition Monitor

/-- `class connection`, as the poll thread knows it. -/
structure PolledConn extends Conn where
  fd : Nat
deriving DecidableEq, Repr

/-- What a thread is in the middle of. -/
inductive ConnCall where
  /-- It has marked the connection dead and is about to call `block_remove_fd`. -/
  | marked (c : ConnPtr)
  | removing (c : ConnPtr) (fd : Nat)
  /-- In `send`, waiting for the poll thread to write the rest. -/
  | sending (c : ConnPtr)
deriving DecidableEq, Repr

def ConnCall.conn : ConnCall → ConnPtr
  | .marked c | .removing c _ | .sending c => c

/-- The descriptor that the thread waits for in `block_remove_fd`. -/
def ConnCall.removes : ConnCall → Option Nat
  | .removing _ fd => some fd
  | _ => none

/-- The connections of a process.  `fds` are the descriptors that are open, and `refs` who has
    references to what. -/
structure Sockets where
  poll : PollMgr
  heap : ConnPtr → Option PolledConn
  fds : Finset Nat
  refs : List (Nat × ConnPtr)
  calls : Nat → Option ConnCall

def Sockets.create (pipefd : Nat) : Sockets :=
  ⟨.create pipefd, fun _ => none, ∅, [], fun _ => none⟩

def Sockets.setConn (s : Sockets) (c : ConnPtr) (conn : Option PolledConn) : Sockets :=
  { s with heap := Function.update s.heap c conn }

def Sockets.setCall (s : Sockets) (t : Nat) (call : Option ConnCall) : Sockets :=
  { s with calls := Function.update s.calls t call }

/-- How far `send` gets with its first `writepdu`. -/
inductive SendOutcome where
  | written
  /-- The poll thread has to write the rest. -/
  | rest
  | failed
deriving DecidableEq, Repr

/-- What `read_cb` comes to. -/
inductive ReadOutcome where
  | nothing
  /-- `got_pdu` queues the request with a reference for `t`. -/
  | passed (t : Nat)
  | failed
deriving DecidableEq, Repr

/-- What `write_cb` comes to; `idle` is when there is nothing to write. -/
inductive WriteOutcome where
  | idle
  | wrote
  | failed
deriving DecidableEq, Repr

/-- `connection::connection`, with a descriptor and a place in memory that are not in use. -/
def Sockets.connect (s : Sockets) (t : Nat) (c : ConnPtr) (fd : Nat) (time : Nat × Nat) :
    Option Sockets :=
  if s.heap c = none ∧ fd ∉ s.fds ∧ fd ≠ s.poll.aio.pipefd then
    (s.poll.addCallback fd .rdonly c).map fun poll =>
      { s with
        poll := poll
        heap := Function.update s.heap c (some ⟨⟨1, false, time⟩, fd⟩)
        fds := insert fd s.fds
        refs := (t, c) :: s.refs }
  else none

/-- `connection::incref`, for a reference that `t` is given. -/
def Sockets.incref (s : Sockets) (t : Nat) (c : ConnPtr) : Option Sockets :=
  (s.heap c).map fun conn =>
    { s.setConn c (some { conn with refno := conn.refno + 1 }) with refs := (t, c) :: s.refs }

/-- `connection::decref`. -/
def Sockets.decref (s : Sockets) (t : Nat) (c : ConnPtr) : Option Sockets :=
  (s.heap c).bind fun conn =>
    let rest := { s with refs := s.refs.erase (t, c) }
    if conn.refno - 1 < 0 then none
    else if conn.refno - 1 = 0 ∧ conn.dead = true then
      some { rest.setConn c none with fds := s.fds.erase conn.fd }
    else some (rest.setConn c (some { conn with refno := conn.refno - 1 }))

/-- `closeconn`, and a `send` that fails, up to the call of `block_remove_fd`. -/
def Sockets.mark (s : Sockets) (t : Nat) (c : ConnPtr) (conn : PolledConn) : Sockets :=
  (s.setConn c (some { conn with dead := true })).setCall t (some (.marked c))

def Sockets.closeconn (s : Sockets) (t : Nat) (c : ConnPtr) : Option Sockets :=
  (s.heap c).map fun conn => if conn.dead then s else s.mark t c conn

/-- `connection::send` up to its second wait, when the turn of the thread has come. -/
def Sockets.send (s : Sockets) (t : Nat) (c : ConnPtr) (outcome : SendOutcome) :
    Option Sockets :=
  (s.heap c).bind fun conn =>
    if conn.dead then some s
    else match outcome with
      | .written => some s
      | .rest =>
          (s.poll.addCallback conn.fd .wronly c).map fun poll =>
            { s with poll := poll }.setCall t (some (.sending c))
      | .failed => some (s.mark t c conn)

/-- `send` after its second wait. -/
def Sockets.sendReturns (s : Sockets) (t : Nat) : Option Sockets :=
  match s.calls t with
  | some (.sending _) => some (s.setCall t none)
  | _ => none

/-- The call of `block_remove_fd`. -/
def Sockets.remove (s : Sockets) (t : Nat) : Option Sockets :=
  match s.calls t with
  | some (.marked c) =>
      (s.heap c).bind fun conn =>
        (s.poll.blockRemoveFd t conn.fd).map fun poll =>
          { s with poll := poll }.setCall t (some (.removing c conn.fd))
  | _ => none

def Sockets.removeReturns (s : Sockets) (t : Nat) : Option Sockets :=
  match s.calls t with
  | some (.removing _ fd) =>
      (s.poll.removeReturns t fd).map fun poll => { s with poll := poll }.setCall t none
  | _ => none

/-- The poll thread goes on after a callback. -/
def PollMgr.returned (s : PollMgr) (readable writable : List Nat) : PollMgr :=
  { s with stage := .calling readable writable }

/-- A callback that fails: the descriptor is removed and the connection is dead. -/
def Sockets.fail (s : Sockets) (c : ConnPtr) (conn : PolledConn) (readable writable : List Nat) :
    Option Sockets :=
  (s.poll.delCallback conn.fd .rdwr).map fun poll =>
    { s with poll := poll.returned readable writable }.setConn c
      (some { conn with dead := true })

/-- `connection::read_cb`.  It uses the connection, so it must not be called on a deleted one, and
    verifies that the descriptor is its own. -/
def Sockets.readCb (s : Sockets) (outcome : ReadOutcome) : Option Sockets :=
  match s.poll.stage with
  | .inCallback false c fd readable writable =>
      (s.heap c).bind fun conn =>
        if conn.fd ≠ fd then none
        else if conn.dead then some { s with poll := s.poll.returned readable writable }
        else match outcome with
          | .nothing => some { s with poll := s.poll.returned readable writable }
          | .passed t => { s with poll := s.poll.returned readable writable }.incref t c
          | .failed => s.fail c conn readable writable
  | _ => none

/-- `connection::write_cb`, which does not expect a dead connection. -/
def Sockets.writeCb (s : Sockets) (outcome : WriteOutcome) : Option Sockets :=
  match s.poll.stage with
  | .inCallback true c fd readable writable =>
      (s.heap c).bind fun conn =>
        if conn.dead then none
        else if conn.fd ≠ fd then none
        else match outcome with
          | .idle =>
              (s.poll.delCallback conn.fd .wronly).map fun poll =>
                { s with poll := poll.returned readable writable }
          | .wrote => some { s with poll := s.poll.returned readable writable }
          | .failed => s.fail c conn readable writable
  | _ => none

/-- The steps of `wait_loop` itself. -/
def PollAction.loops : PollAction → Bool
  | .top | .copy | .select _ _ | .interrupted | .check | .call => true
  | _ => false

inductive SocketsAction where
  | connect (t : Nat) (c : ConnPtr) (fd : Nat) (time : Nat × Nat)
  /-- `t` passes a reference on to `t'`. -/
  | incref (t t' : Nat) (c : ConnPtr)
  | decref (t : Nat) (c : ConnPtr)
  | closeconn (t : Nat) (c : ConnPtr)
  | send (t : Nat) (c : ConnPtr) (outcome : SendOutcome)
  | sendReturns (t : Nat)
  | remove (t : Nat)
  | removeReturns (t : Nat)
  | loop (action : PollAction)
  | readCb (outcome : ReadOutcome)
  | writeCb (outcome : WriteOutcome)

def Sockets.step (s : Sockets) : SocketsAction → Option Sockets
  | .connect t c fd time => s.connect t c fd time
  | .incref _ t' c => s.incref t' c
  | .decref t c => s.decref t c
  | .closeconn t c => s.closeconn t c
  | .send t c outcome => s.send t c outcome
  | .sendReturns t => s.sendReturns t
  | .remove t => s.remove t
  | .removeReturns t => s.removeReturns t
  | .loop action =>
      if action.loops then (s.poll.step action).map fun poll => { s with poll := poll } else none
  | .readCb outcome => s.readCb outcome
  | .writeCb outcome => s.writeCb outcome

def sockets (pipefd : Nat) : System Sockets SocketsAction where
  init s := s = .create pipefd
  step := Sockets.step

/-- `t` may use the connection. -/
def Sockets.Holds (s : Sockets) (t : Nat) (c : ConnPtr) : Prop :=
  (t, c) ∈ s.refs ∧ s.calls t = none

/-- Threads use the connections that they have a reference to, one call at a time. -/
def Sockets.Owned (s : Sockets) : SocketsAction → Prop
  | .incref t _ c | .decref t c | .closeconn t c | .send t c _ => s.Holds t c
  | _ => True

instance (s : Sockets) (t : Nat) (c : ConnPtr) : Decidable (s.Holds t c) :=
  inferInstanceAs (Decidable (_ ∧ _))

instance (s : Sockets) : DecidablePred s.Owned
  | .incref t _ c | .decref t c | .closeconn t c | .send t c _ =>
      inferInstanceAs (Decidable (s.Holds t c))
  | .connect _ _ _ _ | .sendReturns _ | .remove _ | .removeReturns _ | .loop _ | .readCb _
  | .writeCb _ => inferInstanceAs (Decidable True)

/-! ### The invariant -/

/-- The thread is about to remove the connection's descriptor, or does. -/
def ConnCall.Removes (c : ConnPtr) : ConnCall → Prop
  | .marked c' | .removing c' _ => c = c'
  | .sending _ => False

/-- Somebody is about to remove the connection's descriptor, or does. -/
def Sockets.Removed (s : Sockets) (c : ConnPtr) : Prop :=
  ∃ t call, s.calls t = some call ∧ call.Removes c

def Sockets.fdOf (s : Sockets) (c : ConnPtr) : Option Nat := (s.heap c).map PolledConn.fd

def Sockets.Dead (s : Sockets) (c : ConnPtr) : Prop :=
  ∃ conn, s.heap c = some conn ∧ conn.dead = true

/-- The poll thread waits for the descriptor. -/
def PollStage.Selects (stage : PollStage) (fd : Nat) : Prop :=
  ∃ sets, stage = .selecting sets ∧ fd ∈ sets.rfds ∪ sets.wfds

theorem PollStage.not_selects {stage : PollStage} (h : ∀ sets, stage ≠ .selecting sets) (fd : Nat) :
    ¬ stage.Selects fd := fun ⟨sets, hsets, _⟩ => h sets hsets

structure Sockets.Inv (pipefd : Nat) (s : Sockets) : Prop where
  /-- The poll manager is used in the way it asks for. -/
  poll : (pollMgr pipefd).Reach PollMgr.Orderly s.poll
  refno : ∀ c conn, s.heap c = some conn → conn.refno = (s.refs.countP fun p => p.2 = c : Nat)
  alive : ∀ p ∈ s.refs, s.fdOf p.2 ≠ none
  opened : ∀ c fd, s.fdOf c = some fd → fd ∈ s.fds ∧ fd ≠ pipefd
  distinct : ∀ c c' fd, s.fdOf c = some fd → s.fdOf c' = some fd → c = c'
  calls : ∀ t call, s.calls t = some call → (t, call.conn) ∈ s.refs
  dying : ∀ t call c, s.calls t = some call → call.Removes c →
    s.Dead c ∧ ∀ fd, call.removes = some fd → s.fdOf c = some fd
  waits : ∀ t fd, s.poll.changedone.count (t, fd) =
    if (s.calls t).bind ConnCall.removes = some fd then 1 else 0
  registered : ∀ fd c, s.poll.callbacks fd = some c → s.fdOf c = some fd
  watched : ∀ fd ∈ s.poll.aio.rfds ∪ s.poll.aio.wfds, fd ≠ pipefd → s.poll.callbacks fd ≠ none
  running : ∀ write c fd readable writable,
    s.poll.stage = .inCallback write c fd readable writable → s.poll.callbacks fd = some c
  /-- A dead connection is being removed, or the poll thread has nothing to do with it. -/
  quiet : ∀ c fd, s.fdOf c = some fd → s.Dead c →
    s.Removed c ∨ s.poll.callbacks fd = none ∧ ¬ s.poll.stage.Selects fd
  selected : ∀ fd, s.poll.stage.Selects fd → fd ≠ pipefd → fd ∈ s.fds

theorem Sockets.inv_create (pipefd : Nat) : (Sockets.create pipefd).Inv pipefd where
  poll := .init rfl
  refno := nofun
  alive := nofun
  opened := nofun
  distinct := nofun
  calls := nofun
  dying := nofun
  waits := fun _ _ => rfl
  registered := nofun
  watched := by
    intro fd hfd hne
    refine absurd ?_ hne
    simpa [Sockets.create, PollMgr.create, SelectAio.create] using hfd
  running := nofun
  quiet := nofun
  selected := by
    rintro fd ⟨sets, hstage, -⟩
    cases hstage

section Facts

variable {pipefd : Nat} {s : Sockets}

theorem Sockets.fdOf_eq {c : ConnPtr} {conn : PolledConn} (h : s.heap c = some conn) :
    s.fdOf c = some conn.fd := by
  rw [Sockets.fdOf, h]
  rfl

theorem Sockets.dead_iff {c : ConnPtr} {conn : PolledConn} (h : s.heap c = some conn) :
    s.Dead c ↔ conn.dead = true := by
  constructor
  · rintro ⟨conn', h', hdead⟩
    cases h.symm.trans h'
    exact hdead
  · exact fun hdead => ⟨conn, h, hdead⟩

/-- Who is in `block_remove_fd` for a descriptor. -/
theorem Sockets.Inv.removes_of_waits {t fd : Nat} (hs : s.Inv pipefd)
    (h : 0 < s.poll.changedone.count (t, fd)) :
    ∃ c, s.calls t = some (.removing c fd) := by
  rw [hs.waits] at h
  split at h
  · next hremoves =>
      obtain ⟨call, hcall, hfd⟩ := Option.bind_eq_some_iff.mp hremoves
      cases call with
      | removing c x =>
          cases hfd
          exact ⟨c, hcall⟩
      | marked c => cases hfd
      | sending c => cases hfd
  · exact absurd h (Nat.lt_irrefl 0)

/-- A descriptor of which no dead connection is left is not being removed. -/
theorem Sockets.Inv.not_removed {fd : Nat} (hs : s.Inv pipefd)
    (hfd : ∀ c, s.fdOf c = some fd → ¬ s.Dead c) :
    (∀ p ∈ s.poll.changedone.waiting, p.2 ≠ fd) ∧
      ∀ p ∈ s.poll.changedone.woken, p.2 ≠ fd := by
  have hnone : ∀ t, ¬ 0 < s.poll.changedone.count (t, fd) := by
    intro t hpos
    obtain ⟨c, hcall⟩ := hs.removes_of_waits hpos
    obtain ⟨hdead, hfds⟩ := hs.dying t _ c hcall rfl
    exact hfd c (hfds fd rfl) hdead
  constructor
  · rintro ⟨t, x⟩ hp rfl
    exact hnone t (Cond.count_pos_of_waiting hp)
  · rintro ⟨t, x⟩ hp rfl
    exact hnone t (Cond.count_pos_of_woken hp)

end Facts

/-! ### References -/

section References

variable {pipefd : Nat} {s : Sockets} {c : ConnPtr} {conn conn' : PolledConn}

theorem Sockets.fdOf_setConn (hconn : s.heap c = some conn) (hfd : conn'.fd = conn.fd) :
    (s.setConn c (some conn')).fdOf = s.fdOf := by
  funext x
  by_cases hx : x = c
  · subst hx
    simp [Sockets.fdOf, Sockets.setConn, hconn, hfd]
  · simp [Sockets.fdOf, Sockets.setConn, hx]

theorem Sockets.dead_setConn (hconn : s.heap c = some conn) (hdead : conn'.dead = conn.dead)
    (x : ConnPtr) : (s.setConn c (some conn')).Dead x ↔ s.Dead x := by
  by_cases hx : x = c
  · subst hx
    have hset : (s.setConn x (some conn')).heap x = some conn' := Function.update_self ..
    rw [Sockets.dead_iff hset, Sockets.dead_iff hconn, hdead]
  · have hset : (s.setConn c (some conn')).heap x = s.heap x := Function.update_of_ne hx ..
    simp only [Sockets.Dead, hset]

/-- The count of a connection goes with the references. -/
theorem Sockets.Inv.recount {refs : List (Nat × ConnPtr)} (hs : s.Inv pipefd)
    (hconn : s.heap c = some conn) (hfd : conn'.fd = conn.fd) (hdead : conn'.dead = conn.dead)
    (hrefno : conn'.refno = (refs.countP fun p => p.2 = c : Nat))
    (hothers : ∀ x ≠ c, refs.countP (fun p => p.2 = x) = s.refs.countP (fun p => p.2 = x))
    (halive : ∀ p ∈ refs, p.2 = c ∨ p ∈ s.refs)
    (hcalls : ∀ t call, s.calls t = some call → (t, call.conn) ∈ refs) :
    { s.setConn c (some conn') with refs := refs }.Inv pipefd := by
  have hfds := Sockets.fdOf_setConn hconn hfd
  have hdeads := Sockets.dead_setConn hconn hdead
  refine ⟨hs.poll, ?_, ?_, ?_, ?_, hcalls, ?_, hs.waits, ?_, hs.watched, hs.running, ?_,
    hs.selected⟩
  · intro x y hy
    by_cases hx : x = c
    · subst hx
      have hset : (s.setConn x (some conn')).heap x = some conn' := Function.update_self ..
      cases hset.symm.trans hy
      exact hrefno
    · have hset : (s.setConn c (some conn')).heap x = s.heap x := Function.update_of_ne hx ..
      show y.refno = (refs.countP fun p => p.2 = x : Nat)
      rw [hothers x hx]
      exact hs.refno x y (hset ▸ hy)
  · intro p hp
    show (s.setConn c (some conn')).fdOf p.2 ≠ none
    rw [hfds]
    rcases halive p hp with heq | hmem
    · rw [heq, Sockets.fdOf_eq hconn]
      nofun
    · exact hs.alive p hmem
  · exact fun x fd h => hs.opened x fd (hfds ▸ h)
  · exact fun x y fd h h' => hs.distinct x y fd (hfds ▸ h) (hfds ▸ h')
  · intro t call x hcall hremoves
    obtain ⟨hx, hxfd⟩ := hs.dying t call x hcall hremoves
    exact ⟨(hdeads x).mpr hx, fun fd h => (congrFun hfds x).trans (hxfd fd h)⟩
  · exact fun fd x h => (congrFun hfds x).trans (hs.registered fd x h)
  · exact fun x fd h hx => hs.quiet x fd (hfds ▸ h) ((hdeads x).mp hx)

theorem Sockets.Inv.incref {t : Nat} {s' : Sockets} (hs : s.Inv pipefd)
    (h : s.incref t c = some s') : s'.Inv pipefd := by
  obtain ⟨conn, hconn, rfl⟩ := Option.map_eq_some_iff.mp h
  refine hs.recount hconn rfl rfl ?_ ?_ ?_ ?_
  · show conn.refno + 1 = _
    rw [hs.refno c conn hconn]
    simp
  · intro x hx
    rw [List.countP_cons, if_neg (by simpa using hx.symm), Nat.add_zero]
  · intro p hp
    rcases List.mem_cons.mp hp with rfl | hp
    · exact .inl rfl
    · exact .inr hp
  · exact fun t call hcall => List.mem_cons_of_mem _ (hs.calls t call hcall)

/-- The references that are left when `t` gives one up. -/
theorem Sockets.Holds.countP_erase {t : Nat} (h : s.Holds t c) (x : ConnPtr) :
    (s.refs.erase (t, c)).countP (fun p => p.2 = x) + (if x = c then 1 else 0) =
      s.refs.countP fun p => p.2 = x := by
  rw [List.countP_erase]
  by_cases hx : x = c
  · subst hx
    have hpos : 0 < s.refs.countP fun p => p.2 = x :=
      List.countP_pos_iff.mpr ⟨(t, x), h.1, by simp⟩
    rw [if_pos ⟨h.1, by simp⟩, if_pos rfl]
    omega
  · rw [if_neg (by simp [Ne.symm hx]), if_neg hx]
    rfl

theorem Sockets.Holds.calls_erase {t : Nat} (hs : s.Inv pipefd) (h : s.Holds t c) (t' : Nat)
    (call : ConnCall) (hcall : s.calls t' = some call) :
    (t', call.conn) ∈ s.refs.erase (t, c) := by
  refine (List.mem_erase_of_ne ?_).mpr (hs.calls t' call hcall)
  intro heq
  cases congrArg Prod.fst heq
  cases h.2.symm.trans hcall

theorem Sockets.fdOf_delete (x : ConnPtr) :
    (s.setConn c none).fdOf x = if x = c then none else s.fdOf x := by
  by_cases hx : x = c
  · simp [Sockets.fdOf, Sockets.setConn, hx]
  · simp [Sockets.fdOf, Sockets.setConn, hx]

theorem Sockets.fdOf_of_delete {x : ConnPtr} {fd : Nat} (h : (s.setConn c none).fdOf x = some fd) :
    x ≠ c ∧ s.fdOf x = some fd := by
  rw [Sockets.fdOf_delete] at h
  split at h
  · cases h
  · next hx => exact ⟨hx, h⟩

theorem Sockets.heap_delete {x : ConnPtr} (hx : x ≠ c) :
    (s.setConn c none).heap x = s.heap x :=
  Function.update_of_ne hx ..

/-- The last reference to a dead connection is given up: nobody removes it any more, so the poll
    thread has nothing to do with it. -/
theorem Sockets.Inv.delete {t : Nat} (hs : s.Inv pipefd) (hholds : s.Holds t c)
    (hconn : s.heap c = some conn) (hlast : conn.refno - 1 = 0) (hdead : conn.dead = true) :
    { { s with refs := s.refs.erase (t, c) }.setConn c none with
      fds := s.fds.erase conn.fd }.Inv pipefd := by
  have hcount := hholds.countP_erase
  have hnoref : ∀ p ∈ s.refs.erase (t, c), p.2 ≠ c := by
    have hzero := hcount c
    have hone := hs.refno c conn hconn
    rw [if_pos rfl] at hzero
    have hnone : (s.refs.erase (t, c)).countP (fun p => p.2 = c) = 0 := by omega
    intro p hp
    simpa using List.countP_eq_zero.mp hnone p hp
  have hcalls := hholds.calls_erase hs
  have hnocall : ∀ t' call, s.calls t' = some call → call.conn ≠ c := fun t' call hcall =>
    hnoref _ (hcalls t' call hcall)
  have hfdc := Sockets.fdOf_eq hconn
  obtain ⟨hcallback, hselects⟩ : s.poll.callbacks conn.fd = none ∧
      ¬ s.poll.stage.Selects conn.fd := by
    refine (hs.quiet c conn.fd hfdc ⟨conn, hconn, hdead⟩).resolve_left ?_
    rintro ⟨t', call, hcall, hremoves⟩
    refine hnocall t' call hcall ?_
    cases call with
    | marked x => exact hremoves.symm
    | removing x fd => exact hremoves.symm
    | sending x => cases hremoves
  have hfds : ∀ x, x ≠ c → (s.setConn c none).fdOf x = s.fdOf x := fun x hx => by
    rw [Sockets.fdOf_delete, if_neg hx]
  refine ⟨hs.poll, ?_, ?_, ?_, ?_, hcalls, ?_, hs.waits, ?_, hs.watched, hs.running, ?_, ?_⟩
  · intro x y hy
    have hx : x ≠ c := by
      rintro rfl
      have hset : (s.setConn x none).heap x = none := Function.update_self ..
      cases hset.symm.trans hy
    have hxcount := hcount x
    rw [if_neg hx, Nat.add_zero] at hxcount
    show y.refno = ((s.refs.erase (t, c)).countP fun p => p.2 = x : Nat)
    rw [hxcount]
    exact hs.refno x y (Sockets.heap_delete hx ▸ hy)
  · intro p hp
    show (s.setConn c none).fdOf p.2 ≠ none
    rw [hfds p.2 (hnoref p hp)]
    exact hs.alive p (List.mem_of_mem_erase hp)
  · intro x fd hx
    obtain ⟨hne, hx⟩ := Sockets.fdOf_of_delete hx
    obtain ⟨hopen, hpipe⟩ := hs.opened x fd hx
    refine ⟨Finset.mem_erase.mpr ⟨?_, hopen⟩, hpipe⟩
    rintro rfl
    exact hne (hs.distinct x c _ hx hfdc)
  · exact fun x y fd hx hy =>
      hs.distinct x y fd (Sockets.fdOf_of_delete hx).2 (Sockets.fdOf_of_delete hy).2
  · intro t' call x hcall hremoves
    obtain ⟨⟨y, hy, hydead⟩, hxfd⟩ := hs.dying t' call x hcall hremoves
    have hx : x ≠ c := by
      rintro rfl
      cases call with
      | marked z => exact hnocall t' _ hcall hremoves.symm
      | removing z fd => exact hnocall t' _ hcall hremoves.symm
      | sending z => cases hremoves
    exact ⟨⟨y, (Sockets.heap_delete hx).trans hy, hydead⟩,
      fun fd h => (hfds x hx).trans (hxfd fd h)⟩
  · intro fd x hx
    have hxfd := hs.registered fd x hx
    have hne : x ≠ c := by
      rintro rfl
      cases hfdc.symm.trans hxfd
      cases hcallback.symm.trans hx
    exact (hfds x hne).trans hxfd
  · intro x fd hx hxdead
    obtain ⟨hne, hx⟩ := Sockets.fdOf_of_delete hx
    obtain ⟨y, hy, hydead⟩ := hxdead
    exact hs.quiet x fd hx ⟨y, Sockets.heap_delete hne ▸ hy, hydead⟩
  · intro fd hfd hpipe
    refine Finset.mem_erase.mpr ⟨?_, hs.selected fd hfd hpipe⟩
    rintro rfl
    exact hselects hfd

theorem Sockets.Inv.decref {t : Nat} {s' : Sockets} (hs : s.Inv pipefd) (hholds : s.Holds t c)
    (h : s.decref t c = some s') : s'.Inv pipefd := by
  obtain ⟨conn, hconn, h⟩ := Option.bind_eq_some_iff.mp h
  dsimp only at h
  split at h
  · cases h
  · split at h
    · next hlast =>
        obtain rfl := Option.some.inj h
        exact hs.delete hholds hconn hlast.1 hlast.2
    · obtain rfl := Option.some.inj h
      have hcount := hholds.countP_erase
      refine hs.recount hconn rfl rfl ?_ ?_ ?_ (hholds.calls_erase hs)
      · have hself := hcount c
        rw [if_pos rfl] at hself
        have hrefno := hs.refno c conn hconn
        show conn.refno - 1 = ((s.refs.erase (t, c)).countP fun p => p.2 = c : Nat)
        omega
      · intro x hx
        have hxcount := hcount x
        rwa [if_neg hx, Nat.add_zero] at hxcount
      · exact fun p hp => .inr (List.mem_of_mem_erase hp)

end References

/-! ### Dying -/

section Dying

variable {pipefd : Nat} {s s' : Sockets} {c : ConnPtr} {conn : PolledConn}

theorem Sockets.dead_of_kill {x : ConnPtr}
    (h : (s.setConn c (some { conn with dead := true })).Dead x) : x = c ∨ s.Dead x := by
  by_cases hx : x = c
  · exact .inl hx
  · right
    obtain ⟨y, hy, hdead⟩ := h
    exact ⟨y, (Function.update_of_ne hx ..).symm.trans hy, hdead⟩

theorem Sockets.dead_kill {x : ConnPtr} (conn : PolledConn) (h : s.Dead x) :
    (s.setConn c (some { conn with dead := true })).Dead x := by
  by_cases hx : x = c
  · subst hx
    exact ⟨_, Function.update_self .., rfl⟩
  · obtain ⟨y, hy, hdead⟩ := h
    exact ⟨y, (Function.update_of_ne hx ..).trans hy, hdead⟩

/-- A connection is dead from now on; whoever has marked it has to see to the rest. -/
theorem Sockets.Inv.kill {calls : Nat → Option ConnCall} (hs : s.Inv pipefd)
    (hconn : s.heap c = some conn)
    (hcalls : ∀ t call, calls t = some call →
      s.calls t = some call ∨ call = .marked c ∧ (t, c) ∈ s.refs)
    (hkept : ∀ t call, s.calls t = some call → calls t = some call)
    (hquiet : { s with calls := calls }.Removed c ∨
      s.poll.callbacks conn.fd = none ∧ ¬ s.poll.stage.Selects conn.fd) :
    { s.setConn c (some { conn with dead := true }) with calls := calls }.Inv pipefd := by
  have hfds : (s.setConn c (some { conn with dead := true })).fdOf = s.fdOf :=
    Sockets.fdOf_setConn hconn rfl
  refine ⟨hs.poll, ?_, ?_, ?_, ?_, ?_, ?_, ?_, ?_, hs.watched, hs.running, ?_, hs.selected⟩
  · intro x y hy
    by_cases hx : x = c
    · subst hx
      have hset : (s.setConn x (some { conn with dead := true })).heap x =
        some { conn with dead := true } := Function.update_self ..
      cases hset.symm.trans hy
      exact hs.refno x conn hconn
    · exact hs.refno x y ((Function.update_of_ne hx ..).symm.trans hy)
  · exact fun p hp => (congrFun hfds p.2).symm ▸ hs.alive p hp
  · exact fun x fd h => hs.opened x fd ((congrFun hfds x).symm.trans h)
  · exact fun x y fd h h' =>
      hs.distinct x y fd ((congrFun hfds x).symm.trans h) ((congrFun hfds y).symm.trans h')
  · intro t call hcall
    rcases hcalls t call hcall with hcall | ⟨rfl, hmem⟩
    · exact hs.calls t call hcall
    · exact hmem
  · intro t call x hcall hremoves
    rcases hcalls t call hcall with hcall | ⟨rfl, -⟩
    · obtain ⟨hx, hxfd⟩ := hs.dying t call x hcall hremoves
      exact ⟨Sockets.dead_kill conn hx, fun fd h => (congrFun hfds x).trans (hxfd fd h)⟩
    · obtain rfl : x = c := hremoves
      exact ⟨⟨_, Function.update_self .., rfl⟩, nofun⟩
  · intro t fd
    -- marking a connection is not yet waiting
    have hsame : (calls t).bind ConnCall.removes = (s.calls t).bind ConnCall.removes := by
      rcases hold : s.calls t with _ | call
      · rcases hnew : calls t with _ | call
        · rfl
        · rcases hcalls t call hnew with hcall | ⟨rfl, -⟩
          · cases hold.symm.trans hcall
          · rfl
      · rw [hkept t call hold]
    show s.poll.changedone.count (t, fd) =
      if (calls t).bind ConnCall.removes = some fd then 1 else 0
    rw [hsame]
    exact hs.waits t fd
  · exact fun fd x h => (congrFun hfds x).trans (hs.registered fd x h)
  · intro x fd hx hdead
    have hxfd : s.fdOf x = some fd := (congrFun hfds x).symm.trans hx
    rcases Sockets.dead_of_kill hdead with rfl | hdead
    · cases (Sockets.fdOf_eq hconn).symm.trans hxfd
      exact hquiet
    · refine (hs.quiet x fd hxfd hdead).imp_left ?_
      rintro ⟨t, call, hcall, hremoves⟩
      exact ⟨t, call, hkept t call hcall, hremoves⟩

theorem Sockets.Inv.mark {t : Nat} (hs : s.Inv pipefd) (hholds : s.Holds t c)
    (hconn : s.heap c = some conn) : (s.mark t c conn).Inv pipefd := by
  refine hs.kill hconn ?_ ?_ (.inl ⟨t, .marked c, Function.update_self .., rfl⟩)
  · intro t' call hcall
    by_cases ht : t' = t
    · subst ht
      rw [Function.update_self] at hcall
      exact .inr ⟨(Option.some.inj hcall).symm, hholds.1⟩
    · exact .inl ((Function.update_of_ne ht ..).symm.trans hcall)
  · intro t' call hcall
    have ht : t' ≠ t := by
      rintro rfl
      cases hholds.2.symm.trans hcall
    exact (Function.update_of_ne ht ..).trans hcall

theorem Sockets.Inv.closeconn {t : Nat} (hs : s.Inv pipefd) (hholds : s.Holds t c)
    (h : s.closeconn t c = some s') : s'.Inv pipefd := by
  obtain ⟨conn, hconn, rfl⟩ := Option.map_eq_some_iff.mp h
  split
  · exact hs
  · exact hs.mark hholds hconn

end Dying

/-! ### Calls of the poll manager -/

section Calls

variable {pipefd : Nat} {s s' : Sockets} {poll : PollMgr} {t : Nat} {c : ConnPtr}

/-- All that `add_callback` changes. -/
theorem PollMgr.addCallback_eq {p p' : PollMgr} {fd : Nat} {flag : PollFlag} {ch : Nat}
    (h : p.addCallback fd flag ch = some p') :
    (p.callbacks fd = none ∨ p.callbacks fd = some ch) ∧
      p' = { p with
        aio := p.aio.watchFd fd flag
        callbacks := Function.update p.callbacks fd (some ch)
        gone := p.gone.erase fd } := by
  unfold PollMgr.addCallback at h
  split at h
  · next hverify => exact ⟨hverify.2, (Option.some.inj h).symm⟩
  · cases h

/-- A live connection is registered for its descriptor. -/
theorem Sockets.Inv.addCallback {fd : Nat} {flag : PollFlag} (hs : s.Inv pipefd)
    (hfd : s.fdOf c = some fd) (hlive : ¬ s.Dead c)
    (h : s.poll.addCallback fd flag c = some poll) : { s with poll := poll }.Inv pipefd := by
  obtain ⟨hopen, hpipe⟩ := hs.opened c fd hfd
  have hpoll := pollMgr_invariant hs.poll
  have horderly : s.poll.Orderly (.addCallback fd flag c) := by
    refine ⟨hpoll.pipe ▸ hpipe, hs.not_removed ?_⟩
    intro x hx
    rw [hs.distinct x c fd hx hfd]
    exact hlive
  have hreach := hs.poll.step horderly h
  obtain ⟨hfree, rfl⟩ := PollMgr.addCallback_eq h
  refine ⟨hreach, hs.refno, hs.alive, hs.opened, hs.distinct, hs.calls, hs.dying, hs.waits, ?_, ?_,
    ?_, ?_, hs.selected⟩
  · intro x y hy
    by_cases hx : x = fd
    · subst hx
      have hset : Function.update s.poll.callbacks x (some c) x = some y := hy
      rw [Function.update_self] at hset
      exact Option.some.inj hset ▸ hfd
    · exact hs.registered x y ((Function.update_of_ne hx ..).symm.trans hy)
  · intro x hx hne
    show Function.update s.poll.callbacks fd (some c) x ≠ none
    by_cases hxfd : x = fd
    · rw [hxfd, Function.update_self]
      nofun
    · rw [Function.update_of_ne hxfd]
      refine hs.watched x ?_ hne
      by_contra hunwatched
      exact SelectAio.unwatched_watchFd flag hunwatched hxfd hx
  · intro write cb x readable writable hstage
    have hcb := hs.running write cb x readable writable hstage
    show Function.update s.poll.callbacks fd (some c) x = some cb
    by_cases hxfd : x = fd
    · -- the callback that runs is the one that is added
      subst hxfd
      rw [Function.update_self]
      rcases hfree with hnone | hsome
      · cases hnone.symm.trans hcb
      · exact hsome.symm.trans hcb
    · rw [Function.update_of_ne hxfd]
      exact hcb
  · intro x xfd hx hdead
    refine (hs.quiet x xfd hx hdead).imp_right ?_
    rintro ⟨hnone, hselects⟩
    refine ⟨?_, hselects⟩
    show Function.update s.poll.callbacks fd (some c) xfd = none
    rw [Function.update_of_ne]
    · exact hnone
    · rintro rfl
      exact hlive (hs.distinct x c _ hx hfd ▸ hdead)

/-- A new connection, before it is registered. -/
theorem Sockets.Inv.alloc {fd : Nat} {time : Nat × Nat} (hs : s.Inv pipefd)
    (hfree : s.heap c = none) (hfd : fd ∉ s.fds) (hpipe : fd ≠ pipefd) :
    { s with
      heap := Function.update s.heap c (some ⟨⟨1, false, time⟩, fd⟩)
      fds := insert fd s.fds
      refs := (t, c) :: s.refs }.Inv pipefd := by
  have hfdc : s.fdOf c = none := by rw [Sockets.fdOf, hfree]; rfl
  have hnew : ∀ x, ((Function.update s.heap c (some ⟨⟨1, false, time⟩, fd⟩)) x).map PolledConn.fd =
      if x = c then some fd else s.fdOf x := by
    intro x
    by_cases hx : x = c
    · rw [hx, Function.update_self, if_pos rfl]
      rfl
    · rw [Function.update_of_ne hx, if_neg hx]
      rfl
  have hfds : ∀ x y, ((Function.update s.heap c (some ⟨⟨1, false, time⟩, fd⟩)) x).map
      PolledConn.fd = some y → x = c ∧ y = fd ∨ x ≠ c ∧ s.fdOf x = some y := by
    intro x y hx
    rw [hnew] at hx
    split at hx
    · next heq => exact .inl ⟨heq, (Option.some.inj hx).symm⟩
    · next hne => exact .inr ⟨hne, hx⟩
  have hkept : ∀ x y, s.fdOf x = some y → ((Function.update s.heap c
      (some ⟨⟨1, false, time⟩, fd⟩)) x).map PolledConn.fd = some y := by
    intro x y hx
    rw [hnew, if_neg]
    · exact hx
    · rintro rfl
      cases hfdc.symm.trans hx
  have hnoref : ∀ p ∈ s.refs, p.2 ≠ c := fun p hp heq => hs.alive p hp (heq ▸ hfdc)
  have hdeads : ∀ x, (∃ y, Function.update s.heap c (some ⟨⟨1, false, time⟩, fd⟩) x = some y ∧
      y.dead = true) → s.Dead x := by
    rintro x ⟨y, hy, hdead⟩
    by_cases hx : x = c
    · rw [hx, Function.update_self] at hy
      cases hy
      cases hdead
    · exact ⟨y, (Function.update_of_ne hx ..).symm.trans hy, hdead⟩
  refine ⟨hs.poll, ?_, ?_, ?_, ?_, ?_, ?_, hs.waits, ?_, hs.watched, hs.running, ?_, ?_⟩
  · intro x y hy
    show y.refno = (((t, c) :: s.refs).countP fun p => p.2 = x : Nat)
    rw [List.countP_cons]
    by_cases hx : x = c
    · subst hx
      have hy : Function.update s.heap x (some ⟨⟨1, false, time⟩, fd⟩) x = some y := hy
      rw [Function.update_self] at hy
      cases hy
      rw [List.countP_eq_zero.mpr fun p hp => by simpa using hnoref p hp]
      simp
    · rw [if_neg (by simpa using Ne.symm hx), Nat.add_zero]
      exact hs.refno x y ((Function.update_of_ne hx ..).symm.trans hy)
  · intro p hp
    show ((Function.update s.heap c (some ⟨⟨1, false, time⟩, fd⟩)) p.2).map PolledConn.fd ≠ none
    rw [hnew]
    split
    · nofun
    · next hne =>
        rcases List.mem_cons.mp hp with rfl | hp
        · exact absurd rfl hne
        · exact hs.alive p hp
  · intro x y hx
    rcases hfds x y hx with ⟨-, rfl⟩ | ⟨-, hx⟩
    · exact ⟨Finset.mem_insert_self .., hpipe⟩
    · exact ⟨Finset.mem_insert_of_mem (hs.opened x y hx).1, (hs.opened x y hx).2⟩
  · intro x y z hx hy
    rcases hfds x z hx with ⟨rfl, rfl⟩ | ⟨-, hxold⟩
    · rcases hfds y z hy with ⟨rfl, -⟩ | ⟨-, hyold⟩
      · rfl
      · exact absurd (hs.opened y z hyold).1 hfd
    · rcases hfds y z hy with ⟨-, rfl⟩ | ⟨-, hyold⟩
      · exact absurd (hs.opened x z hxold).1 hfd
      · exact hs.distinct x y z hxold hyold
  · exact fun t' call hcall => List.mem_cons_of_mem _ (hs.calls t' call hcall)
  · intro t' call x hcall hremoves
    obtain ⟨⟨y, hy, hdead⟩, hxfd⟩ := hs.dying t' call x hcall hremoves
    refine ⟨⟨y, ?_, hdead⟩, fun z hz => hkept x z (hxfd z hz)⟩
    refine (Function.update_of_ne ?_ ..).trans hy
    rintro rfl
    cases hfree.symm.trans hy
  · exact fun x y hy => hkept y x (hs.registered x y hy)
  · intro x y hx hdead
    have holddead := hdeads x hdead
    rcases hfds x y hx with ⟨rfl, -⟩ | ⟨-, hxold⟩
    · obtain ⟨z, hz, -⟩ := holddead
      cases hfree.symm.trans hz
    · exact hs.quiet x y hxold holddead
  · exact fun x hx hne => Finset.mem_insert_of_mem (hs.selected x hx hne)

theorem Sockets.Inv.connect {fd : Nat} {time : Nat × Nat} (hs : s.Inv pipefd)
    (h : s.connect t c fd time = some s') : s'.Inv pipefd := by
  unfold Sockets.connect at h
  split at h
  · next hnew =>
      obtain ⟨poll, hadd, rfl⟩ := Option.map_eq_some_iff.mp h
      have hpipe : fd ≠ pipefd := (pollMgr_invariant hs.poll).pipe ▸ hnew.2.2
      refine (hs.alloc hnew.1 hnew.2.1 hpipe).addCallback ?_ ?_ hadd
      · show ((Function.update s.heap c (some ⟨⟨1, false, time⟩, fd⟩)) c).map PolledConn.fd =
          some fd
        rw [Function.update_self]
        rfl
      · rintro ⟨conn, hconn, hdead⟩
        have hconn : Function.update s.heap c (some ⟨⟨1, false, time⟩, fd⟩) c = some conn := hconn
        rw [Function.update_self] at hconn
        cases hconn
        cases hdead
  · cases h

/-- A call that removes nothing begins or ends. -/
theorem Sockets.Inv.setCall {call : Option ConnCall} (hs : s.Inv pipefd)
    (hold : ∀ x, s.calls t = some x → ∀ c, ¬ x.Removes c)
    (hnew : ∀ x, call = some x → (t, x.conn) ∈ s.refs ∧ ∀ c, ¬ x.Removes c) :
    (s.setCall t call).Inv pipefd := by
  have hnone : ∀ x : Option ConnCall, (∀ y, x = some y → ∀ c, ¬ y.Removes c) →
      x.bind ConnCall.removes = none := by
    intro x hx
    rcases x with _ | y
    · rfl
    · cases y with
      | marked c => rfl
      | sending c => rfl
      | removing c fd => exact absurd rfl (hx _ rfl c)
  have hcases : ∀ t' x, Function.update s.calls t call t' = some x →
      s.calls t' = some x ∨ (t', x.conn) ∈ s.refs ∧ ∀ c, ¬ x.Removes c := by
    intro t' x hx
    by_cases ht : t' = t
    · subst ht
      rw [Function.update_self] at hx
      exact .inr (hnew x hx)
    · exact .inl ((Function.update_of_ne ht ..).symm.trans hx)
  refine ⟨hs.poll, hs.refno, hs.alive, hs.opened, hs.distinct, ?_, ?_, ?_, hs.registered,
    hs.watched, hs.running, ?_, hs.selected⟩
  · intro t' x hx
    rcases hcases t' x hx with hx | hx
    · exact hs.calls t' x hx
    · exact hx.1
  · intro t' x y hx hremoves
    rcases hcases t' x hx with hx | hx
    · exact hs.dying t' x y hx hremoves
    · exact absurd hremoves (hx.2 y)
  · intro t' fd
    show s.poll.changedone.count (t', fd) =
      if (Function.update s.calls t call t').bind ConnCall.removes = some fd then 1 else 0
    rw [hs.waits t' fd]
    by_cases ht : t' = t
    · subst ht
      rw [Function.update_self, hnone _ hold, hnone _ fun x hx => (hnew x hx).2]
    · rw [Function.update_of_ne ht]
  · intro x fd hx hdead
    refine (hs.quiet x fd hx hdead).imp_left ?_
    rintro ⟨t', y, hy, hremoves⟩
    refine ⟨t', y, (Function.update_of_ne ?_ ..).trans hy, hremoves⟩
    rintro rfl
    exact hold y hy x hremoves

theorem Sockets.Inv.send {outcome : SendOutcome} (hs : s.Inv pipefd) (hholds : s.Holds t c)
    (h : s.send t c outcome = some s') : s'.Inv pipefd := by
  obtain ⟨conn, hconn, h⟩ := Option.bind_eq_some_iff.mp h
  split at h
  · obtain rfl := Option.some.inj h
    exact hs
  · next hlive =>
      cases outcome with
      | written =>
          obtain rfl := Option.some.inj h
          exact hs
      | rest =>
          obtain ⟨poll, hadd, rfl⟩ := Option.map_eq_some_iff.mp h
          have hadded := hs.addCallback (Sockets.fdOf_eq hconn)
            (fun hdead => hlive ((Sockets.dead_iff hconn).mp hdead)) hadd
          refine hadded.setCall ?_ ?_
          · intro x hx
            cases hholds.2.symm.trans hx
          · intro x hx
            cases hx
            exact ⟨hholds.1, fun _ => id⟩
      | failed =>
          obtain rfl := Option.some.inj h
          exact hs.mark hholds hconn

theorem Sockets.Inv.sendReturns (hs : s.Inv pipefd) (h : s.sendReturns t = some s') :
    s'.Inv pipefd := by
  unfold Sockets.sendReturns at h
  split at h
  · next c hcall =>
      obtain rfl := Option.some.inj h
      refine hs.setCall ?_ nofun
      intro x hx
      cases hcall.symm.trans hx
      exact fun _ => id
  · cases h

/-- The thread that has marked the connection calls `block_remove_fd`. -/
theorem Sockets.Inv.remove (hs : s.Inv pipefd) (h : s.remove t = some s') : s'.Inv pipefd := by
  unfold Sockets.remove at h
  split at h
  · next c hcall =>
      obtain ⟨conn, hconn, h⟩ := Option.bind_eq_some_iff.mp h
      obtain ⟨poll, hblock, rfl⟩ := Option.map_eq_some_iff.mp h
      have hfd := Sockets.fdOf_eq hconn
      have hpoll := pollMgr_invariant hs.poll
      have horderly : s.poll.Orderly (.blockRemoveFd t conn.fd) := by
        show conn.fd ≠ s.poll.aio.pipefd
        rw [hpoll.pipe]
        exact (hs.opened c conn.fd hfd).2
      have hreach := hs.poll.step horderly hblock
      obtain ⟨⟨idle, aio⟩, hunwatch, rfl⟩ := Option.map_eq_some_iff.mp hblock
      obtain ⟨-, hr, hw, -⟩ := SelectAio.unwatchFd_eq hunwatch
      have hcases : ∀ t' x, Function.update s.calls t (some (.removing c conn.fd)) t' = some x →
          t' = t ∧ x = .removing c conn.fd ∨ t' ≠ t ∧ s.calls t' = some x := by
        intro t' x hx
        by_cases ht : t' = t
        · subst ht
          rw [Function.update_self] at hx
          exact .inl ⟨rfl, (Option.some.inj hx).symm⟩
        · exact .inr ⟨ht, (Function.update_of_ne ht ..).symm.trans hx⟩
      refine ⟨hreach, hs.refno, hs.alive, hs.opened, hs.distinct, ?_, ?_, ?_, hs.registered, ?_,
        hs.running, ?_, hs.selected⟩
      · intro t' x hx
        rcases hcases t' x hx with ⟨rfl, rfl⟩ | ⟨-, hold⟩
        · have hmem := hs.calls t' _ hcall
          exact hmem
        · exact hs.calls t' x hold
      · intro t' x y hx hremoves
        rcases hcases t' x hx with ⟨rfl, rfl⟩ | ⟨-, hold⟩
        · obtain rfl : y = c := hremoves
          refine ⟨(hs.dying t' _ y hcall rfl).1, ?_⟩
          intro fd hx
          exact Option.some.inj hx ▸ hfd
        · exact hs.dying t' x y hold hremoves
      · intro t' fd
        show (s.poll.changedone.wait (t, conn.fd)).count (t', fd) =
          if (Function.update s.calls t (some (.removing c conn.fd)) t').bind ConnCall.removes =
            some fd then 1 else 0
        rw [Cond.count_wait, hs.waits t' fd]
        by_cases ht : t' = t
        · subst ht
          rw [Function.update_self, hcall]
          simp [ConnCall.removes]
        · rw [Function.update_of_ne ht, if_neg fun heq => ht (congrArg Prod.fst heq).symm]
          rfl
      · exact fun x hx hne => hs.watched x (Finset.union_subset_union hr hw hx) hne
      · intro x fd hx hdead
        refine (hs.quiet x fd hx hdead).imp_left ?_
        rintro ⟨t', y, hy, hremoves⟩
        by_cases ht : t' = t
        · subst ht
          cases hcall.symm.trans hy
          exact ⟨t', _, Function.update_self .., hremoves⟩
        · exact ⟨t', y, (Function.update_of_ne ht ..).trans hy, hremoves⟩
  · cases h

theorem Sockets.Inv.removeReturns (hs : s.Inv pipefd) (h : s.removeReturns t = some s') :
    s'.Inv pipefd := by
  unfold Sockets.removeReturns at h
  split at h
  · next c fd hcall =>
      obtain ⟨poll, hreturns, rfl⟩ := Option.map_eq_some_iff.mp h
      have horderly : s.poll.Orderly (.removeReturns t fd) := trivial
      have hreach := hs.poll.step horderly hreturns
      have hpoll := pollMgr_invariant hs.poll
      obtain ⟨changedone, hresume, rfl⟩ := Option.map_eq_some_iff.mp hreturns
      obtain ⟨hunwatched, hnames⟩ := hpoll.woken _ (Cond.resume_subset hresume).1
      have hfd := (hs.dying t _ c hcall rfl).2 fd rfl
      have hcases : ∀ t' x, Function.update s.calls t none t' = some x →
          t' ≠ t ∧ s.calls t' = some x := by
        intro t' x hx
        by_cases ht : t' = t
        · rw [ht, Function.update_self] at hx
          cases hx
        · exact ⟨ht, (Function.update_of_ne ht ..).symm.trans hx⟩
      refine ⟨hreach, hs.refno, hs.alive, hs.opened, hs.distinct,
        fun t' x hx => hs.calls t' x (hcases t' x hx).2,
        fun t' x y hx => hs.dying t' x y (hcases t' x hx).2, ?_, ?_, ?_, ?_, ?_, hs.selected⟩
      · intro t' x
        show changedone.count (t', x) =
          if (Function.update s.calls t none t').bind ConnCall.removes = some x then 1 else 0
        have hcount := Cond.count_resume (t', x) hresume
        rw [hs.waits t' x] at hcount
        by_cases ht : t' = t
        · subst ht
          rw [hcall] at hcount
          rw [Function.update_self]
          simp only [Option.bind_some, ConnCall.removes, Option.some.injEq, Prod.mk.injEq,
            true_and] at hcount
          simpa using hcount
        · rw [if_neg fun heq : (t, fd) = (t', x) => ht (congrArg Prod.fst heq).symm] at hcount
          rw [Function.update_of_ne ht]
          exact hcount.symm
      · intro x y hy
        have hy : Function.update s.poll.callbacks fd none x = some y := hy
        by_cases hx : x = fd
        · rw [hx, Function.update_self] at hy
          cases hy
        · rw [Function.update_of_ne hx] at hy
          exact hs.registered x y hy
      · intro x hx hne
        show Function.update s.poll.callbacks fd none x ≠ none
        rw [Function.update_of_ne]
        · exact hs.watched x hx hne
        · rintro rfl
          exact hunwatched hx
      · intro write cb x readable writable hstage
        show Function.update s.poll.callbacks fd none x = some cb
        rw [Function.update_of_ne]
        · exact hs.running write cb x readable writable hstage
        · rintro rfl
          have hstage : s.poll.stage = _ := hstage
          rw [hstage] at hnames
          exact hnames (.inl rfl)
      · intro x xfd hx hdead
        show _ ∨ Function.update s.poll.callbacks fd none xfd = none ∧ ¬ s.poll.stage.Selects xfd
        by_cases hxfd : xfd = fd
        · subst hxfd
          refine .inr ⟨Function.update_self .., ?_⟩
          rintro ⟨sets, hstage, hmem⟩
          rw [hstage] at hnames
          exact hnames hmem
        · rw [Function.update_of_ne hxfd]
          refine (hs.quiet x xfd hx hdead).imp_left ?_
          rintro ⟨t', y, hy, hremoves⟩
          refine ⟨t', y, (Function.update_of_ne ?_ ..).trans hy, hremoves⟩
          rintro rfl
          cases hcall.symm.trans hy
          obtain rfl : x = c := hremoves
          cases hfd.symm.trans hx
          exact hxfd rfl
  · cases h

end Calls

/-! ### The poll thread -/

section Polling

variable {pipefd : Nat} {s s' : Sockets} {c : ConnPtr} {conn : PolledConn}

theorem PollAction.polls_of_loops {action : PollAction} (h : action.loops = true) :
    action.polls = true := by
  cases action with
  | top | copy | select | interrupted | check | call => rfl
  | _ => cases h

/-- All that a step of `wait_loop` changes. -/
theorem PollMgr.step_of_loops {p p' : PollMgr} {action : PollAction}
    (hloops : action.loops = true) (h : p.step action = some p') :
    p.Orderly action ∧ p'.callbacks = p.callbacks ∧ p'.aio.rfds = p.aio.rfds ∧
      p'.aio.wfds = p.aio.wfds ∧ (∀ x, p'.changedone.count x = p.changedone.count x) ∧
      (∀ fd, p'.stage.Selects fd → fd ∈ p.aio.rfds ∪ p.aio.wfds) ∧
      ∀ write cb fd readable writable, p'.stage = .inCallback write cb fd readable writable →
        p.callbacks fd = some cb := by
  cases PollMgr.polled_of_step (PollAction.polls_of_loops hloops) h with
  | top hstage =>
      refine ⟨trivial, rfl, rfl, rfl, ?_, ?_, ?_⟩
      · intro x
        show (if p.pendingChange then p.changedone.broadcast else p.changedone).count x = _
        split
        · exact Cond.count_broadcast x
        · rfl
      · intro fd hsel
        exact absurd hsel (PollStage.not_selects (by simp [PollMgr.wakeRemovers]) fd)
      · intro write cb fd readable writable hcalls
        cases hcalls
  | copy hstage =>
      refine ⟨trivial, rfl, rfl, rfl, fun _ => rfl, ?_, ?_⟩
      · rintro fd ⟨sets, hsets, hfd⟩
        cases hsets
        exact hfd
      · intro write cb fd readable writable hcalls
        cases hcalls
  | select hstage hpipe hscan | interrupted hstage =>
      refine ⟨trivial, rfl, rfl, rfl, fun _ => rfl, ?_, ?_⟩
      · intro fd hsel
        exact absurd hsel (PollStage.not_selects (by simp) fd)
      · intro write cb fd readable writable hcalls
        cases hcalls
  | @check readable writable hstage =>
      refine ⟨trivial, rfl, rfl, rfl, fun _ => rfl, ?_, ?_⟩
      · rintro fd ⟨sets, hsets, -⟩
        have hwaits := p.check_waits readable writable
        rw [show p.check readable writable = _ from hsets] at hwaits
        exact absurd trivial hwaits
      · intro write cb fd readable' writable' hcalls
        exact absurd hcalls (p.check_ne_inCallback readable writable)
  | call hstage hcb =>
      refine ⟨trivial, rfl, rfl, rfl, fun _ => rfl, ?_, ?_⟩
      · intro fd hsel
        exact absurd hsel (PollStage.not_selects (by simp) fd)
      · intro write cb' fd readable writable hcalls
        cases hcalls
        exact hcb
  | returns hstage => cases hloops

theorem Sockets.Inv.loop {poll : PollMgr} {action : PollAction} (hs : s.Inv pipefd)
    (hloops : action.loops = true) (h : s.poll.step action = some poll) :
    { s with poll := poll }.Inv pipefd := by
  obtain ⟨horderly, hcallbacks, hr, hw, hcount, hselects, hrunning⟩ :=
    PollMgr.step_of_loops hloops h
  refine ⟨hs.poll.step horderly h, hs.refno, hs.alive, hs.opened, hs.distinct, hs.calls, hs.dying,
    fun t fd => (hcount _).trans (hs.waits t fd), ?_, ?_, ?_, ?_, ?_⟩
  · exact fun fd x hx => hs.registered fd x (hcallbacks ▸ hx)
  · intro fd hfd hne
    show poll.callbacks fd ≠ none
    rw [hcallbacks]
    have hfd : fd ∈ poll.aio.rfds ∪ poll.aio.wfds := hfd
    rw [hr, hw] at hfd
    exact hs.watched fd hfd hne
  · intro write cb fd readable writable hstage
    show poll.callbacks fd = some cb
    rw [hcallbacks]
    exact hrunning write cb fd readable writable hstage
  · intro x fd hx hdead
    show _ ∨ poll.callbacks fd = none ∧ ¬ poll.stage.Selects fd
    rw [hcallbacks]
    refine (hs.quiet x fd hx hdead).imp_right ?_
    rintro ⟨hnone, -⟩
    -- what is not registered is not waited for
    exact ⟨hnone, fun hfd => hs.watched fd (hselects fd hfd) (hs.opened x fd hx).2 hnone⟩
  · intro fd hfd hne
    obtain ⟨x, hx⟩ := Option.ne_none_iff_exists'.mp (hs.watched fd (hselects fd hfd) hne)
    exact (hs.opened x fd (hs.registered fd x hx)).1

/-- A callback returns. -/
theorem Sockets.Inv.returned {write : Bool} {cb fd : Nat} {readable writable : List Nat}
    (hs : s.Inv pipefd) (hstage : s.poll.stage = .inCallback write cb fd readable writable) :
    { s with poll := s.poll.returned readable writable }.Inv pipefd := by
  have hstep : s.poll.step .returns = some (s.poll.returned readable writable) := by
    simp only [PollMgr.step, hstage]
    rfl
  have horderly : s.poll.Orderly .returns := trivial
  have hsel : ∀ x, ¬ (s.poll.returned readable writable).stage.Selects x :=
    PollStage.not_selects (by simp [PollMgr.returned])
  refine ⟨hs.poll.step horderly hstep, hs.refno, hs.alive, hs.opened, hs.distinct, hs.calls,
    hs.dying, hs.waits, hs.registered, hs.watched, ?_,
    fun x y hx hdead => (hs.quiet x y hx hdead).imp_right fun h => ⟨h.1, hsel y⟩,
    fun x hx => absurd hx (hsel x)⟩
  intro write cb fd readable writable hcalls
  cases hcalls

/-- A callback removes itself and returns. -/
theorem Sockets.Inv.deleted {write : Bool} {flag : PollFlag} {poll : PollMgr}
    {readable writable : List Nat} (hs : s.Inv pipefd)
    (hstage : s.poll.stage = .inCallback write c conn.fd readable writable)
    (hconn : s.heap c = some conn) (h : s.poll.delCallback conn.fd flag = some poll) :
    { s with poll := poll.returned readable writable }.Inv pipefd := by
  have hpipe := (hs.opened c conn.fd (Sockets.fdOf_eq hconn)).2
  have hpoll := pollMgr_invariant hs.poll
  have horderly : s.poll.Orderly (.delCallback conn.fd flag) := by
    refine ⟨hpoll.pipe ▸ hpipe, ?_⟩
    rw [hstage]
    rfl
  have hdeleted := hs.poll.step horderly h
  obtain ⟨⟨idle, aio⟩, hunwatch, rfl⟩ := Option.map_eq_some_iff.mp h
  obtain ⟨-, hr, hw, -⟩ := SelectAio.unwatchFd_eq hunwatch
  have hidle := SelectAio.unwatchFd_idle hunwatch
  have hreach : (pollMgr pipefd).Reach PollMgr.Orderly
      { s.poll with
        aio := aio
        callbacks := if idle then Function.update s.poll.callbacks conn.fd none
          else s.poll.callbacks
        stage := .calling readable writable } := by
    refine hdeleted.step (show PollMgr.Orderly _ .returns from trivial) ?_
    simp only [pollMgr, PollMgr.step, hstage]
  have hcallbacks : ∀ x, (if idle then Function.update s.poll.callbacks conn.fd none
      else s.poll.callbacks) x = s.poll.callbacks x ∨ x = conn.fd ∧ idle = true ∧
        (if idle then Function.update s.poll.callbacks conn.fd none else s.poll.callbacks) x =
          none := by
    intro x
    split
    · by_cases hx : x = conn.fd
      · exact .inr ⟨hx, by assumption, by rw [hx, Function.update_self]⟩
      · exact .inl (Function.update_of_ne hx ..)
    · exact .inl rfl
  have hsel : ∀ x, ¬ (PollStage.calling readable writable).Selects x :=
    PollStage.not_selects (by simp)
  refine ⟨hreach, hs.refno, hs.alive, hs.opened, hs.distinct, hs.calls, hs.dying, hs.waits, ?_, ?_,
    ?_, ?_, fun x hx => absurd hx (hsel x)⟩
  · intro x y hy
    rcases hcallbacks x with hsame | ⟨-, -, hnone⟩
    · exact hs.registered x y (hsame.symm.trans hy)
    · cases hnone.symm.trans hy
  · intro x hx hne hnone
    rcases hcallbacks x with hsame | ⟨rfl, hidle', -⟩
    · exact hs.watched x (Finset.union_subset_union hr hw hx) hne (hsame.symm.trans hnone)
    · exact hidle.mp hidle' hx
  · intro write cb fd readable writable hcalls
    cases hcalls
  · intro x y hx hdead
    refine (hs.quiet x y hx hdead).imp_right ?_
    rintro ⟨hnone, -⟩
    refine ⟨?_, hsel y⟩
    rcases hcallbacks y with hsame | ⟨-, -, hnone'⟩
    · exact hsame.trans hnone
    · exact hnone'

theorem Sockets.Inv.fail {write : Bool} {readable writable : List Nat} (hs : s.Inv pipefd)
    (hstage : s.poll.stage = .inCallback write c conn.fd readable writable)
    (hconn : s.heap c = some conn) (h : s.fail c conn readable writable = some s') :
    s'.Inv pipefd := by
  obtain ⟨poll, hdel, rfl⟩ := Option.map_eq_some_iff.mp h
  have hdeleted := hs.deleted hstage hconn hdel
  obtain ⟨⟨idle, aio⟩, hunwatch, rfl⟩ := Option.map_eq_some_iff.mp hdel
  obtain ⟨-, -, -, -, hrdwr⟩ := SelectAio.unwatchFd_eq hunwatch
  obtain ⟨-, rfl, -⟩ := hrdwr rfl
  exact hdeleted.kill hconn (fun t call hcall => .inl hcall) (fun t call hcall => hcall)
    (.inr ⟨Function.update_self .., nofun⟩)

theorem Sockets.Inv.readCb {outcome : ReadOutcome} (hs : s.Inv pipefd)
    (h : s.readCb outcome = some s') : s'.Inv pipefd := by
  unfold Sockets.readCb at h
  split at h
  · next c fd readable writable hstage =>
      have hreturned := hs.returned hstage
      obtain ⟨conn, hconn, hrest⟩ := Option.bind_eq_some_iff.mp h
      split at hrest
      · cases hrest
      · next hfd =>
          rw [← not_not.mp hfd] at hstage
          split at hrest
          · obtain rfl := Option.some.inj hrest
            exact hreturned
          · cases outcome with
            | nothing =>
                obtain rfl := Option.some.inj hrest
                exact hreturned
            | passed t => exact hreturned.incref hrest
            | failed => exact hs.fail hstage hconn hrest
  · cases h

theorem Sockets.Inv.writeCb {outcome : WriteOutcome} (hs : s.Inv pipefd)
    (h : s.writeCb outcome = some s') : s'.Inv pipefd := by
  unfold Sockets.writeCb at h
  split at h
  · next c fd readable writable hstage =>
      obtain ⟨conn, hconn, hrest⟩ := Option.bind_eq_some_iff.mp h
      split at hrest
      · cases hrest
      · split at hrest
        · cases hrest
        · next hfd =>
            rw [← not_not.mp hfd] at hstage
            cases outcome with
            | idle =>
                obtain ⟨poll, hdel, rfl⟩ := Option.map_eq_some_iff.mp hrest
                exact hs.deleted hstage hconn hdel
            | wrote =>
                obtain rfl := Option.some.inj hrest
                exact hs.returned hstage
            | failed => exact hs.fail hstage hconn hrest
  · cases h

end Polling

theorem Sockets.Inv.step {pipefd : Nat} {s s' : Sockets} {action : SocketsAction}
    (hs : s.Inv pipefd) (howned : s.Owned action) (h : s.step action = some s') :
    s'.Inv pipefd := by
  cases action with
  | connect t c fd time => exact hs.connect h
  | incref t t' c => exact hs.incref h
  | decref t c => exact hs.decref howned h
  | closeconn t c => exact hs.closeconn howned h
  | send t c outcome => exact hs.send howned h
  | sendReturns t => exact hs.sendReturns h
  | remove t => exact hs.remove h
  | removeReturns t => exact hs.removeReturns h
  | loop action =>
      simp only [Sockets.step] at h
      split at h
      · next hloops =>
          obtain ⟨poll, hpoll, rfl⟩ := Option.map_eq_some_iff.mp h
          exact hs.loop hloops hpoll
      · cases h
  | readCb outcome => exact hs.readCb h
  | writeCb outcome => exact hs.writeCb h

theorem sockets_invariant {pipefd : Nat} {s : Sockets}
    (h : (sockets pipefd).Reach Sockets.Owned s) : s.Inv pipefd := by
  refine h.invariant (P := Sockets.Inv pipefd) ?_ ?_
  · rintro _ rfl
    exact Sockets.inv_create pipefd
  · exact fun s s' action hs howned hstep => hs.step howned hstep

theorem Sockets.heap_of_fdOf {s : Sockets} {c : ConnPtr} {fd : Nat} (h : s.fdOf c = some fd) :
    ∃ conn, s.heap c = some conn ∧ conn.fd = fd := by
  obtain ⟨conn, hconn, rfl⟩ := Option.map_eq_some_iff.mp h
  exact ⟨conn, hconn, rfl⟩

/-- **No callback reaches a deleted connection.**  Whatever the order of the steps, the connection
    that the poll thread is calling exists and has the descriptor it is called for, and so does
    every connection that is registered with the poll manager.  A thread that has a reference
    has one to a connection that exists, and the connection counts just these references. -/
theorem callbacks_reach_live_connections {pipefd : Nat} {s : Sockets}
    (h : (sockets pipefd).Reach Sockets.Owned s) :
    (∀ write c fd readable writable, s.poll.stage = .inCallback write c fd readable writable →
      ∃ conn, s.heap c = some conn ∧ conn.fd = fd) ∧
    (∀ fd c, s.poll.callbacks fd = some c → ∃ conn, s.heap c = some conn ∧ conn.fd = fd) ∧
    (∀ t c, (t, c) ∈ s.refs → ∃ conn, s.heap c = some conn ∧
      conn.refno = (s.refs.countP fun p => p.2 = c : Nat)) := by
  have hs := sockets_invariant h
  refine ⟨?_, ?_, ?_⟩
  · intro write c fd readable writable hstage
    exact Sockets.heap_of_fdOf (hs.registered fd c (hs.running write c fd readable writable hstage))
  · exact fun fd c hc => Sockets.heap_of_fdOf (hs.registered fd c hc)
  · intro t c hmem
    obtain ⟨fd, hfd⟩ := Option.ne_none_iff_exists'.mp (hs.alive _ hmem)
    obtain ⟨conn, hconn, -⟩ := Sockets.heap_of_fdOf hfd
    exact ⟨conn, hconn, hs.refno c conn hconn⟩

/-- The poll thread is in the callback of a connection that another thread has closed. -/
theorem callbacks_reach_live_connections_closed :
    ∃ s, (sockets 3).Reach Sockets.Owned s ∧
      s.poll.stage = .inCallback false 10 5 [] [] ∧ s.calls 1 = some (.removing 10 5) ∧
      ∃ conn, s.heap 10 = some conn ∧ conn.fd = 5 := by
  obtain ⟨s, hs, hview⟩ : ∃ s, (sockets 3).Reach Sockets.Owned s ∧
      (s.poll.stage, s.calls 1) = (.inCallback false 10 5 [] [], some (.removing 10 5)) :=
    System.Reach.of_exec (fun s action => decide (s.Owned action))
      [.connect 1 10 5 (0, 0), .loop .top, .loop .copy, .loop (.select {3, 5} ∅), .loop .check,
        .loop .call, .closeconn 1 10, .remove 1]
      rfl (fun _ _ h => of_decide_eq_true h) (by decide +kernel)
  simp only [Prod.mk.injEq] at hview
  exact ⟨s, hs, hview.1, hview.2,
    (callbacks_reach_live_connections hs).1 false 10 5 [] [] hview.1⟩

/-- **A descriptor is closed in time and may be used again.**  The connections keep to what the
    poll manager asks of its users, so all of its guarantees hold.  `select` is never called with
    a descriptor that is closed, and a new connection finds no callback of an old one where it
    registers its own. -/
theorem descriptors_are_reusable {pipefd : Nat} {s : Sockets}
    (h : (sockets pipefd).Reach Sockets.Owned s) :
    (pollMgr pipefd).Reach PollMgr.Orderly s.poll ∧
    (∀ sets, s.poll.stage = .selecting sets → ∀ fd ∈ sets.rfds ∪ sets.wfds,
      fd = pipefd ∨ fd ∈ s.fds) ∧
    (∀ t c fd time, s.heap c = none → fd ∉ s.fds → fd ≠ pipefd → fd < maxPollFds →
      (s.connect t c fd time).isSome) := by
  have hs := sockets_invariant h
  refine ⟨hs.poll, ?_, ?_⟩
  · intro sets hstage fd hfd
    by_cases hpipe : fd = pipefd
    · exact .inl hpipe
    · exact .inr (hs.selected fd ⟨sets, hstage, hfd⟩ hpipe)
  · intro t c fd time hfree hfd hpipe hbound
    have hnone : s.poll.callbacks fd = none := by
      by_contra hsome
      obtain ⟨x, hx⟩ := Option.ne_none_iff_exists'.mp hsome
      exact hfd (hs.opened x fd (hs.registered fd x hx)).1
    have hpipe : fd ≠ s.poll.aio.pipefd := (pollMgr_invariant hs.poll).pipe ▸ hpipe
    rw [Sockets.connect, if_pos ⟨hfree, hfd, hpipe⟩, PollMgr.addCallback,
      if_pos ⟨hbound, .inl hnone⟩]
    rfl

/-- A connection is closed, removed and deleted, and its descriptor can be used again. -/
theorem descriptors_are_reusable_deleted :
    ∃ s, (sockets 3).Reach Sockets.Owned s ∧ s.heap 10 = none ∧ s.fds = ∅ ∧
      (s.connect 2 11 5 (1, 0)).isSome := by
  obtain ⟨s, hs, hview⟩ : ∃ s, (sockets 3).Reach Sockets.Owned s ∧
      (s.heap 10, s.heap 11, s.fds) = (none, none, ∅) :=
    System.Reach.of_exec (fun s action => decide (s.Owned action))
      [.connect 1 10 5 (0, 0), .loop .top, .loop .copy, .loop (.select {3, 5} ∅), .loop .check,
        .loop .call, .closeconn 1 10, .remove 1, .readCb .nothing, .loop .check, .loop .top,
        .removeReturns 1, .decref 1 10]
      rfl (fun _ _ h => of_decide_eq_true h) (by decide +kernel)
  simp only [Prod.mk.injEq] at hview
  obtain ⟨hdeleted, hfree, hfds⟩ := hview
  exact ⟨s, hs, hdeleted, hfds, (descriptors_are_reusable hs).2.2 2 11 5 (1, 0) hfree
    (by simp [hfds]) (by decide) (by decide)⟩

end DistributedLab.Rpc
