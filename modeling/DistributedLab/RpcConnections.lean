import DistributedLab.OrderedMap
import DistributedLab.RpcWindow
import DistributedLab.Transition
import Mathlib.Algebra.Group.Int.Defs
import Mathlib.Algebra.Group.Pi.Lemmas
import Mathlib.Data.List.Count
import Mathlib.Tactic.Abel

/-!
# References to the connections of a server

A connection counts its references: one for `tcpsconn`, which has accepted it, one for every
client in `conns_` whose latest connection it is, and one for every request that waits for a
dispatch thread or is worked on.  A dead connection is deleted with its last reference, and
`tcpsconn` gives its own up when it is the only one.

The steps are the critical sections of `got_pdu` and `dispatch`, and the server may take them
in any order.  Most of them take a reference and give one back in between, so the proofs keep
an account of what a count exceeds the references by.  Every operation changes it by one
reference at most, and what a step adds up to does not depend on the state it is taken in.
-/

namespace DistributedLab.Rpc

open Transition

abbrev ConnPtr := Nat

/-- `class connection`. -/
structure Conn where
  refno : Int
  dead : Bool
  createTime : Nat × Nat
deriving DecidableEq, Repr

/-- `connection::compare`: seconds, then microseconds. -/
def Conn.compare (conn another : Conn) : Int :=
  if conn.createTime.1 > another.createTime.1 then 1
  else if conn.createTime.1 < another.createTime.1 then -1
  else if conn.createTime.2 > another.createTime.2 then 1
  else if conn.createTime.2 < another.createTime.2 then -1
  else 0

/-- How far a request has come in `dispatch`.  The header is missing if it is malformed. -/
inductive DispatchStage where
  | queued (pdu : Option Request)
  /-- About to save the connection as the latest one to the client. -/
  | started (h : Request)
  /-- About to call `checkduplicate_and_update`. -/
  | saved (h : Request)
  /-- NEW: about to look up the latest connection to the client. -/
  | executing (h : Request)
  /-- About to send, and to give the reference back. -/
  | ending
deriving DecidableEq, Repr

/-- `djob_t`, and then the local variable `c` of `dispatch`. -/
structure DispatchJob where
  conn : ConnPtr
  stage : DispatchStage
deriving DecidableEq, Repr

/-- The connections of an `rpcs`.  `accepted` are those in the table of `tcpsconn`, and `tests` the
    calls of `got_pdu` that have queued their request and not yet looked at `reachable_` again. -/
structure ConnServer where
  nonce : Nat
  procs : List Nat
  reachable : Bool
  heap : ConnPtr → Option Conn
  accepted : List ConnPtr
  conns : OrderedMap Nat ConnPtr
  jobs : List DispatchJob
  tests : List ConnPtr

def ConnServer.setConn (s : ConnServer) (c : ConnPtr) (conn : Option Conn) : ConnServer :=
  { s with heap := Function.update s.heap c conn }

/-- `connection::incref`.  Here and below `none` is a fault: the use of a deleted connection or a
    failed `VERIFY`. -/
def ConnServer.incref (s : ConnServer) (c : ConnPtr) : Option ConnServer :=
  match s.heap c with
  | none => none
  | some conn => some (s.setConn c (some { conn with refno := conn.refno + 1 }))

/-- `connection::decref`. -/
def ConnServer.decref (s : ConnServer) (c : ConnPtr) : Option ConnServer :=
  match s.heap c with
  | none => none
  | some conn =>
      if conn.refno - 1 < 0 then none
      else if conn.refno - 1 = 0 ∧ conn.dead = true then some (s.setConn c none)
      else some (s.setConn c (some { conn with refno := conn.refno - 1 }))

def ConnServer.queue (s : ConnServer) (job : DispatchJob) : ConnServer :=
  { s with jobs := job :: s.jobs }

def ConnServer.drop (s : ConnServer) (job : DispatchJob) : ConnServer :=
  { s with jobs := s.jobs.erase job }

/-- `conns_[nonce] = c`. -/
def ConnServer.link (s : ConnServer) (nonce : Nat) (c : ConnPtr) : ConnServer :=
  { s with conns := s.conns.insert nonce c }

/-- `process_accept`: a new connection at a place that was not in use. -/
def ConnServer.accept (s : ConnServer) (c : ConnPtr) (time : Nat × Nat) : Option ConnServer :=
  match s.heap c with
  | none => some { s.setConn c (some { refno := 1, dead := false, createTime := time }) with
      accepted := c :: s.accepted }
  | some _ => none

/-- A connection dies: its peer is gone, or `closeconn`. -/
def ConnServer.die (s : ConnServer) (c : ConnPtr) : Option ConnServer :=
  match s.heap c with
  | none => none
  | some conn => some (s.setConn c (some { conn with dead := true }))

/-- `tcpsconn` gives its reference up. -/
def ConnServer.disown (s : ConnServer) (c : ConnPtr) : Option ConnServer :=
  if c ∈ s.accepted then { s with accepted := s.accepted.erase c }.decref c else none

/-- `process_accept` collects a dead connection that nobody else refers to. -/
def ConnServer.collect (s : ConnServer) (c : ConnPtr) : Option ConnServer :=
  match s.heap c with
  | none => none
  | some conn => if conn.dead = true ∧ conn.refno = 1 then s.disown c else none

/-- `tcpsconn::~tcpsconn` closes a connection. -/
def ConnServer.close (s : ConnServer) (c : ConnPtr) : Option ConnServer :=
  (s.die c).bind fun t => t.disown c

/-- `rpcs::got_pdu` up to its second look at `reachable_`; `succ` is what the thread pool
    returns. -/
def ConnServer.gotPdu (s : ConnServer) (c : ConnPtr) (pdu : Option Request) (succ : Bool) :
    Option ConnServer :=
  if s.reachable = true then
    (s.incref c).bind fun t =>
      if succ = true then some { t.queue ⟨c, .queued pdu⟩ with tests := c :: t.tests }
      else t.decref c
  else some s

/-- The second look at `reachable_`. -/
def ConnServer.retest (s : ConnServer) (c : ConnPtr) : Option ConnServer :=
  if c ∈ s.tests then
    let t := { s with tests := s.tests.erase c }
    if s.reachable = true then some t else t.decref c
  else none

/-- `rpcs::dispatch` up to the use of the client's nonce. -/
def ConnServer.start (s : ConnServer) (job : DispatchJob) : Option ConnServer :=
  match job.stage with
  | .queued none => (s.drop job).decref job.conn
  | .queued (some h) =>
      if h.srvNonce ≠ 0 ∧ h.srvNonce ≠ s.nonce then
        -- sends the failure and returns
        (s.heap job.conn).map fun _ => s.drop job
      else if h.proc ∉ s.procs then none
      else some ((s.drop job).queue ⟨job.conn, if h.clt = 0 then .executing h else .started h⟩)
  | _ => none

/-- The latest connection to the client is saved in `conns_`. -/
def ConnServer.save (s : ConnServer) (job : DispatchJob) : Option ConnServer :=
  match job.stage with
  | .started h =>
      let t := (s.drop job).queue ⟨job.conn, .saved h⟩
      match s.conns.find? h.clt with
      | none => (t.incref job.conn).map fun u => u.link h.clt job.conn
      | some old =>
          match s.heap old, s.heap job.conn with
          | some oldConn, some conn =>
              if oldConn.compare conn < 0 then
                (t.decref old).bind fun u =>
                  (u.incref job.conn).map fun v => v.link h.clt job.conn
              else some t
          | _, _ => none
  | _ => none

/-- What `checkduplicate_and_update` says. -/
def ConnServer.classify (s : ConnServer) (job : DispatchJob) (stat : RpcState) :
    Option ConnServer :=
  match job.stage with
  | .saved h =>
      some ((s.drop job).queue ⟨job.conn, if stat = .new then .executing h else .ending⟩)
  | _ => none

/-- After the handler the reply goes to the latest connection if the job's own is dead. -/
def ConnServer.relink (s : ConnServer) (job : DispatchJob) : Option ConnServer :=
  match job.stage with
  | .executing h =>
      match s.heap job.conn with
      | none => none
      | some conn =>
          if conn.dead = true ∧ s.conns.find? h.clt ≠ some job.conn then
            match s.conns.find? h.clt with
            | none => none
            | some latest =>
                ((s.drop job).decref job.conn).bind fun t =>
                  (t.incref latest).map fun u => u.queue ⟨latest, .ending⟩
          else some ((s.drop job).queue ⟨job.conn, .ending⟩)
  | _ => none

/-- The end of `dispatch`. -/
def ConnServer.finish (s : ConnServer) (job : DispatchJob) : Option ConnServer :=
  match job.stage with
  | .ending => (s.drop job).decref job.conn
  | _ => none

inductive ConnAction where
  | accept (c : ConnPtr) (time : Nat × Nat)
  | die (c : ConnPtr)
  | collect (c : ConnPtr)
  | close (c : ConnPtr)
  | setReachable (r : Bool)
  | gotPdu (c : ConnPtr) (pdu : Option Request) (succ : Bool)
  | retest (c : ConnPtr)
  | start (job : DispatchJob)
  | save (job : DispatchJob)
  | classify (job : DispatchJob) (stat : RpcState)
  | relink (job : DispatchJob)
  | finish (job : DispatchJob)
deriving DecidableEq, Repr

def ConnServer.step (s : ConnServer) : ConnAction → Option ConnServer
  | .accept c time => s.accept c time
  | .die c => s.die c
  | .collect c => s.collect c
  | .close c => s.close c
  | .setReachable r => some { s with reachable := r }
  | .gotPdu c pdu succ => s.gotPdu c pdu succ
  | .retest c => s.retest c
  | .start job => if job ∈ s.jobs then s.start job else none
  | .save job => if job ∈ s.jobs then s.save job else none
  | .classify job stat => if job ∈ s.jobs then s.classify job stat else none
  | .relink job => if job ∈ s.jobs then s.relink job else none
  | .finish job => if job ∈ s.jobs then s.finish job else none

/-- A server that has just been created. -/
def connections (nonce : Nat) (procs : List Nat) : System ConnServer ConnAction where
  init := fun s => s =
    { nonce := nonce, procs := procs, reachable := true, heap := fun _ => none,
      accepted := [], conns := .empty, jobs := [], tests := [] }
  step := ConnServer.step

/-! ### Accounts -/

/-- `refno_`, and 0 for a connection that does not exist. -/
def ConnServer.refno (s : ConnServer) (c : ConnPtr) : Int := ((s.heap c).map Conn.refno).getD 0

/-- The references that there are to a connection: that of its owner, the entries of `conns_` and
    the requests that are queued or worked on. -/
def ConnServer.refs (s : ConnServer) (c : ConnPtr) : Int :=
  (s.accepted.count c : Nat) + (s.conns.countValues (· == c) : Nat) +
    (s.jobs.countP fun job => job.conn == c : Nat)

/-- What the count of a connection exceeds the references to it by. -/
def ConnServer.excess (s : ConnServer) : ConnPtr → Int := s.refno - s.refs

/-- One reference to `c`. -/
def oneRef (c : ConnPtr) : ConnPtr → Int := Pi.single c 1

section Accounts

variable {s t : ConnServer} {c : ConnPtr} {job : DispatchJob}

theorem oneRef_apply (c q : ConnPtr) : oneRef c q = if q = c then 1 else 0 :=
  Pi.single_apply ..

theorem ConnServer.refno_setConn (conn : Option Conn) :
    (s.setConn c conn).refno =
      s.refno + Pi.single c ((conn.map Conn.refno).getD 0 - s.refno c) := by
  funext q
  rw [Pi.add_apply, Pi.single_apply]
  by_cases hq : q = c
  · subst hq
    simp [ConnServer.refno, ConnServer.setConn]
  · simp [ConnServer.refno, ConnServer.setConn, hq]

theorem ConnServer.refs_setConn (conn : Option Conn) : (s.setConn c conn).refs = s.refs :=
  rfl

theorem ConnServer.excess_setConn {conn : Conn} {conn' : Option Conn} {k : Int}
    (hconn : s.heap c = some conn) (hrefno : (conn'.map Conn.refno).getD 0 = conn.refno + k) :
    (s.setConn c conn').excess = s.excess + Pi.single c k := by
  have hc : s.refno c = conn.refno := by rw [ConnServer.refno, hconn]; rfl
  rw [ConnServer.excess, ConnServer.refno_setConn, ConnServer.refs_setConn, hrefno, hc,
    add_sub_cancel_left, ConnServer.excess]
  abel

theorem ConnServer.excess_incref (h : s.incref c = some t) : t.excess = s.excess + oneRef c := by
  unfold ConnServer.incref at h
  split at h
  · cases h
  · rename_i conn hconn
    obtain rfl := Option.some.inj h
    exact ConnServer.excess_setConn hconn rfl

theorem ConnServer.excess_decref (h : s.decref c = some t) : t.excess = s.excess - oneRef c := by
  have hsub : s.excess - oneRef c = s.excess + Pi.single c (-1) := by
    rw [Pi.single_neg, sub_eq_add_neg]
    rfl
  rw [hsub]
  unfold ConnServer.decref at h
  split at h
  · cases h
  · rename_i conn hconn
    split_ifs at h with hverify hlast
    · obtain rfl := Option.some.inj h
      -- the connection is deleted with its last reference
      refine ConnServer.excess_setConn hconn ?_
      have := hlast.1
      show 0 = conn.refno + -1
      omega
    · obtain rfl := Option.some.inj h
      exact ConnServer.excess_setConn hconn rfl

/-- References that come and go without the count. -/
theorem ConnServer.excess_of_refs {d : ConnPtr → Int} (hrefs : t.refs = s.refs + d)
    (hheap : t.heap = s.heap) : t.excess = s.excess - d := by
  have hrefno : t.refno = s.refno := by
    funext q
    rw [ConnServer.refno, ConnServer.refno, hheap]
  rw [ConnServer.excess, ConnServer.excess, hrefno, hrefs]
  abel

theorem ConnServer.excess_queue (job : DispatchJob) :
    (s.queue job).excess = s.excess - oneRef job.conn := by
  refine ConnServer.excess_of_refs ?_ rfl
  funext q
  simp only [ConnServer.refs, ConnServer.queue, Pi.add_apply, oneRef_apply, List.countP_cons,
    beq_iff_eq, @eq_comm _ job.conn q]
  split <;> omega

theorem ConnServer.excess_drop (hjob : job ∈ s.jobs) :
    (s.drop job).excess = s.excess + oneRef job.conn := by
  have hback : ((s.drop job).queue job).excess = s.excess := by
    have hperm := List.perm_cons_erase hjob
    have hrefs : ((s.drop job).queue job).refs = s.refs + 0 := by
      funext q
      rw [add_zero, ConnServer.refs, ConnServer.refs, hperm.countP_eq]
      rfl
    rw [ConnServer.excess_of_refs hrefs rfl, sub_zero]
  rw [← hback, ConnServer.excess_queue, sub_add_cancel]

/-- A request that goes on, with the same connection. -/
theorem ConnServer.excess_drop_queue (hjob : job ∈ s.jobs) (stage : DispatchStage) :
    ((s.drop job).queue ⟨job.conn, stage⟩).excess = s.excess := by
  rw [ConnServer.excess_queue, ConnServer.excess_drop hjob, add_sub_cancel_right]

theorem ConnServer.excess_link (nonce : Nat) (c : ConnPtr) :
    (s.link nonce c).excess =
      s.excess + ((s.conns.find? nonce).map oneRef).getD 0 - oneRef c := by
  have hrefs : (s.link nonce c).refs =
      s.refs + (oneRef c - ((s.conns.find? nonce).map oneRef).getD 0) := by
    funext q
    have hcount := s.conns.countValues_insert nonce c (· == q)
    have hc : ([c].countP (· == q) : Int) = oneRef c q := by
      rw [oneRef_apply]
      simp only [List.countP_cons, List.countP_nil, beq_iff_eq, @eq_comm _ c q]
      split <;> rfl
    have hold : ((s.conns.find? nonce).toList.countP (· == q) : Int) =
        ((s.conns.find? nonce).map oneRef).getD 0 q := by
      cases s.conns.find? nonce with
      | none => rfl
      | some old =>
          rw [Option.map_some, Option.getD_some, oneRef_apply]
          simp only [Option.toList_some, List.countP_cons, List.countP_nil, beq_iff_eq,
            @eq_comm _ old q]
          split <;> rfl
    rw [Pi.add_apply, Pi.sub_apply, ← hc, ← hold]
    simp only [ConnServer.refs, ConnServer.link]
    omega
  rw [ConnServer.excess_of_refs hrefs rfl]
  abel

theorem ConnServer.excess_disown (h : s.disown c = some t) : t.excess = s.excess := by
  obtain ⟨hmem, hdecref⟩ := Option.ite_none_right_eq_some.mp h
  have hrefs : ConnServer.refs { s with accepted := s.accepted.erase c } = s.refs + -oneRef c := by
    funext q
    have hpos := List.count_pos_iff.mpr hmem
    simp only [ConnServer.refs, Pi.add_apply, Pi.neg_apply, oneRef_apply]
    by_cases hq : q = c
    · rw [if_pos hq, hq, List.count_erase_self]
      omega
    · rw [if_neg hq, List.count_erase_of_ne hq]
      omega
  rw [ConnServer.excess_decref hdecref, ConnServer.excess_of_refs hrefs rfl, sub_neg_eq_add,
    add_sub_cancel_right]

theorem ConnServer.excess_die (h : s.die c = some t) : t.excess = s.excess := by
  unfold ConnServer.die at h
  split at h
  · cases h
  · rename_i conn hconn
    obtain rfl := Option.some.inj h
    have hrefno : ((some { conn with dead := true }).map Conn.refno).getD 0 = conn.refno + 0 :=
      (add_zero conn.refno).symm
    rw [ConnServer.excess_setConn hconn hrefno, Pi.single_zero, add_zero]

theorem ConnServer.excess_accept {time : Nat × Nat} (h : s.accept c time = some t) :
    t.excess = s.excess := by
  unfold ConnServer.accept at h
  split at h
  · rename_i hfresh
    obtain rfl := Option.some.inj h
    funext q
    by_cases hq : q = c
    · subst hq
      simp [ConnServer.excess, ConnServer.refno, ConnServer.refs, ConnServer.setConn, hfresh]
      omega
    · simp [ConnServer.excess, ConnServer.refno, ConnServer.refs, ConnServer.setConn, hq,
        Ne.symm hq]
  · cases h

end Accounts

/-! ### What each step adds up to -/

/-- The references that a step takes and does not give back, or gives back without having taken
    them. -/
def ConnServer.leak (s : ConnServer) : ConnAction → ConnPtr → Int
  | .start ⟨c, .queued (some h)⟩ =>
      if h.srvNonce ≠ 0 ∧ h.srvNonce ≠ s.nonce then oneRef c else 0
  | .retest c => if s.reachable = true then 0 else -oneRef c
  | _ => 0

section Steps

variable {s t : ConnServer} {c : ConnPtr} {job : DispatchJob}

theorem ConnServer.excess_gotPdu {pdu : Option Request} {succ : Bool}
    (h : s.gotPdu c pdu succ = some t) : t.excess = s.excess := by
  unfold ConnServer.gotPdu at h
  by_cases hreachable : s.reachable = true
  · rw [if_pos hreachable] at h
    obtain ⟨u, hincref, hu⟩ := Option.bind_eq_some_iff.mp h
    have hexcess := ConnServer.excess_incref hincref
    split_ifs at hu
    · obtain rfl := Option.some.inj hu
      show (u.queue ⟨c, .queued pdu⟩).excess = _
      rw [ConnServer.excess_queue, hexcess, add_sub_cancel_right]
    · rw [ConnServer.excess_decref hu, hexcess, add_sub_cancel_right]
  · rw [if_neg hreachable] at h
    rw [Option.some.inj h]

theorem ConnServer.excess_retest (h : s.retest c = some t) :
    t.excess = s.excess + s.leak (.retest c) := by
  unfold ConnServer.retest at h
  split_ifs at h with hmem hreachable
  · obtain rfl := Option.some.inj h
    rw [ConnServer.leak, if_pos hreachable, add_zero]
    rfl
  · rw [ConnServer.excess_decref h, ConnServer.leak, if_neg hreachable, ← sub_eq_add_neg]
    rfl

theorem ConnServer.excess_start (hjob : job ∈ s.jobs) (h : s.start job = some t) :
    t.excess = s.excess + s.leak (.start job) := by
  obtain ⟨c, stage⟩ := job
  cases stage with
  | queued pdu =>
      cases pdu with
      | none =>
          rw [ConnServer.excess_decref h, ConnServer.excess_drop hjob, add_sub_cancel_right]
          exact (add_zero _).symm
      | some header =>
          simp only [ConnServer.start] at h
          rw [ConnServer.leak]
          by_cases hold : header.srvNonce ≠ 0 ∧ header.srvNonce ≠ s.nonce
          · rw [if_pos hold] at h ⊢
            obtain ⟨conn, -, rfl⟩ := Option.map_eq_some_iff.mp h
            exact ConnServer.excess_drop hjob
          · rw [if_neg hold] at h ⊢
            obtain ⟨-, hgoes⟩ := Option.ite_none_left_eq_some.mp h
            obtain rfl := Option.some.inj hgoes
            rw [ConnServer.excess_drop_queue hjob, add_zero]
  | started header => cases h
  | saved header => cases h
  | executing header => cases h
  | ending => cases h

/-- Only counts and marks of connections change. -/
structure ConnServer.SameTables (s t : ConnServer) : Prop where
  accepted : t.accepted = s.accepted
  conns : t.conns = s.conns
  jobs : t.jobs = s.jobs

theorem ConnServer.incref_tables (h : s.incref c = some t) : s.SameTables t := by
  unfold ConnServer.incref at h
  split at h
  · cases h
  · obtain rfl := Option.some.inj h
    exact ⟨rfl, rfl, rfl⟩

theorem ConnServer.decref_tables (h : s.decref c = some t) : s.SameTables t := by
  unfold ConnServer.decref at h
  split at h
  · cases h
  · split_ifs at h
    · obtain rfl := Option.some.inj h
      exact ⟨rfl, rfl, rfl⟩
    · obtain rfl := Option.some.inj h
      exact ⟨rfl, rfl, rfl⟩

theorem ConnServer.die_tables (h : s.die c = some t) : s.SameTables t := by
  unfold ConnServer.die at h
  split at h
  · cases h
  · obtain rfl := Option.some.inj h
    exact ⟨rfl, rfl, rfl⟩

theorem ConnServer.excess_save (hjob : job ∈ s.jobs) (h : s.save job = some t) :
    t.excess = s.excess := by
  unfold ConnServer.save at h
  split at h
  · rename_i header hstage
    have hgoes := ConnServer.excess_drop_queue hjob (.saved header)
    split at h
    · rename_i hnone
      obtain ⟨u, hincref, rfl⟩ := Option.map_eq_some_iff.mp h
      have hfind : u.conns.find? header.clt = none := by
        rw [(ConnServer.incref_tables hincref).conns]
        exact hnone
      rw [ConnServer.excess_link, ConnServer.excess_incref hincref, hgoes, hfind]
      show _ + 0 - _ = _
      rw [add_zero, add_sub_cancel_right]
    · rename_i old hold
      split at h
      · split_ifs at h
        · obtain ⟨u, hdecref, hu⟩ := Option.bind_eq_some_iff.mp h
          obtain ⟨v, hincref, rfl⟩ := Option.map_eq_some_iff.mp hu
          have hfind : v.conns.find? header.clt = some old := by
            rw [(ConnServer.incref_tables hincref).conns, (ConnServer.decref_tables hdecref).conns]
            exact hold
          rw [ConnServer.excess_link, ConnServer.excess_incref hincref,
            ConnServer.excess_decref hdecref, hgoes, hfind]
          show _ - _ + _ + oneRef old - _ = _
          abel
        · obtain rfl := Option.some.inj h
          exact hgoes
      · cases h
  · cases h

theorem ConnServer.excess_classify (hjob : job ∈ s.jobs) {stat : RpcState}
    (h : s.classify job stat = some t) : t.excess = s.excess := by
  unfold ConnServer.classify at h
  split at h
  · obtain rfl := Option.some.inj h
    exact ConnServer.excess_drop_queue hjob _
  · cases h

theorem ConnServer.excess_relink (hjob : job ∈ s.jobs) (h : s.relink job = some t) :
    t.excess = s.excess := by
  unfold ConnServer.relink at h
  split at h
  · split at h
    · cases h
    · split_ifs at h
      · split at h
        · cases h
        · obtain ⟨u, hdecref, hu⟩ := Option.bind_eq_some_iff.mp h
          obtain ⟨v, hincref, rfl⟩ := Option.map_eq_some_iff.mp hu
          rw [ConnServer.excess_queue, ConnServer.excess_incref hincref,
            ConnServer.excess_decref hdecref, ConnServer.excess_drop hjob, add_sub_cancel_right,
            add_sub_cancel_right]
      · obtain rfl := Option.some.inj h
        exact ConnServer.excess_drop_queue hjob _
  · cases h

theorem ConnServer.excess_finish (hjob : job ∈ s.jobs) (h : s.finish job = some t) :
    t.excess = s.excess := by
  unfold ConnServer.finish at h
  split at h
  · rw [ConnServer.excess_decref h, ConnServer.excess_drop hjob, add_sub_cancel_right]
  · cases h

/-- **A step changes the account by what it leaks.** -/
theorem ConnServer.excess_step {action : ConnAction} (h : s.step action = some t) :
    t.excess = s.excess + s.leak action := by
  have hzero : s.excess = s.excess + 0 := (add_zero _).symm
  cases action with
  | retest c => exact ConnServer.excess_retest h
  | start job =>
      obtain ⟨hjob, hstart⟩ := Option.ite_none_right_eq_some.mp h
      exact ConnServer.excess_start hjob hstart
  | accept c time => exact (ConnServer.excess_accept h).trans hzero
  | die c => exact (ConnServer.excess_die h).trans hzero
  | collect c =>
      simp only [ConnServer.step, ConnServer.collect] at h
      split at h
      · cases h
      · exact (ConnServer.excess_disown (Option.ite_none_right_eq_some.mp h).2).trans hzero
  | close c =>
      obtain ⟨u, hdie, hdisown⟩ := Option.bind_eq_some_iff.mp h
      rw [ConnServer.excess_disown hdisown, ConnServer.excess_die hdie]
      exact hzero
  | setReachable r =>
      obtain rfl := Option.some.inj h
      exact hzero
  | gotPdu c pdu succ => exact (ConnServer.excess_gotPdu h).trans hzero
  | save job =>
      obtain ⟨hjob, hsave⟩ := Option.ite_none_right_eq_some.mp h
      exact (ConnServer.excess_save hjob hsave).trans hzero
  | classify job stat =>
      obtain ⟨hjob, hclassify⟩ := Option.ite_none_right_eq_some.mp h
      exact (ConnServer.excess_classify hjob hclassify).trans hzero
  | relink job =>
      obtain ⟨hjob, hrelink⟩ := Option.ite_none_right_eq_some.mp h
      exact (ConnServer.excess_relink hjob hrelink).trans hzero
  | finish job =>
      obtain ⟨hjob, hfinish⟩ := Option.ite_none_right_eq_some.mp h
      exact (ConnServer.excess_finish hjob hfinish).trans hzero

end Steps

/-! ### The balance -/

/-- Every count is that of the references, nothing refers to a deleted connection, and a
    connection has one owner at most. -/
structure ConnServer.Balanced (s : ConnServer) : Prop where
  refno : ∀ c conn, s.heap c = some conn → conn.refno = s.refs c
  alive : ∀ c, s.heap c = none → s.refs c = 0
  owner : s.accepted.Nodup

/-- A request is not for an older instance of the server, and `reachable_` does not change while
    `got_pdu` queues one. -/
def ConnServer.Counted (s : ConnServer) : ConnAction → Prop
  | .start job =>
      match job.stage with
      | .queued (some h) => h.srvNonce = 0 ∨ h.srvNonce = s.nonce
      | _ => True
  | .retest _ => s.reachable = true
  | _ => True

section Balance

variable {s t : ConnServer} {c : ConnPtr} {job : DispatchJob}

theorem ConnServer.balanced_iff : s.Balanced ↔ s.excess = 0 ∧ s.accepted.Nodup := by
  constructor
  · refine fun h => ⟨?_, h.owner⟩
    funext q
    rw [ConnServer.excess, Pi.sub_apply, Pi.zero_apply, sub_eq_zero, ConnServer.refno]
    cases hheap : s.heap q with
    | none => exact (h.alive q hheap).symm
    | some conn => exact h.refno q conn hheap
  · rintro ⟨hexcess, howner⟩
    have heq : ∀ q, s.refno q = s.refs q := fun q => sub_eq_zero.mp (congrFun hexcess q)
    refine ⟨fun q conn hconn => ?_, fun q hnone => ?_, howner⟩
    · rw [← heq q, ConnServer.refno, hconn]
      rfl
    · rw [← heq q, ConnServer.refno, hnone]
      rfl

theorem oneRef_ne_zero (c : ConnPtr) : oneRef c ≠ 0 := by
  intro h
  have := congrFun h c
  rw [oneRef_apply, if_pos rfl] at this
  cases this

theorem ConnServer.leak_eq_zero_iff {action : ConnAction} :
    s.leak action = 0 ↔ s.Counted action := by
  cases action with
  | start job =>
      obtain ⟨c, stage⟩ := job
      cases stage with
      | queued pdu =>
          cases pdu with
          | none => exact iff_of_true rfl trivial
          | some header =>
              simp only [ConnServer.leak, ConnServer.Counted, ite_eq_right_iff, oneRef_ne_zero,
                imp_false, not_and_or, not_not]
      | started header => exact iff_of_true rfl trivial
      | saved header => exact iff_of_true rfl trivial
      | executing header => exact iff_of_true rfl trivial
      | ending => exact iff_of_true rfl trivial
  | retest c =>
      simp only [ConnServer.leak, ConnServer.Counted, ite_eq_left_iff, neg_eq_zero, oneRef_ne_zero,
        imp_false, not_not]
  | _ => exact iff_of_true rfl trivial

end Balance

/-! ### Requests are dispatched to the end -/

/-- The request whose client `dispatch` has saved a connection for. -/
def DispatchStage.client : DispatchStage → Option Request
  | .saved h => some h
  | .executing h => some h
  | _ => none

/-- The client is in `conns_` when `dispatch` looks for its latest connection. -/
def DispatchJob.Linked (job : DispatchJob) (conns : OrderedMap Nat ConnPtr) : Prop :=
  ∀ h ∈ job.stage.client, h.clt ≠ 0 → conns.Has h.clt

/-- What a step does to the tables of the server. -/
structure ConnServer.Goes (s t : ConnServer) : Prop where
  accepted : t.accepted = s.accepted ∨ (∃ c, t.accepted = s.accepted.erase c) ∨
    ∃ c, s.heap c = none ∧ t.accepted = c :: s.accepted
  conns : ∀ nonce, s.conns.Has nonce → t.conns.Has nonce
  jobs : ∀ job ∈ t.jobs, job ∈ s.jobs ∨
    ((∀ job ∈ s.jobs, job.Linked s.conns) → job.Linked t.conns)

section Tables

variable {s t u : ConnServer} {c : ConnPtr} {job : DispatchJob}

theorem ConnServer.SameTables.goes (h : s.SameTables t) : s.Goes t where
  accepted := .inl h.accepted
  conns := fun nonce => by rw [h.conns]; exact id
  jobs := fun job hjob => .inl (h.jobs ▸ hjob)

/-- The request of a job ends, or goes on as `next`. -/
theorem ConnServer.SameTables.goes_drop (h : (s.drop job).SameTables t) : s.Goes t where
  accepted := .inl h.accepted
  conns := fun nonce => by rw [h.conns]; exact id
  jobs := fun other hother => .inl (List.mem_of_mem_erase (h.jobs ▸ hother))

theorem ConnServer.goes_queue {next : DispatchJob} (h : s.Goes t)
    (hlinked : (∀ job ∈ s.jobs, job.Linked s.conns) → next.Linked t.conns) :
    s.Goes (t.queue next) where
  accepted := h.accepted
  conns := h.conns
  jobs := fun other hother => by
    rcases List.mem_cons.mp hother with rfl | hmem
    · exact .inr hlinked
    · exact h.jobs other hmem

theorem ConnServer.SameTables.trans (h : s.SameTables t) (h' : t.SameTables u) :
    s.SameTables u :=
  ⟨h'.accepted.trans h.accepted, h'.conns.trans h.conns, h'.jobs.trans h.jobs⟩

theorem ConnServer.goes_disown (h : s.disown c = some t) : s.Goes t := by
  obtain ⟨-, hdecref⟩ := Option.ite_none_right_eq_some.mp h
  have htables := ConnServer.decref_tables hdecref
  exact ⟨.inr (.inl ⟨c, htables.accepted⟩), htables.goes.conns, fun job hjob =>
    .inl (htables.jobs ▸ hjob)⟩

theorem ConnServer.goes_gotPdu {pdu : Option Request} {succ : Bool}
    (h : s.gotPdu c pdu succ = some t) : s.Goes t := by
  unfold ConnServer.gotPdu at h
  by_cases hreachable : s.reachable = true
  · rw [if_pos hreachable] at h
    obtain ⟨u, hincref, hu⟩ := Option.bind_eq_some_iff.mp h
    have htables := ConnServer.incref_tables hincref
    split_ifs at hu
    · obtain rfl := Option.some.inj hu
      have hgoes : s.Goes (u.queue ⟨c, .queued pdu⟩) :=
        ConnServer.goes_queue htables.goes fun _ _ hheader => by cases hheader
      exact ⟨hgoes.accepted, hgoes.conns, hgoes.jobs⟩
    · exact (htables.trans (ConnServer.decref_tables hu)).goes
  · rw [if_neg hreachable] at h
    obtain rfl := Option.some.inj h
    exact ConnServer.SameTables.goes ⟨rfl, rfl, rfl⟩

theorem ConnServer.goes_start (h : s.start job = some t) : s.Goes t := by
  obtain ⟨c, stage⟩ := job
  cases stage with
  | queued pdu =>
      cases pdu with
      | none => exact (ConnServer.decref_tables h).goes_drop
      | some header =>
          simp only [ConnServer.start] at h
          have hdrop : s.Goes (s.drop ⟨c, .queued (some header)⟩) :=
            ConnServer.SameTables.goes_drop ⟨rfl, rfl, rfl⟩
          split_ifs at h with hold hproc hzero
          · obtain ⟨conn, -, rfl⟩ := Option.map_eq_some_iff.mp h
            exact hdrop
          · obtain rfl := Option.some.inj h
            refine ConnServer.goes_queue hdrop fun _ header' hheader hclt => ?_
            cases hheader
            exact absurd hzero hclt
          · obtain rfl := Option.some.inj h
            exact ConnServer.goes_queue hdrop fun _ _ hheader => by cases hheader
  | started header => cases h
  | saved header => cases h
  | executing header => cases h
  | ending => cases h

/-- The client of a saved connection has an entry. -/
theorem ConnServer.goes_saved {header : Request}
    (h : ((s.drop job).queue ⟨job.conn, .saved header⟩).SameTables t) :
    s.Goes (t.link header.clt job.conn) where
  accepted := .inl h.accepted
  conns := fun nonce hnonce => by
    have hconns : t.conns = s.conns := h.conns
    exact OrderedMap.Has.insert (hconns ▸ hnonce) _ _
  jobs := fun other hother => by
    have hjobs : t.jobs = ⟨job.conn, .saved header⟩ :: s.jobs.erase job := h.jobs
    rcases List.mem_cons.mp (hjobs ▸ hother) with rfl | hmem
    · refine .inr fun _ header' hheader _ => ?_
      cases hheader
      exact OrderedMap.has_insert_self ..
    · exact .inl (List.mem_of_mem_erase hmem)

theorem ConnServer.goes_save (h : s.save job = some t) : s.Goes t := by
  unfold ConnServer.save at h
  split at h
  · rename_i header hstage
    split at h
    · obtain ⟨u, hincref, rfl⟩ := Option.map_eq_some_iff.mp h
      exact ConnServer.goes_saved (ConnServer.incref_tables hincref)
    · rename_i old hold
      split at h
      · split_ifs at h
        · obtain ⟨u, hdecref, hu⟩ := Option.bind_eq_some_iff.mp h
          obtain ⟨v, hincref, rfl⟩ := Option.map_eq_some_iff.mp hu
          exact ConnServer.goes_saved
            ((ConnServer.decref_tables hdecref).trans (ConnServer.incref_tables hincref))
        · obtain rfl := Option.some.inj h
          refine ConnServer.goes_queue (ConnServer.SameTables.goes_drop ⟨rfl, rfl, rfl⟩) ?_
          intro _ header' hheader _
          cases hheader
          show (s.conns.find? header.clt).isSome = true
          rw [hold]
          rfl
      · cases h
  · cases h

theorem ConnServer.goes_classify (hjob : job ∈ s.jobs) {stat : RpcState}
    (h : s.classify job stat = some t) : s.Goes t := by
  unfold ConnServer.classify at h
  split at h
  · rename_i header hstage
    obtain rfl := Option.some.inj h
    refine ConnServer.goes_queue (ConnServer.SameTables.goes_drop ⟨rfl, rfl, rfl⟩) ?_
    intro hlinked header' hheader hclt
    by_cases hnew : stat = .new
    · rw [if_pos hnew] at hheader
      cases hheader
      exact hlinked job hjob header (by rw [hstage]; rfl) hclt
    · rw [if_neg hnew] at hheader
      cases hheader
  · cases h

theorem ConnServer.goes_relink (h : s.relink job = some t) : s.Goes t := by
  have ending : ∀ {u : ConnServer} (c : ConnPtr), s.Goes u → s.Goes (u.queue ⟨c, .ending⟩) :=
    fun c hgoes => ConnServer.goes_queue hgoes fun _ _ hheader => by cases hheader
  unfold ConnServer.relink at h
  split at h
  · split at h
    · cases h
    · split_ifs at h
      · split at h
        · cases h
        · obtain ⟨u, hdecref, hu⟩ := Option.bind_eq_some_iff.mp h
          obtain ⟨v, hincref, rfl⟩ := Option.map_eq_some_iff.mp hu
          exact ending _ (ConnServer.SameTables.goes_drop
            ((ConnServer.decref_tables hdecref).trans (ConnServer.incref_tables hincref)))
      · obtain rfl := Option.some.inj h
        exact ending _ (ConnServer.SameTables.goes_drop ⟨rfl, rfl, rfl⟩)
  · cases h

theorem ConnServer.goes_step {action : ConnAction} (h : s.step action = some t) : s.Goes t := by
  cases action with
  | accept c time =>
      simp only [ConnServer.step, ConnServer.accept] at h
      split at h
      · rename_i hfresh
        obtain rfl := Option.some.inj h
        exact ⟨.inr (.inr ⟨c, hfresh, rfl⟩), fun _ => id, fun _ => .inl⟩
      · cases h
  | die c => exact (ConnServer.die_tables h).goes
  | collect c =>
      simp only [ConnServer.step, ConnServer.collect] at h
      split at h
      · cases h
      · exact ConnServer.goes_disown (Option.ite_none_right_eq_some.mp h).2
  | close c =>
      obtain ⟨u, hdie, hdisown⟩ := Option.bind_eq_some_iff.mp h
      obtain ⟨haccepted, hconns, hjobs⟩ := ConnServer.die_tables hdie
      obtain ⟨-, hdecref⟩ := Option.ite_none_right_eq_some.mp hdisown
      have htables := ConnServer.decref_tables hdecref
      exact ⟨.inr (.inl ⟨c, haccepted ▸ htables.accepted⟩),
        fun nonce => by rw [htables.conns, hconns]; exact id,
        fun job hjob => .inl (hjobs ▸ htables.jobs ▸ hjob)⟩
  | setReachable r =>
      obtain rfl := Option.some.inj h
      exact ConnServer.SameTables.goes ⟨rfl, rfl, rfl⟩
  | gotPdu c pdu succ => exact ConnServer.goes_gotPdu h
  | retest c =>
      simp only [ConnServer.step, ConnServer.retest] at h
      split_ifs at h
      · obtain rfl := Option.some.inj h
        exact ConnServer.SameTables.goes ⟨rfl, rfl, rfl⟩
      · have htables := ConnServer.decref_tables h
        exact ConnServer.SameTables.goes ⟨htables.accepted, htables.conns, htables.jobs⟩
  | start job => exact ConnServer.goes_start (Option.ite_none_right_eq_some.mp h).2
  | save job => exact ConnServer.goes_save (Option.ite_none_right_eq_some.mp h).2
  | classify job stat =>
      obtain ⟨hjob, hclassify⟩ := Option.ite_none_right_eq_some.mp h
      exact ConnServer.goes_classify hjob hclassify
  | relink job => exact ConnServer.goes_relink (Option.ite_none_right_eq_some.mp h).2
  | finish job =>
      obtain ⟨-, hfinish⟩ := Option.ite_none_right_eq_some.mp h
      unfold ConnServer.finish at hfinish
      split at hfinish
      · exact (ConnServer.decref_tables hfinish).goes_drop
      · cases hfinish

end Tables

/-- What `dispatch` does next with a request. -/
def DispatchJob.next (job : DispatchJob) : ConnAction :=
  match job.stage with
  | .queued _ => .start job
  | .started _ => .save job
  | .saved _ => .classify job .new
  | .executing _ => .relink job
  | .ending => .finish job

def DispatchStage.header : DispatchStage → Option Request
  | .queued pdu => pdu
  | .started h => some h
  | .saved h => some h
  | .executing h => some h
  | .ending => none

section Defined

variable {s : ConnServer} {c : ConnPtr} {job : DispatchJob}

theorem ConnServer.Balanced.exists_conn (h : s.Balanced) (hpos : 0 < s.refs c) :
    ∃ conn, s.heap c = some conn ∧ 1 ≤ conn.refno := by
  cases hheap : s.heap c with
  | none =>
      rw [h.alive c hheap] at hpos
      exact absurd hpos (lt_irrefl 0)
  | some conn =>
      refine ⟨conn, rfl, ?_⟩
      rw [h.refno c conn hheap]
      omega

theorem ConnServer.refs_pos_of_job (hjob : job ∈ s.jobs) : 0 < s.refs job.conn := by
  have hpos : 0 < s.jobs.countP fun other => other.conn == job.conn :=
    List.countP_pos_iff.mpr ⟨job, hjob, beq_self_eq_true _⟩
  unfold ConnServer.refs
  omega

theorem ConnServer.refs_pos_of_entry {nonce : Nat} (hentry : s.conns.find? nonce = some c) :
    0 < s.refs c := by
  have hpos : 0 < s.conns.countValues (· == c) :=
    OrderedMap.countValues_pos hentry (beq_self_eq_true c)
  unfold ConnServer.refs
  omega

theorem ConnServer.incref_isSome {conn : Conn} (hconn : s.heap c = some conn) :
    (s.incref c).isSome := by
  rw [ConnServer.incref, hconn]
  rfl

theorem ConnServer.decref_defined {conn : Conn} (hconn : s.heap c = some conn)
    (hrefno : 1 ≤ conn.refno) :
    ∃ t, s.decref c = some t ∧ ∀ q, q ≠ c → t.heap q = s.heap q := by
  simp only [ConnServer.decref, hconn]
  rw [if_neg (by omega)]
  split_ifs
  · exact ⟨_, rfl, fun q hq => Function.update_of_ne hq _ _⟩
  · exact ⟨_, rfl, fun q hq => Function.update_of_ne hq _ _⟩

theorem Conn.compare_self (conn : Conn) : conn.compare conn = 0 := by
  simp [Conn.compare]

theorem ConnServer.Balanced.save_isSome {header : Request} (h : s.Balanced) (hjob : job ∈ s.jobs)
    (hstage : job.stage = .started header) : (s.save job).isSome := by
  obtain ⟨conn, hconn, -⟩ := h.exists_conn (ConnServer.refs_pos_of_job hjob)
  simp only [ConnServer.save, hstage]
  cases hfind : s.conns.find? header.clt with
  | none =>
      rw [Option.isSome_map]
      exact ConnServer.incref_isSome hconn
  | some old =>
      obtain ⟨oldConn, hold, hrefno⟩ := h.exists_conn (ConnServer.refs_pos_of_entry hfind)
      simp only [hold, hconn]
      split_ifs with hcompare
      · have hne : job.conn ≠ old := fun heq => by
          rw [heq, hold] at hconn
          rw [Option.some.inj hconn, Conn.compare_self] at hcompare
          exact absurd hcompare (lt_irrefl 0)
        obtain ⟨u, hdecref, hheap⟩ := ConnServer.decref_defined
          (s := (s.drop job).queue ⟨job.conn, .saved header⟩) hold hrefno
        rw [hdecref, Option.bind_some, Option.isSome_map]
        exact ConnServer.incref_isSome ((hheap _ hne).trans hconn)
      · rfl

theorem ConnServer.Balanced.relink_isSome {header : Request} (h : s.Balanced) (hjob : job ∈ s.jobs)
    (hstage : job.stage = .executing header) (hlinked : s.conns.Has header.clt) :
    (s.relink job).isSome := by
  obtain ⟨conn, hconn, hrefno⟩ := h.exists_conn (ConnServer.refs_pos_of_job hjob)
  obtain ⟨latest, hlatest⟩ := Option.isSome_iff_exists.mp hlinked
  simp only [ConnServer.relink, hstage, hconn, hlatest]
  split_ifs with hdead
  · have hne : latest ≠ job.conn := fun heq => hdead.2 (congrArg some heq)
    obtain ⟨latestConn, hlatestConn, -⟩ := h.exists_conn (ConnServer.refs_pos_of_entry hlatest)
    obtain ⟨u, hdecref, hheap⟩ := ConnServer.decref_defined (s := s.drop job) hconn hrefno
    rw [hdecref, Option.bind_some, Option.isSome_map]
    exact ConnServer.incref_isSome ((hheap _ hne).trans hlatestConn)
  · rfl

/-- Work on a request never uses a deleted connection. -/
theorem ConnServer.Balanced.next_isSome (h : s.Balanced) (hjob : job ∈ s.jobs)
    (hlinked : job.Linked s.conns)
    (hheader : ∀ header ∈ job.stage.header, header.proc ∈ s.procs ∧ header.clt ≠ 0) :
    (s.step job.next).isSome := by
  obtain ⟨conn, hconn, hrefno⟩ := h.exists_conn (ConnServer.refs_pos_of_job hjob)
  obtain ⟨u, hdecref, -⟩ := ConnServer.decref_defined (s := s.drop job) hconn hrefno
  cases hstage : job.stage with
  | queued pdu =>
      cases pdu with
      | none =>
          simp only [DispatchJob.next, hstage, ConnServer.step, if_pos hjob, ConnServer.start]
          exact Option.isSome_of_eq_some hdecref
      | some header =>
          simp only [DispatchJob.next, hstage, ConnServer.step, if_pos hjob, ConnServer.start]
          rw [hstage] at hheader
          by_cases hold : header.srvNonce ≠ 0 ∧ header.srvNonce ≠ s.nonce
          · rw [if_pos hold, Option.isSome_map, hconn]
            rfl
          · rw [if_neg hold, if_neg (not_not.mpr (hheader header rfl).1)]
            rfl
  | started header =>
      simp only [DispatchJob.next, hstage, ConnServer.step, if_pos hjob]
      exact h.save_isSome hjob hstage
  | saved header =>
      simp only [DispatchJob.next, hstage, ConnServer.step, if_pos hjob, ConnServer.classify]
      rfl
  | executing header =>
      simp only [DispatchJob.next, hstage, ConnServer.step, if_pos hjob]
      rw [hstage] at hheader
      exact h.relink_isSome hjob hstage
        (hlinked header (by rw [hstage]; rfl) (hheader header rfl).2)
  | ending =>
      simp only [DispatchJob.next, hstage, ConnServer.step, if_pos hjob, ConnServer.finish]
      exact Option.isSome_of_eq_some hdecref

end Defined

/-! ### Whole runs -/

section Runs

variable {nonce : Nat} {procs : List Nat} {s t : ConnServer}

theorem ConnServer.Balanced.nodup_step (h : s.Balanced) {action : ConnAction}
    (hstep : s.step action = some t) : t.accepted.Nodup := by
  rcases (ConnServer.goes_step hstep).accepted with heq | ⟨c, heq⟩ | ⟨c, hfresh, heq⟩
  · rw [heq]
    exact h.owner
  · rw [heq]
    exact h.owner.erase c
  · rw [heq]
    refine List.nodup_cons.mpr ⟨fun hmem => ?_, h.owner⟩
    have hpos := List.count_pos_iff.mpr hmem
    have hzero := h.alive c hfresh
    unfold ConnServer.refs at hzero
    omega

/-- A step keeps the balance exactly if it is counted. -/
theorem ConnServer.Balanced.step_iff (h : s.Balanced) {action : ConnAction}
    (hstep : s.step action = some t) : t.Balanced ↔ s.Counted action := by
  rw [ConnServer.balanced_iff, ConnServer.excess_step hstep, (ConnServer.balanced_iff.mp h).1,
    zero_add, ConnServer.leak_eq_zero_iff]
  exact and_iff_left (h.nodup_step hstep)

theorem balanced_of_counted (h : (connections nonce procs).Reach ConnServer.Counted s) :
    s.Balanced ∧ ∀ job ∈ s.jobs, job.Linked s.conns := by
  refine h.invariant (P := fun s => s.Balanced ∧ ∀ job ∈ s.jobs, job.Linked s.conns) ?_ ?_
  · rintro start rfl
    exact ⟨ConnServer.balanced_iff.mpr ⟨rfl, .nil⟩, List.forall_mem_nil _⟩
  · rintro s t action ⟨hbalanced, hlinked⟩ hcounted hstep
    have hgoes := ConnServer.goes_step hstep
    refine ⟨(hbalanced.step_iff hstep).mpr hcounted, fun job hjob => ?_⟩
    rcases hgoes.jobs job hjob with hold | hnew
    · exact fun header hheader hclt => hgoes.conns _ (hlinked job hold header hheader hclt)
    · exact hnew hlinked

end Runs

/-- **The references balance exactly as long as no request is for an older instance of the
    server.**  In every state reached by counted steps each count is that of the owner, the
    entries of `conns_` and the requests; the next step keeps this if and only if it is counted
    as well.  The requests for known procedures are dispatched without a fault. -/
theorem references_balance_iff_counted {nonce : Nat} {procs : List Nat} {s : ConnServer}
    (h : (connections nonce procs).Reach ConnServer.Counted s) :
    s.Balanced ∧ (∀ action t, s.step action = some t → (t.Balanced ↔ s.Counted action)) ∧
      ∀ job ∈ s.jobs,
        (∀ header ∈ job.stage.header, header.proc ∈ s.procs ∧ header.clt ≠ 0) →
        (s.step job.next).isSome := by
  obtain ⟨hbalanced, hlinked⟩ := balanced_of_counted h
  exact ⟨hbalanced, fun action t hstep => hbalanced.step_iff hstep, fun job hjob hheader =>
    hbalanced.next_isSome hjob (hlinked job hjob) hheader⟩

instance (s : ConnServer) : DecidablePred s.Counted
  | .start ⟨_, .queued (some _)⟩ => inferInstanceAs (Decidable (_ ∨ _))
  | .start ⟨_, .queued none⟩ => isTrue trivial
  | .start ⟨_, .started _⟩ => isTrue trivial
  | .start ⟨_, .saved _⟩ => isTrue trivial
  | .start ⟨_, .executing _⟩ => isTrue trivial
  | .start ⟨_, .ending⟩ => isTrue trivial
  | .retest _ => inferInstanceAs (Decidable (_ = _))
  | .accept _ _ => isTrue trivial
  | .die _ => isTrue trivial
  | .collect _ => isTrue trivial
  | .close _ => isTrue trivial
  | .setReachable _ => isTrue trivial
  | .gotPdu _ _ _ => isTrue trivial
  | .save _ => isTrue trivial
  | .classify _ _ => isTrue trivial
  | .relink _ => isTrue trivial
  | .finish _ => isTrue trivial

/-- The first request of client 5, up to the handler. -/
def firstRequest (srvNonce : Nat) : Request :=
  { clt := 5, xid := 1, proc := 2, srvNonce := srvNonce, xidRep := 0 }

/-- The connection of a client dies while its request is worked on.  The reply goes to the
    connection that the client has opened meanwhile, and the old one is collected. -/
theorem references_balance_iff_counted_reconnect :
    ∃ s, (connections 9 [2]).Reach ConnServer.Counted s ∧ s.Balanced ∧
      s.heap 1 = none ∧ s.heap 2 = some ⟨2, false, (7, 0)⟩ ∧ s.conns.find? 5 = some 2 ∧
      s.jobs = [] := by
  obtain ⟨s, hs, hview⟩ : ∃ s, (connections 9 [2]).Reach ConnServer.Counted s ∧
      (s.heap 1, s.heap 2, s.conns.find? 5, s.jobs) =
        (none, some ⟨2, false, (7, 0)⟩, some 2, []) :=
    System.Reach.of_exec (fun s action => decide (s.Counted action))
      [.accept 1 (6, 0), .gotPdu 1 (some (firstRequest 9)) true, .retest 1,
        .start ⟨1, .queued (some (firstRequest 9))⟩, .save ⟨1, .started (firstRequest 9)⟩,
        .classify ⟨1, .saved (firstRequest 9)⟩ .new, .die 1, .accept 2 (7, 0),
        .gotPdu 2 (some (firstRequest 9)) true, .retest 2,
        .start ⟨2, .queued (some (firstRequest 9))⟩, .save ⟨2, .started (firstRequest 9)⟩,
        .classify ⟨2, .saved (firstRequest 9)⟩ .inprogress, .finish ⟨2, .ending⟩,
        .relink ⟨1, .executing (firstRequest 9)⟩, .collect 1, .finish ⟨2, .ending⟩]
      rfl (fun _ _ h => of_decide_eq_true h) (by decide +kernel)
  simp only [Prod.mk.injEq] at hview
  exact ⟨s, hs, (references_balance_iff_counted hs).1, hview⟩

/-- A request for an older instance of the server: the connection keeps a count of two and is
    never collected. -/
theorem old_instance_leaks_reference :
    ¬ ∀ s, (connections 9 [2]).Reach anyStep s → s.Balanced := by
  intro hclaim
  obtain ⟨s, hs, hview⟩ : ∃ s, (connections 9 [2]).Reach anyStep s ∧
      (s.heap 1, s.accepted, s.conns, s.jobs) =
        (some ⟨2, false, (6, 0)⟩, [1], .empty, []) :=
    System.Reach.of_exec (fun _ _ => true)
      [.accept 1 (6, 0), .gotPdu 1 (some (firstRequest 8)) true, .retest 1,
        .start ⟨1, .queued (some (firstRequest 8))⟩]
      rfl (fun _ _ _ => trivial) (by decide +kernel)
  simp only [Prod.mk.injEq] at hview
  obtain ⟨hheap, haccepted, hconns, hjobs⟩ := hview
  have hrefno := (hclaim s hs).refno 1 _ hheap
  rw [ConnServer.refs, haccepted, hconns, hjobs] at hrefno
  exact absurd hrefno (by decide)

end DistributedLab.Rpc
