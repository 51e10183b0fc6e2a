import DistributedLab.RpcWindow
import DistributedLab.Transition
import Mathlib.Logic.Function.Basic

/-!
# Clients, a network and one server

A step is a critical section of a client or of the server, or what a thread does
between two of them.  The network may lose, duplicate and reorder requests, and it may
deliver a request long after its call has returned; this covers the retransmissions of
`call1` and the old requests that `dup_req_` repeats.  A reply may come late or never.

A dispatch thread works on a request in stages: the handler runs, `add_reply` stores
the reply, the reply is sent.  Storing and sending are not one critical section.  The
thread sends from a pointer that it has from the handler or from
`checkduplicate_and_update`, while other threads free buffers when they trim the
window, so the buffers are modelled as a heap.  What a thread reads from a freed
buffer is arbitrary.
-/

namespace DistributedLab.Rpc

open Transition

/-! ## 1. The server -/

/-- `rpc_const::atmostonce_failure` and `rpc_const::oldsrv_failure`. -/
def atmostonceFailure : Int := -4
def oldsrvFailure : Int := -5

/-- A buffer with a reply, and the request that the reply is for. -/
structure Cell where
  clt : Nat
  xid : Nat
  pdu : ReplyPdu
deriving DecidableEq, Repr

/-- A dispatch thread that has work to do after `checkduplicate_and_update`. -/
inductive Job where
  /-- NEW: the handler runs. -/
  | running (req : Request)
  /-- About to call `add_reply`. -/
  | replying (req : Request) (buf : Nat)
  /-- About to send; `resend` in the case DONE. -/
  | sending (req : Request) (buf : Nat) (resend : Bool)
deriving DecidableEq, Repr

def Job.req : Job → Request
  | .running req => req
  | .replying req _ => req
  | .sending req _ _ => req

/-- The server.  The last three fields are a history: the requests that were NEW, the replies
    that `add_reply` stored and the answers that were sent in the case DONE. -/
structure Rpcs where
  nonce : Nat
  procs : List Nat
  replyWindow : Nat → List ReplyT
  heap : Nat → Option Cell
  jobs : List Job
  news : List (Nat × Nat)
  stored : List Cell
  resent : List Cell

def Rpcs.new (nonce : Nat) (procs : List Nat) : Rpcs where
  nonce := nonce
  procs := procs
  replyWindow := fun _ => []
  heap := fun _ => none
  jobs := []
  news := []
  stored := []
  resent := []

def Rpcs.free (s : Rpcs) (bufs : List Nat) : Rpcs :=
  { s with heap := fun buf => if buf ∈ bufs then none else s.heap buf }

/-- What `checkduplicate_and_update` leaves for a request: a new window, with the buffers of
    the dropped entries freed. -/
def Rpcs.retain (s : Rpcs) (req : Request) (w : List ReplyT) : Rpcs :=
  { s.free (freed req.xidRep (s.replyWindow req.clt)) with
    replyWindow := Function.update s.replyWindow req.clt w }

/-- `dispatch` up to the `switch`, with the reply that is sent at once; `none` for an unknown
    procedure, where the server stops. -/
def Rpcs.dispatch (s : Rpcs) (req : Request) : Option (Rpcs × Option ReplyPdu) :=
  if req.srvNonce ≠ 0 ∧ req.srvNonce ≠ s.nonce then
    some (s, some ⟨req.xid, oldsrvFailure, []⟩)
  else if req.proc ∉ s.procs then none
  else if req.clt = 0 then
    -- no at-most-once logic for this client
    some ({ s with jobs := .running req :: s.jobs }, none)
  else
    let out := checkduplicateAndUpdate (s.replyWindow req.clt) req.xid req.xidRep
    let t := s.retain req out.2
    match out.1 with
    | .new =>
        some ({ t with jobs := .running req :: t.jobs, news := (req.clt, req.xid) :: t.news }, none)
    | .inprogress => some (t, none)
    | .done buf => some ({ t with jobs := .sending req buf true :: t.jobs }, none)
    | .forgotten => some (t, some ⟨req.xid, atmostonceFailure, []⟩)

/-- The handler returns; its reply is in a buffer that was not in use. -/
def Rpcs.execute (s : Rpcs) (req : Request) (buf : Nat) (ret : Int) (body : List UInt8) :
    Option Rpcs :=
  if .running req ∈ s.jobs ∧ 0 ≤ ret ∧ s.heap buf = none then
    some { s with
      heap := Function.update s.heap buf (some ⟨req.clt, req.xid, ⟨req.xid, ret, body⟩⟩)
      jobs := .replying req buf :: s.jobs.erase (.running req) }
  else none

def Rpcs.addReply (s : Rpcs) (req : Request) (buf : Nat) : Option Rpcs :=
  if .replying req buf ∈ s.jobs then
    let jobs := .sending req buf false :: s.jobs.erase (.replying req buf)
    if req.clt = 0 then some { s with jobs := jobs }
    else
      (Rpc.addReply req.xid buf (s.replyWindow req.clt)).map fun w =>
        { s with
          replyWindow := Function.update s.replyWindow req.clt w
          jobs := jobs
          stored := (s.heap buf).toList ++ s.stored }
  else none

/-- The bytes that `send` finds at a pointer. -/
def Rpcs.read (s : Rpcs) (buf : Nat) (junk : ReplyPdu) : ReplyPdu :=
  ((s.heap buf).map Cell.pdu).getD junk

def Rpcs.send (s : Rpcs) (req : Request) (buf : Nat) (resend : Bool) (junk : ReplyPdu) :
    Option (Rpcs × ReplyPdu) :=
  if .sending req buf resend ∈ s.jobs then
    let pdu := s.read buf junk
    let t := if req.clt = 0 then s.free [buf] else s
    some ({ t with
      jobs := t.jobs.erase (.sending req buf resend)
      resent := if resend then ⟨req.clt, req.xid, pdu⟩ :: t.resent else t.resent }, pdu)
  else none

/-! ## 2. The system

Clients are known by their nonces, which are not 0. -/

structure Net where
  client : Nat → Rpcc
  server : Rpcs
  requests : List Request
  replies : List (Nat × ReplyPdu)

inductive Net.Action where
  | call (clt proc : Nat)
  | finish (clt xid : Nat)
  | receive (clt : Nat) (pdu : ReplyPdu)
  | bound (clt r : Nat)
  | cancel (clt : Nat)
  | dispatch (req : Request)
  | execute (req : Request) (buf : Nat) (ret : Int) (body : List UInt8)
  | addReply (req : Request) (buf : Nat)
  | send (req : Request) (buf : Nat) (resend : Bool) (junk : ReplyPdu)
deriving DecidableEq, Repr

def Net.setClient (s : Net) (clt : Nat) (c : Rpcc) : Net :=
  { s with client := Function.update s.client clt c }

def Net.step (s : Net) : Net.Action → Option Net
  | .call clt proc =>
      if clt = 0 then none
      else
        ((s.client clt).call1 clt proc).map fun out =>
          { s.setClient clt out.1 with requests := out.2 :: s.requests }
  | .finish clt xid => ((s.client clt).finish xid).map (s.setClient clt)
  | .receive clt pdu =>
      if (clt, pdu) ∈ s.replies then some (s.setClient clt ((s.client clt).gotPdu pdu)) else none
  | .bound clt r => some (s.setClient clt ((s.client clt).bound r))
  | .cancel clt => some (s.setClient clt (s.client clt).cancel)
  | .dispatch req =>
      if req ∈ s.requests then
        (s.server.dispatch req).map fun out =>
          { s with
            server := out.1
            replies := out.2.toList.map (fun pdu => (req.clt, pdu)) ++ s.replies }
      else none
  | .execute req buf ret body =>
      (s.server.execute req buf ret body).map fun t => { s with server := t }
  | .addReply req buf => (s.server.addReply req buf).map fun t => { s with server := t }
  | .send req buf resend junk =>
      (s.server.send req buf resend junk).map fun out =>
        { s with server := out.1, replies := (req.clt, out.2) :: s.replies }

/-- One server with clients that have not called it yet. -/
def net (nonce : Nat) (procs : List Nat) : System Net Net.Action where
  init := fun s => s = ⟨fun _ => Rpcc.new, Rpcs.new nonce procs, [], []⟩
  step := Net.step

end DistributedLab.Rpc
