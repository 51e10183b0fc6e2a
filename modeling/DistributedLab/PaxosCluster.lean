import DistributedLab.PaxosAcceptor
import DistributedLab.Transition

/-!
# Proposers, acceptors and the messages between them

A cluster of nodes, each with an acceptor and a proposer, and the RPCs they
exchange.  `proposer::run` is unrolled into the steps of its three loops: a loop
iteration sends one request and then goes on with the reply, or without it when
`safebind` failed, the call timed out or the reply was lost.

Requests and replies stay in the network once sent, so a delivery may happen late,
in any order, or never; delivering a request again over-approximates the
at-most-once RPC layer.  A reply is matched with the outstanding call by its `xid`.
-/

namespace DistributedLab.Paxos

open Transition

/-! ### Messages -/

/-- One RPC: the calling proposer, the number of the call, the node called. -/
structure Call where
  clt : String
  xid : Nat
  dst : String
  req : Request
deriving DecidableEq, Repr

/-- The answer of `call.dst` to `call`. -/
structure Reply where
  call : Call
  res : Response
deriving DecidableEq, Repr

/-! ### The proposer -/

inductive Phase where
  | prepare
  | accept
  | decide
deriving DecidableEq, Repr

/-- The local variables of a `proposer::run` in progress.  `nodes` is the list the loop of
    the current phase goes over and `index` its loop counter; `pending` is the call
    whose reply the loop body waits for. -/
structure Run where
  inst : Nat
  curNodes : List String
  newv : String
  phase : Phase
  nodes : List String
  index : Nat
  pending : Option Nat
  accepts : List String
  v : String
  max : PropT
deriving DecidableEq, Repr

/-- `class proposer`.  `stable` is `run.isNone`; `xid` numbers the calls. -/
structure Proposer where
  me : String
  myN : PropT
  run : Option Run
  xid : Nat
deriving DecidableEq, Repr

/-- `proposer::setn`. -/
def Proposer.setn (p : Proposer) (acc : Acceptor) : PropT :=
  let seen := (acc.nH.n + 1) % unsignedBound
  let mine := (p.myN.n + 1) % unsignedBound
  { p.myN with n := if seen > mine then seen else mine }

/-- The head of `proposer::run`, up to the prepare loop. -/
def Proposer.start (p : Proposer) (acc : Acceptor) (inst : Nat) (curNodes : List String)
    (newv : String) : Proposer :=
  { p with
    myN := p.setn acc
    run := some
      { inst := inst
        curNodes := curNodes
        newv := newv
        phase := .prepare
        nodes := curNodes
        index := 0
        pending := none
        accepts := []
        v := ""
        max := ⟨0, ""⟩ } }

/-- The request the loop body of the current phase sends. -/
def Run.request (r : Run) (myN : PropT) : Request :=
  match r.phase with
  | .prepare => .prepare ⟨r.inst, myN⟩
  | .accept => .accept ⟨r.inst, myN, r.v⟩
  | .decide => .decide ⟨r.inst, r.v⟩

/-- The next iteration of the current loop. -/
def Run.advance (r : Run) : Run := { r with index := r.index + 1, pending := none }

/-- The body of the prepare loop after a reply that is not `oldinstance`. -/
def Run.onPrepare (r : Run) (cid : String) (res : PrepareRes) : Run :=
  if res.accept then
    if res.nA.gt r.max then
      { r with accepts := r.accepts ++ [cid], max := res.nA, v := res.vA }
    else
      { r with accepts := r.accepts ++ [cid] }
  else r

/-- The body of the accept loop after a reply. -/
def Run.onAccept (r : Run) (cid : String) (granted : Bool) : Run :=
  if granted then { r with accepts := r.accepts ++ [cid] } else r

/-- What `run` does when the loop of the current phase has ended; `none` is its return. -/
def Run.next (r : Run) : Option Run :=
  match r.phase with
  | .prepare =>
      if majority r.curNodes r.accepts then
        some { r with
          phase := .accept
          nodes := r.accepts
          index := 0
          pending := none
          accepts := []
          v := if r.v = "" then r.newv else r.v }
      else none
  | .accept =>
      if majority r.curNodes r.accepts then
        some { r with phase := .decide, nodes := r.accepts, index := 0, pending := none }
      else none
  | .decide => none

/-! ### The cluster -/

/-- A process: `up` is false once a `VERIFY` has failed. -/
structure Node where
  acc : Acceptor
  pro : Proposer
  up : Bool

structure Cluster where
  node : String → Node
  calls : List Call
  replies : List Reply
  /-- The arguments `(instance, cur_nodes, newv)` of every `run` call made. -/
  runs : List (Nat × List String × String)

def Cluster.acc (s : Cluster) (name : String) : Acceptor := (s.node name).acc

def Cluster.pro (s : Cluster) (name : String) : Proposer := (s.node name).pro

def Cluster.setAcc (s : Cluster) (name : String) (acc : Acceptor) : Cluster :=
  { s with node := Function.update s.node name { s.node name with acc := acc } }

def Cluster.setPro (s : Cluster) (name : String) (pro : Proposer) : Cluster :=
  { s with node := Function.update s.node name { s.node name with pro := pro } }

/-- Replace the local variables of the run of `name`; `none` when it has returned. -/
def Cluster.setRun (s : Cluster) (name : String) (run : Option Run) : Cluster :=
  s.setPro name { s.pro name with run := run }

def Cluster.setDown (s : Cluster) (name : String) : Cluster :=
  { s with node := Function.update s.node name { s.node name with up := false } }

/-- The outstanding request of `p` leaves for `dst`. -/
def Cluster.send (s : Cluster) (p : String) (r : Run) (dst : String) : Cluster :=
  { s.setPro p { s.pro p with
      run := some { r with pending := some (s.pro p).xid }
      xid := (s.pro p).xid + 1 } with
    calls := ⟨p, (s.pro p).xid, dst, r.request (s.pro p).myN⟩ :: s.calls }

/-- The acceptor of `call.dst` runs the handler of `call`. -/
def Cluster.handle (s : Cluster) (call : Call) : Cluster :=
  match (s.acc call.dst).handle call.req with
  | some (acc, res) => { s.setAcc call.dst acc with replies := ⟨call, res⟩ :: s.replies }
  | none => s.setDown call.dst

/-- The loop body of `p` goes on with `reply`. -/
def Cluster.receive (s : Cluster) (p : String) (r : Run) (reply : Reply) : Option Cluster :=
  match r.phase, reply.res with
  | .prepare, .prepare res =>
      if res.oldinstance then
        -- commit the instance locally; `prepare` and `run` return false
        some ((s.setAcc p ((s.acc p).commit r.inst res.vA)).setRun p none)
      else
        some (s.setRun p (some (r.onPrepare reply.call.dst res).advance))
  | .accept, .accept granted =>
      some (s.setRun p (some (r.onAccept reply.call.dst granted).advance))
  | .decide, .decide => some (s.setRun p (some r.advance))
  | _, _ => none

inductive Action where
  /-- `proposer::run(inst, curNodes, newv)` is called while the proposer is stable. -/
  | run (p : String) (inst : Nat) (curNodes : List String) (newv : String)
  /-- `safebind` succeeded and the request is sent. -/
  | call (p : String)
  /-- `safebind` or the call failed. -/
  | skip (p : String)
  | deliver (call : Call)
  | receive (p : String) (reply : Reply)
  /-- The loop of the current phase has ended. -/
  | next (p : String)
deriving DecidableEq, Repr

/-- The node whose acceptor or proposer an action concerns. -/
def Action.node : Action → String
  | .run p _ _ _ => p
  | .call p => p
  | .skip p => p
  | .deliver c => c.dst
  | .receive p _ => p
  | .next p => p

def Cluster.step (s : Cluster) : Action → Option Cluster
  | .run p inst curNodes newv =>
      if (s.node p).up ∧ (s.pro p).run = none ∧ inst < unsignedBound then
        some { s.setPro p ((s.pro p).start (s.acc p) inst curNodes newv) with
          runs := (inst, curNodes, newv) :: s.runs }
      else none
  | .call p =>
      match (s.pro p).run with
      | none => none
      | some r =>
          if (s.node p).up ∧ r.pending = none then
            (r.nodes[r.index]?).map (s.send p r)
          else none
  | .skip p =>
      match (s.pro p).run with
      | none => none
      | some r =>
          if (s.node p).up ∧ r.index < r.nodes.length then
            some (s.setRun p (some r.advance))
          else none
  | .deliver call =>
      if (s.node call.dst).up ∧ call ∈ s.calls then some (s.handle call) else none
  | .receive p reply =>
      match (s.pro p).run with
      | none => none
      | some r =>
          if (s.node p).up ∧ reply ∈ s.replies ∧ reply.call.clt = p ∧
              r.pending = some reply.call.xid then
            s.receive p r reply
          else none
  | .next p =>
      match (s.pro p).run with
      | none => none
      | some r =>
          if (s.node p).up ∧ r.nodes.length ≤ r.index then
            some (s.setRun p r.next)
          else none

/-- The answer of an acceptor that has granted nothing in its instance. -/
def granted (name : String) : Response := .prepare { accept := true, nA := ⟨0, name⟩ }

/-- The actions of one RPC that completes: the request leaves, is handled, and the loop body
    goes on with the reply. -/
def Action.roundTrip (call : Call) (res : Response) : List Action :=
  [.call call.clt, .deliver call, .receive call.clt ⟨call, res⟩]

/-- Every node starts in view 1, whose value is `first`, with nothing promised. -/
def Acceptor.inFirstView (me first : String) : Acceptor :=
  (Acceptor.blank me []).commitWo 1 first

def Cluster.initial (first : String) : Cluster where
  node := fun me =>
    { acc := Acceptor.inFirstView me first
      pro := { me := me, myN := ⟨0, me⟩, run := none, xid := 0 }
      up := true }
  calls := []
  replies := []
  runs := []

/-- The cluster as a transition system. -/
def paxos (first : String) : System Cluster Action where
  init := fun s => s = Cluster.initial first
  step := Cluster.step

/-! ### Reading an updated cluster -/

section Updates

variable (s : Cluster) (name other : String)

theorem Cluster.acc_setAcc (acc : Acceptor) :
    (s.setAcc name acc).acc other = if other = name then acc else s.acc other := by
  by_cases h : other = name
  · subst h
    simp [Cluster.acc, Cluster.setAcc]
  · simp [Cluster.acc, Cluster.setAcc, h]

@[simp] theorem Cluster.pro_setAcc (acc : Acceptor) :
    (s.setAcc name acc).pro other = s.pro other := by
  by_cases h : other = name
  · subst h
    simp [Cluster.pro, Cluster.setAcc]
  · simp [Cluster.pro, Cluster.setAcc, Function.update_of_ne h]

theorem Cluster.pro_setPro (pro : Proposer) :
    (s.setPro name pro).pro other = if other = name then pro else s.pro other := by
  by_cases h : other = name
  · subst h
    simp [Cluster.pro, Cluster.setPro]
  · simp [Cluster.pro, Cluster.setPro, h]

@[simp] theorem Cluster.acc_setPro (pro : Proposer) :
    (s.setPro name pro).acc other = s.acc other := by
  by_cases h : other = name
  · subst h
    simp [Cluster.acc, Cluster.setPro]
  · simp [Cluster.acc, Cluster.setPro, Function.update_of_ne h]

@[simp] theorem Cluster.acc_setDown : (s.setDown name).acc other = s.acc other := by
  by_cases h : other = name
  · subst h
    simp [Cluster.acc, Cluster.setDown]
  · simp [Cluster.acc, Cluster.setDown, Function.update_of_ne h]

@[simp] theorem Cluster.pro_setDown : (s.setDown name).pro other = s.pro other := by
  by_cases h : other = name
  · subst h
    simp [Cluster.pro, Cluster.setDown]
  · simp [Cluster.pro, Cluster.setDown, Function.update_of_ne h]

end Updates

/-! ### What each action does -/

/-- Everything a step can do, with what is known when it is taken. -/
inductive Cluster.Move (s : Cluster) : Action → Cluster → Prop
  | run {p : String} {inst : Nat} {curNodes : List String} {newv : String}
      (hrun : (s.pro p).run = none) (hinst : inst < unsignedBound) :
      Move s (.run p inst curNodes newv)
        { s.setPro p ((s.pro p).start (s.acc p) inst curNodes newv) with
          runs := (inst, curNodes, newv) :: s.runs }
  | call {p : String} {r : Run} {dst : String} (hrun : (s.pro p).run = some r)
      (hpending : r.pending = none) (hdst : r.nodes[r.index]? = some dst) :
      Move s (.call p) (s.send p r dst)
  | skip {p : String} {r : Run} (hrun : (s.pro p).run = some r) :
      Move s (.skip p) (s.setRun p (some r.advance))
  | handled {call : Call} {acc : Acceptor} {res : Response} (hcall : call ∈ s.calls)
      (houtcome : (s.acc call.dst).Outcome call.req acc res) :
      Move s (.deliver call)
        { s.setAcc call.dst acc with replies := ⟨call, res⟩ :: s.replies }
  | aborted {call : Call} : Move s (.deliver call) (s.setDown call.dst)
  | oldinstance {p : String} {r : Run} {call : Call} {res : PrepareRes}
      (hrun : (s.pro p).run = some r) (hreply : ⟨call, .prepare res⟩ ∈ s.replies)
      (hclt : call.clt = p) (hpending : r.pending = some call.xid)
      (hphase : r.phase = .prepare) (hold : res.oldinstance = true) :
      Move s (.receive p ⟨call, .prepare res⟩)
        ((s.setAcc p ((s.acc p).commit r.inst res.vA)).setRun p none)
  | prepared {p : String} {r : Run} {call : Call} {res : PrepareRes}
      (hrun : (s.pro p).run = some r) (hreply : ⟨call, .prepare res⟩ ∈ s.replies)
      (hclt : call.clt = p) (hpending : r.pending = some call.xid)
      (hphase : r.phase = .prepare) (hold : res.oldinstance = false) :
      Move s (.receive p ⟨call, .prepare res⟩)
        (s.setRun p (some (r.onPrepare call.dst res).advance))
  | accepted {p : String} {r : Run} {call : Call} {granted : Bool}
      (hrun : (s.pro p).run = some r) (hreply : ⟨call, .accept granted⟩ ∈ s.replies)
      (hclt : call.clt = p) (hpending : r.pending = some call.xid)
      (hphase : r.phase = .accept) :
      Move s (.receive p ⟨call, .accept granted⟩)
        (s.setRun p (some (r.onAccept call.dst granted).advance))
  | decided {p : String} {r : Run} {call : Call} (hrun : (s.pro p).run = some r)
      (hphase : r.phase = .decide) :
      Move s (.receive p ⟨call, .decide⟩) (s.setRun p (some r.advance))
  | next {p : String} {r : Run} (hrun : (s.pro p).run = some r)
      (hindex : r.nodes.length ≤ r.index) : Move s (.next p) (s.setRun p r.next)

section Steps

variable {s t : Cluster} {p : String}

theorem Cluster.move_of_handle {call : Call} (hcall : call ∈ s.calls) :
    s.Move (.deliver call) (s.handle call) := by
  unfold Cluster.handle
  rcases hhandle : (s.acc call.dst).handle call.req with _ | ⟨acc, res⟩
  · exact .aborted
  · exact .handled hcall (Acceptor.handle_outcome hhandle)

theorem Cluster.move_of_receive {r : Run} {reply : Reply} (hrun : (s.pro p).run = some r)
    (hreply : reply ∈ s.replies) (hclt : reply.call.clt = p)
    (hpending : r.pending = some reply.call.xid) (h : s.receive p r reply = some t) :
    s.Move (.receive p reply) t := by
  obtain ⟨call, res⟩ := reply
  cases hphase : r.phase <;> cases res <;>
    simp only [Cluster.receive, hphase, Option.some.injEq, reduceCtorEq] at h
  case prepare.prepare res =>
    cases hold : res.oldinstance with
    | true =>
        rw [hold, if_pos rfl, Option.some.injEq] at h
        subst h
        exact .oldinstance hrun hreply hclt hpending hphase hold
    | false =>
        rw [hold, if_neg Bool.false_ne_true, Option.some.injEq] at h
        subst h
        exact .prepared hrun hreply hclt hpending hphase hold
  case accept.accept granted =>
    subst h
    exact .accepted hrun hreply hclt hpending hphase
  case decide.decide =>
    subst h
    exact .decided hrun hphase

/-- **Inversion of a step.** -/
theorem Cluster.move_of_step {action : Action} (h : s.step action = some t) :
    s.Move action t := by
  cases action with
  | run p inst curNodes newv =>
      simp only [Cluster.step, Option.ite_none_right_eq_some, Option.some.injEq] at h
      obtain ⟨⟨-, hrun, hinst⟩, rfl⟩ := h
      exact .run hrun hinst
  | deliver call =>
      simp only [Cluster.step, Option.ite_none_right_eq_some, Option.some.injEq] at h
      obtain ⟨⟨-, hcall⟩, rfl⟩ := h
      exact move_of_handle hcall
  | call p =>
      rcases hrun : (s.pro p).run with _ | r <;>
        simp only [Cluster.step, hrun, Option.ite_none_right_eq_some, reduceCtorEq] at h
      obtain ⟨⟨-, hpending⟩, h⟩ := h
      obtain ⟨dst, hdst, rfl⟩ := Option.map_eq_some_iff.mp h
      exact .call hrun hpending hdst
  | skip p =>
      rcases hrun : (s.pro p).run with _ | r <;>
        simp only [Cluster.step, hrun, Option.ite_none_right_eq_some, reduceCtorEq,
          Option.some.injEq] at h
      obtain ⟨-, rfl⟩ := h
      exact .skip hrun
  | receive p reply =>
      rcases hrun : (s.pro p).run with _ | r <;>
        simp only [Cluster.step, hrun, Option.ite_none_right_eq_some, reduceCtorEq] at h
      obtain ⟨⟨-, hreply, hclt, hpending⟩, h⟩ := h
      exact move_of_receive hrun hreply hclt hpending h
  | next p =>
      rcases hrun : (s.pro p).run with _ | r <;>
        simp only [Cluster.step, hrun, Option.ite_none_right_eq_some, reduceCtorEq,
          Option.some.injEq] at h
      obtain ⟨⟨-, hindex⟩, rfl⟩ := h
      exact .next hrun hindex

end Steps

end DistributedLab.Paxos
