import DistributedLab.Condition
import DistributedLab.RpcAtMostOnce

/-!
# The calls of a client

`call1` keeps what belongs to a call in a `caller` on its stack and puts a pointer to it into
`calls_`.  The poll thread follows the pointer when a reply comes, and so does a thread that
cancels all calls; the call itself waits at the condition variable of the `caller`, and takes its
entry out before it returns.  The client that is left without its threads is the one of `Net`.

A step is a critical section of `m_` or of the mutex of a `caller`.  A thread that follows a
pointer to a `caller` that is gone cannot take its step.
-/

namespace DistributedLab.Rpc

open Transition Monitor

/-! ## 1. Clients with threads -/

def timeoutFailure : Int := -1
def bindFailure : Int := -6
def cancelFailure : Int := -7

/-- Where a call is: about to send or to look at `done`, asleep in `pthread_cond_timedwait` or awake
    again, past the loop, or past the end of its entry in `calls_`. -/
inductive CallStage where
  | sending
  | waiting
  | woken
  | leaving
  | erased
deriving DecidableEq, Repr

/-- `rpcc::caller` and the request.  `un` is what `take_in` has put there. -/
structure Caller where
  req : Request
  done : Bool
  intret : Int
  un : List UInt8
  stage : CallStage
deriving DecidableEq, Repr

/-- A signal at `c`. -/
def Caller.signal (ca : Caller) : Caller :=
  { ca with stage := if ca.stage = .waiting then .woken else ca.stage }

/-- A call that has returned; one that is refused has no request. -/
structure Returned where
  clt : Nat
  proc : Nat
  req : Option Request
  ret : Int
  un : List UInt8
deriving DecidableEq, Repr

/-- `callers` are the stacks of the threads, and `pending` the pointers of `calls_`, for each
    client; its keys are the list `calls` of the client.  `cancels` are the clients on which
    `cancel` has been called. -/
structure CallNet extends Net where
  callers : Nat → Option Caller
  pending : Nat → Nat → Option Nat
  destroyWaitC : Nat → Cond Nat
  cancels : List Nat
  returned : List Returned

def CallNet.setCaller (s : CallNet) (t : Nat) (ca : Option Caller) : CallNet :=
  { s with callers := Function.update s.callers t ca }

def CallNet.setPending (s : CallNet) (clt xid : Nat) (t : Option Nat) : CallNet :=
  { s with pending := Function.update s.pending clt (Function.update (s.pending clt) xid t) }

/-- What `call1` returns before it has an xid. -/
def Rpcc.refusal (c : Rpcc) (proc : Nat) : Int :=
  if (proc ≠ bindProc ∧ c.bindDone = false) ∨ (proc = bindProc ∧ c.bindDone = true) then bindFailure
  else cancelFailure

/-- The call has an xid and is in `calls_`. -/
def CallNet.enter (s : CallNet) (t : Nat) (c : Rpcc) (req : Request) : CallNet :=
  ({ s with
    toNet := { s.setClient req.clt c with requests := req :: s.requests } }.setCaller t
      (some ⟨req, false, 0, [], .sending⟩)).setPending req.clt req.xid (some t)

/-- `call1` up to the packed header. -/
def CallNet.call (s : CallNet) (t clt proc : Nat) : Option CallNet :=
  if s.callers t ≠ none ∨ clt = 0 then none
  else
    match (s.client clt).call1 clt proc with
    | none =>
        some { s with
          returned := ⟨clt, proc, none, (s.client clt).refusal proc, []⟩ :: s.returned }
    | some (c, req) => some (s.enter t c req)

/-- The call looks at `done`, and waits or leaves the loop. -/
def CallNet.looks (s : CallNet) (t : Nat) : Option CallNet :=
  (s.callers t).bind fun ca =>
    if ca.stage = .sending ∨ ca.stage = .woken then
      some (s.setCaller t (some { ca with stage := if ca.done then .leaving else .waiting }))
    else none

/-- A wakeup without a signal. -/
def CallNet.wakes (s : CallNet) (t : Nat) : Option CallNet :=
  (s.callers t).bind fun ca =>
    if ca.stage = .waiting then some (s.setCaller t (some ca.signal)) else none

/-- The wait times out.  The call goes round again, unless this was the last deadline. -/
def CallNet.timesOut (s : CallNet) (t : Nat) (final : Bool) : Option CallNet :=
  (s.callers t).bind fun ca =>
    if ca.stage = .waiting ∨ ca.stage = .woken then
      some (s.setCaller t
        (some { ca with stage := if ca.done || final then .leaving else .sending }))
    else none

/-- The entry of the call is taken out. -/
def CallNet.erase (s : CallNet) (t : Nat) (ca : Caller) (c : Rpcc) (d : Cond Nat) : CallNet :=
  ({ s with
    toNet := s.setClient ca.req.clt c
    destroyWaitC := Function.update s.destroyWaitC ca.req.clt d }.setCaller t
      (some { ca with stage := .erased })).setPending ca.req.clt ca.req.xid none

/-- The call takes its entry out and tells a thread that waits in `cancel`. -/
def CallNet.finish (s : CallNet) (t pick : Nat) : Option CallNet :=
  (s.callers t).bind fun ca =>
    if ca.stage = .leaving then
      ((s.client ca.req.clt).finish ca.req.xid).bind fun c =>
        (if c.destroyWait then (s.destroyWaitC ca.req.clt).signal pick
          else some (s.destroyWaitC ca.req.clt)).map fun d => s.erase t ca c d
    else none

def CallNet.returns (s : CallNet) (t : Nat) : Option CallNet :=
  (s.callers t).bind fun ca =>
    if ca.stage = .erased then
      let ret := if ca.done then ca.intret else timeoutFailure
      some { s.setCaller t none with
        returned := ⟨ca.req.clt, ca.req.proc, some ca.req, ret, ca.un⟩ :: s.returned }
    else none

/-- What `got_pdu` does to the `caller`. -/
def Caller.gotPdu (ca : Caller) (pdu : ReplyPdu) : Caller :=
  (if ca.done then ca else { ca with un := pdu.body, intret := pdu.ret, done := true }).signal

instance lawfulBEqReply : LawfulBEq (Nat × ReplyPdu) := inferInstance

def CallNet.gotPdu (s : CallNet) (clt : Nat) (pdu : ReplyPdu) : Option CallNet :=
  if (clt, pdu) ∈ s.replies then
    let s : CallNet := { s with toNet := s.setClient clt ((s.client clt).gotPdu pdu) }
    match s.pending clt pdu.xid with
    | none => some s
    | some t => (s.callers t).map fun ca => s.setCaller t (some (ca.gotPdu pdu))
  else none

def Caller.force (ca : Caller) : Caller :=
  { ca with done := true, intret := cancelFailure }.signal

/-- The first loop of `cancel`. -/
def CallNet.force (s : CallNet) (clt : Nat) : List Nat → Option CallNet
  | [] => some s
  | xid :: rest =>
      (s.pending clt xid).bind fun t =>
        (s.callers t).bind fun ca => (s.setCaller t (some ca.force)).force clt rest

/-- The second loop. -/
def CallNet.cancelLoop (s : CallNet) (t clt : Nat) : CallNet :=
  { s with
    toNet := s.setClient clt (s.client clt).cancel
    destroyWaitC :=
      if (s.client clt).calls = [] then s.destroyWaitC
      else Function.update s.destroyWaitC clt ((s.destroyWaitC clt).wait t) }

def CallNet.cancel (s : CallNet) (t clt : Nat) : Option CallNet :=
  ({ s with cancels := clt :: s.cancels }.force clt (s.client clt).calls).map
    (CallNet.cancelLoop · t clt)

def CallNet.cancelResumes (s : CallNet) (t clt : Nat) : Option CallNet :=
  ((s.destroyWaitC clt).resume t).map fun d =>
    { s with destroyWaitC := Function.update s.destroyWaitC clt d }.cancelLoop t clt

/-- What clients do without a call, and the steps of the server. -/
def Net.Action.serves : Net.Action → Bool
  | .bound _ _ | .dispatch _ | .execute _ _ _ _ | .addReply _ _ | .send _ _ _ _ => true
  | _ => false

inductive CallAction where
  | call (t clt proc : Nat)
  | looks (t : Nat)
  | wakes (t : Nat)
  | timesOut (t : Nat) (final : Bool)
  | finish (t pick : Nat)
  | returns (t : Nat)
  | gotPdu (clt : Nat) (pdu : ReplyPdu)
  | cancel (t clt : Nat)
  | cancelResumes (t clt : Nat)
  | cancelWakes (t clt : Nat)
  | serve (action : Net.Action)
deriving DecidableEq, Repr

def CallNet.step (s : CallNet) : CallAction → Option CallNet
  | .call t clt proc => s.call t clt proc
  | .looks t => s.looks t
  | .wakes t => s.wakes t
  | .timesOut t final => s.timesOut t final
  | .finish t pick => s.finish t pick
  | .returns t => s.returns t
  | .gotPdu clt pdu => s.gotPdu clt pdu
  | .cancel t clt => s.cancel t clt
  | .cancelResumes t clt => s.cancelResumes t clt
  | .cancelWakes t clt =>
      ((s.destroyWaitC clt).wake t).map fun d =>
        { s with destroyWaitC := Function.update s.destroyWaitC clt d }
  | .serve action =>
      if action.serves then (s.toNet.step action).map fun n => { s with toNet := n } else none

def CallNet.new (nonce : Nat) (procs : List Nat) : CallNet where
  client _ := Rpcc.new
  server := Rpcs.new nonce procs
  requests := []
  replies := []
  callers _ := none
  pending _ _ := none
  destroyWaitC _ := .empty
  cancels := []
  returned := []

def callNet (nonce : Nat) (procs : List Nat) : System CallNet CallAction where
  init s := s = .new nonce procs
  step := CallNet.step

/-- A call does not get the xid of a call that has its entry in `calls_` still. -/
def CallNet.fresh (s : CallNet) : CallAction → Bool
  | .call _ clt _ => decide ((s.client clt).xid ∉ (s.client clt).calls)
  | _ => true

/-- The conditions of `Net.orderly`. -/
def CallNet.orderly (s : CallNet) : CallAction → Bool
  | .call _ clt _ => (s.client clt).xid != 0
  | .serve action => s.toNet.orderly action
  | _ => true

/-! ## 2. The replies -/

/-- A reply is an error of the server itself or what a handler has returned, and no two requests
    have the same xid. -/
structure Net.Answers (s : Net) : Prop where
  heap : ∀ buf cell, s.server.heap buf = some cell → 0 ≤ cell.pdu.ret
  stored : ∀ cell ∈ s.server.stored, 0 ≤ cell.pdu.ret
  replies : ∀ clt pdu, (clt, pdu) ∈ s.replies → pdu.ret = oldsrvFailure ∨
    pdu.ret = atmostonceFailure ∨ ⟨clt, pdu.xid, pdu⟩ ∈ s.server.stored
  keys : ∀ req ∈ s.requests, ∀ req' ∈ s.requests, req.clt = req'.clt → req.xid = req'.xid →
    req = req'

section Replies

variable {s t : Net}

theorem Rpcs.dispatch_answers {server next : Rpcs} {req : Request} {pdu : Option ReplyPdu}
    (h : server.dispatch req = some (next, pdu)) :
    (∀ buf cell, next.heap buf = some cell → server.heap buf = some cell) ∧
      next.stored = server.stored ∧
      ∀ p ∈ pdu, p.ret = oldsrvFailure ∨ p.ret = atmostonceFailure := by
  have hfree : ∀ w buf cell, (server.retain req w).heap buf = some cell →
      server.heap buf = some cell := by
    intro w buf cell hcell
    simp only [Rpcs.retain, Rpcs.free] at hcell
    split at hcell
    · cases hcell
    · exact hcell
  unfold Rpcs.dispatch at h
  split_ifs at h
  · cases h
    refine ⟨fun _ _ hcell => hcell, rfl, fun p hp => ?_⟩
    cases hp
    exact .inl rfl
  · cases h
    refine ⟨fun _ _ hcell => hcell, rfl, fun p hp => ?_⟩
    cases hp
  · rcases hout : checkduplicateAndUpdate (server.replyWindow req.clt) req.xid req.xidRep
      with ⟨state, w⟩
    rw [hout] at h
    cases state with
    | forgotten =>
        cases h
        refine ⟨hfree w, rfl, fun p hp => ?_⟩
        cases hp
        exact .inr rfl
    | _ =>
        cases h
        refine ⟨hfree w, rfl, fun p hp => ?_⟩
        cases hp

theorem Net.Answers.setClient (h : s.Answers) (clt : Nat) (c : Rpcc) :
    (s.setClient clt c).Answers := ⟨h.heap, h.stored, h.replies, h.keys⟩

theorem Net.Answers.step (h : s.Answers) (hs : s.Ordered) {action : Net.Action}
    (hguard : s.orderly action = true) (hstep : s.step action = some t) : t.Answers := by
  cases action with
  | call clt proc =>
      have hxid : (s.client clt).xid ≠ 0 := by
        simpa [Net.unwrapped] using (Bool.and_eq_true_iff.mp hguard).1
      simp only [Net.step] at hstep
      split_ifs at hstep with hclt
      obtain ⟨⟨c, req⟩, hcall, rfl⟩ := Option.map_eq_some_iff.mp hstep
      have hreq : req.clt = clt ∧ req.xid = (s.client clt).limit := by
        rw [Rpcc.limit, if_neg hxid]
        unfold Rpcc.call1 at hcall
        split_ifs at hcall
        cases hcall
        exact ⟨rfl, rfl⟩
      -- the xids of all earlier requests are smaller
      have hnew : ∀ old ∈ s.requests, old.clt = req.clt → old.xid ≠ req.xid := by
        intro old hold hsame
        have hlt := (hs.requests old hold).2.2
        rw [hsame, hreq.1] at hlt
        rw [hreq.2]
        exact Nat.ne_of_lt hlt
      refine ⟨h.heap, h.stored, h.replies, ?_⟩
      intro r hr r' hr' hsame hkey
      rcases List.mem_cons.mp hr with rfl | hold
      · rcases List.mem_cons.mp hr' with rfl | hold'
        · rfl
        · exact absurd hkey.symm (hnew r' hold' hsame.symm)
      · rcases List.mem_cons.mp hr' with rfl | hold'
        · exact absurd hkey (hnew r hold hsame)
        · exact h.keys r hold r' hold' hsame hkey
  | finish clt xid =>
      obtain ⟨c, -, rfl⟩ := Option.map_eq_some_iff.mp hstep
      exact h.setClient clt c
  | receive clt pdu =>
      simp only [Net.step] at hstep
      split_ifs at hstep
      cases hstep
      exact h.setClient clt _
  | bound clt r =>
      cases hstep
      exact h.setClient clt _
  | cancel clt =>
      cases hstep
      exact h.setClient clt _
  | dispatch req =>
      simp only [Net.step] at hstep
      split_ifs at hstep
      obtain ⟨⟨server, pdu⟩, hdispatch, rfl⟩ := Option.map_eq_some_iff.mp hstep
      obtain ⟨hheap, hstored, hpdu⟩ := Rpcs.dispatch_answers hdispatch
      refine ⟨fun buf cell hcell => h.heap buf cell (hheap buf cell hcell), ?_, ?_, h.keys⟩
      · rw [hstored]
        exact h.stored
      · intro clt p hp
        rw [hstored]
        rcases List.mem_append.mp hp with hnew | hold
        · obtain ⟨p', hp', heq⟩ := List.mem_map.mp hnew
          cases heq
          rcases hpdu p (Option.mem_toList.mp hp') with hret | hret
          · exact .inl hret
          · exact .inr (.inl hret)
        · exact h.replies clt p hold
  | execute req buf ret body =>
      obtain ⟨server, hexecute, rfl⟩ := Option.map_eq_some_iff.mp hstep
      unfold Rpcs.execute at hexecute
      split_ifs at hexecute with hrun
      cases hexecute
      refine ⟨?_, h.stored, h.replies, h.keys⟩
      intro b cell hcell
      dsimp only at hcell
      by_cases hb : b = buf
      · subst hb
        rw [Function.update_self] at hcell
        cases hcell
        exact hrun.2.1
      · rw [Function.update_of_ne hb] at hcell
        exact h.heap b cell hcell
  | addReply req buf =>
      obtain ⟨server, hadd, rfl⟩ := Option.map_eq_some_iff.mp hstep
      unfold Rpcs.addReply at hadd
      split_ifs at hadd
      · cases hadd
        exact ⟨h.heap, h.stored, h.replies, h.keys⟩
      · obtain ⟨w, -, rfl⟩ := Option.map_eq_some_iff.mp hadd
        refine ⟨h.heap, ?_, ?_, h.keys⟩
        · intro cell hcell
          rcases List.mem_append.mp hcell with hnew | hold
          · exact h.heap buf cell (Option.mem_toList.mp hnew)
          · exact h.stored cell hold
        · intro clt p hp
          exact (h.replies clt p hp).imp_right (Or.imp_right (List.mem_append_right _))
  | send req buf resend junk =>
      obtain ⟨⟨server, pdu⟩, hsend, rfl⟩ := Option.map_eq_some_iff.mp hstep
      by_cases hjob : .sending req buf resend ∈ s.server.jobs
      swap
      · rw [Rpcs.send, if_neg hjob] at hsend
        cases hsend
      have hclt := (hs.requests req (hs.jobs _ hjob)).1
      have hread : (s.server.read buf junk).xid = req.xid ∧
          ⟨req.clt, req.xid, s.server.read buf junk⟩ ∈ s.server.stored :=
        hs.server.read_sending hjob
      simp only [Rpcs.send, if_pos hjob, if_neg hclt, Option.some.injEq, Prod.mk.injEq] at hsend
      obtain ⟨rfl, rfl⟩ := hsend
      refine ⟨h.heap, h.stored, ?_, h.keys⟩
      intro clt p hp
      rcases List.mem_cons.mp hp with heq | hold
      · cases heq
        rw [hread.1]
        exact .inr (.inr hread.2)
      · exact h.replies clt p hold

end Replies

theorem net_answers {nonce : Nat} {procs : List Nat} {s : Net}
    (h : (net nonce procs).Reach (fun state action => state.orderly action = true) s) :
    s.Ordered ∧ s.Answers := by
  refine h.invariant (P := fun s => s.Ordered ∧ s.Answers) ?_ ?_
  · rintro start rfl
    refine ⟨⟨fun _ => Rpcc.counts_new, ?_, ?_, ?_, Rpcs.tidy_new nonce procs⟩, ?_, ?_, ?_, ?_⟩
    all_goals
      intros
      contradiction
  · rintro state next action ⟨hordered, hanswers⟩ hguard hstep
    exact ⟨hordered.step hguard hstep, hanswers.step hordered hguard hstep⟩

/-! ## 3. The invariant of the calls -/

/-- What a call can find in its `caller`: the result of a thread that has cancelled it, or a reply
    to its own request. -/
def CallNet.Explains (s : CallNet) (req : Request) (ret : Int) (un : List UInt8) : Prop :=
  ret = cancelFailure ∧ req.clt ∈ s.cancels ∨ (req.clt, ⟨req.xid, ret, un⟩) ∈ s.replies

def CallNet.Accounts (s : CallNet) (r : Returned) : Prop :=
  match r.req with
  | none => r.ret = bindFailure ∨ r.ret = cancelFailure ∧ r.clt ∈ s.cancels
  | some req => req ∈ s.requests ∧ req.clt = r.clt ∧ req.proc = r.proc ∧
      (r.ret = timeoutFailure ∨ s.Explains req r.ret r.un)

structure CallNet.Linked (s : CallNet) : Prop where
  /-- The pointers of `calls_` are those to the calls that have not taken them out. -/
  entries : ∀ clt xid t, s.pending clt xid = some t ↔
    ∃ ca, s.callers t = some ca ∧ ca.req.clt = clt ∧ ca.req.xid = xid ∧ ca.stage ≠ .erased
  calls : ∀ clt xid, xid ∈ (s.client clt).calls ↔ s.pending clt xid ≠ none
  nodup : ∀ clt, (s.client clt).calls.Nodup
  own : ∀ t ca, s.callers t = some ca → ca.req ∈ s.requests
  destroyed : ∀ clt, (s.client clt).destroyWait = true → clt ∈ s.cancels
  waits : ∀ clt u, 0 < (s.destroyWaitC clt).count u → (s.client clt).destroyWait = true
  results : ∀ t ca, s.callers t = some ca → ca.done = true → s.Explains ca.req ca.intret ca.un
  awake : ∀ t ca, s.callers t = some ca → ca.done = true → ca.stage ≠ .waiting
  returned : ∀ r ∈ s.returned, s.Accounts r

theorem CallNet.linked_new (nonce : Nat) (procs : List Nat) : (CallNet.new nonce procs).Linked where
  entries clt xid t := by
    refine iff_of_false (fun h => by cases h) ?_
    rintro ⟨ca, hca, -⟩
    cases hca
  calls clt xid := iff_of_false (fun h => by cases h) fun h => h rfl
  nodup _ := List.nodup_nil
  own t ca hca := by cases hca
  destroyed clt h := by cases h
  waits clt u h := absurd h (Nat.lt_irrefl 0)
  results t ca hca := by cases hca
  awake t ca hca := by cases hca
  returned r hr := by cases hr

section Linked

variable {s s' : CallNet} {t : Nat} {ca ca' : Caller}

theorem CallNet.callers_setCaller_self (x : Option Caller) : (s.setCaller t x).callers t = x :=
  Function.update_self ..

theorem CallNet.callers_setCaller_of_ne {u : Nat} (x : Option Caller) (hu : u ≠ t) :
    (s.setCaller t x).callers u = s.callers u := Function.update_of_ne hu ..

/-- What all callers have, one of them being new. -/
theorem CallNet.forall_callers {callers : Nat → Option Caller} {x : Option Caller}
    {p : Caller → Prop} (hnew : ∀ c, x = some c → p c) (hold : ∀ u c, callers u = some c → p c) :
    ∀ u c, Function.update callers t x u = some c → p c :=
  (Function.forall_update_iff callers (p := fun _ y => ∀ c, y = some c → p c)).mpr
    ⟨hnew, fun u _ => hold u⟩

theorem CallNet.pending_setPending (clt xid : Nat) (x : Option Nat) (clt' xid' : Nat) :
    (s.setPending clt xid x).pending clt' xid' =
      if clt' = clt ∧ xid' = xid then x else s.pending clt' xid' := by
  show Function.update s.pending clt (Function.update (s.pending clt) xid x) clt' xid' = _
  by_cases hclt : clt' = clt
  · subst hclt
    rw [Function.update_self]
    by_cases hxid : xid' = xid
    · rw [if_pos ⟨rfl, hxid⟩, hxid, Function.update_self]
    · rw [if_neg fun h => hxid h.2, Function.update_of_ne hxid]
  · rw [if_neg fun h => hclt h.1, Function.update_of_ne hclt]

/-- A call that goes on keeps its request and its entry. -/
theorem CallNet.Linked.setCaller (hs : s.Linked) (hca : s.callers t = some ca)
    (hreq : ca'.req = ca.req) (herased : ca'.stage = .erased ↔ ca.stage = .erased)
    (hresult : ca'.done = true → s.Explains ca.req ca'.intret ca'.un)
    (hawake : ca'.done = true → ca'.stage ≠ .waiting) : (s.setCaller t (some ca')).Linked where
  entries clt xid u := by
    refine (hs.entries clt xid u).trans ?_
    by_cases hu : u = t
    · subst hu
      rw [CallNet.callers_setCaller_self, hca]
      constructor
      · rintro ⟨c, hc, hclt, hxid, hstage⟩
        cases hc
        exact ⟨ca', rfl, hreq ▸ hclt, hreq ▸ hxid, (not_congr herased).mpr hstage⟩
      · rintro ⟨c, hc, hclt, hxid, hstage⟩
        cases hc
        exact ⟨ca, rfl, hreq ▸ hclt, hreq ▸ hxid, (not_congr herased).mp hstage⟩
    · rw [CallNet.callers_setCaller_of_ne _ hu]
  calls := hs.calls
  nodup := hs.nodup
  own := by
    refine CallNet.forall_callers (fun c hc => ?_) hs.own
    cases hc
    exact hreq ▸ hs.own t ca hca
  destroyed := hs.destroyed
  waits := hs.waits
  results := by
    refine CallNet.forall_callers (fun c hc hdone => ?_) hs.results
    cases hc
    rw [hreq]
    exact hresult hdone
  awake := by
    refine CallNet.forall_callers (fun c hc hdone => ?_) hs.awake
    cases hc
    exact hawake hdone
  returned := hs.returned

theorem CallNet.Explains.mono {req : Request} {ret : Int} {un : List UInt8}
    (h : s.Explains req ret un) (hcancels : s.cancels ⊆ s'.cancels)
    (hreplies : s.replies ⊆ s'.replies) : s'.Explains req ret un :=
  h.imp (And.imp_right fun hmem => hcancels hmem) fun hmem => hreplies hmem

theorem CallNet.Accounts.mono {r : Returned} (h : s.Accounts r) (hcancels : s.cancels ⊆ s'.cancels)
    (hrequests : s.requests ⊆ s'.requests) (hreplies : s.replies ⊆ s'.replies) :
    s'.Accounts r := by
  unfold CallNet.Accounts at h ⊢
  split at h
  · exact h.imp_right (And.imp_right fun hmem => hcancels hmem)
  · obtain ⟨hreq, hclt, hproc, hret⟩ := h
    exact ⟨hrequests hreq, hclt, hproc, hret.imp_right fun h => h.mono hcancels hreplies⟩

/-- The clients, the network and the server go on without the calls. -/
theorem CallNet.Linked.net {n : Net} (hs : s.Linked)
    (hcalls : ∀ clt, (n.client clt).calls = (s.client clt).calls)
    (hdestroyed : ∀ clt, (n.client clt).destroyWait = true → clt ∈ s.cancels)
    (hkept : ∀ clt, (s.client clt).destroyWait = true → (n.client clt).destroyWait = true)
    (hrequests : s.requests ⊆ n.requests) (hreplies : s.replies ⊆ n.replies) :
    { s with toNet := n }.Linked where
  entries := hs.entries
  calls clt xid := by
    rw [← hs.calls clt xid, ← hcalls clt]
  nodup clt := by
    show (n.client clt).calls.Nodup
    rw [hcalls clt]
    exact hs.nodup clt
  own u c hc := hrequests (hs.own u c hc)
  destroyed := hdestroyed
  waits clt u h := hkept clt (hs.waits clt u h)
  results u c hc hdone := (hs.results u c hc hdone).mono (fun _ h => h) hreplies
  awake := hs.awake
  returned r hr := (hs.returned r hr).mono (fun _ h => h) hrequests hreplies

theorem CallNet.Linked.setClient {clt : Nat} {c : Rpcc} (hs : s.Linked)
    (hcalls : c.calls = (s.client clt).calls)
    (hdestroyed : c.destroyWait = true → clt ∈ s.cancels)
    (hkept : (s.client clt).destroyWait = true → c.destroyWait = true) :
    { s with toNet := s.toNet.setClient clt c }.Linked := by
  refine hs.net ?_ ?_ ?_ (fun _ h => h) (fun _ h => h)
  · intro other
    by_cases hother : other = clt
    · subst hother
      simpa [Net.setClient] using hcalls
    · simp [Net.setClient, hother]
  · intro other h
    by_cases hother : other = clt
    · subst hother
      exact hdestroyed (by simpa [Net.setClient] using h)
    · exact hs.destroyed other (by simpa [Net.setClient, hother] using h)
  · intro other h
    by_cases hother : other = clt
    · subst hother
      simpa [Net.setClient] using hkept h
    · simpa [Net.setClient, hother] using h

/-! ### Steps of a call -/

theorem Rpcc.call1_eq {c next : Rpcc} {req : Request} {clt proc : Nat}
    (h : c.call1 clt proc = some (next, req)) :
    next.calls = c.xid :: c.calls ∧ next.destroyWait = c.destroyWait ∧ req.clt = clt ∧
      req.proc = proc ∧ req.xid = c.xid := by
  unfold Rpcc.call1 at h
  split_ifs at h
  cases h
  exact ⟨rfl, rfl, rfl, rfl, rfl⟩

theorem Rpcc.refusal_cases {c : Rpcc} {clt proc : Nat} (h : c.call1 clt proc = none) :
    c.refusal proc = bindFailure ∨ c.refusal proc = cancelFailure ∧ c.destroyWait = true := by
  unfold Rpcc.call1 at h
  unfold Rpcc.refusal
  split_ifs at h ⊢ with hbind hdestroy
  · exact .inl rfl
  · exact .inr ⟨rfl, hdestroy⟩

theorem CallNet.callers_enter_of_ne {c : Rpcc} {req : Request} {u : Nat} (hu : u ≠ t) :
    (s.enter t c req).callers u = s.callers u := CallNet.callers_setCaller_of_ne _ hu

theorem CallNet.callers_enter_self {c : Rpcc} {req : Request} :
    (s.enter t c req).callers t = some ⟨req, false, 0, [], .sending⟩ :=
  CallNet.callers_setCaller_self _

theorem CallNet.client_enter_self {c : Rpcc} {req : Request} :
    (s.enter t c req).client req.clt = c := Function.update_self ..

theorem CallNet.client_enter_of_ne {c : Rpcc} {req : Request} {clt : Nat} (h : clt ≠ req.clt) :
    (s.enter t c req).client clt = s.client clt := Function.update_of_ne h ..

/-- A call gets an xid that no call has. -/
theorem CallNet.Linked.enter {c : Rpcc} {req : Request} (hs : s.Linked)
    (hidle : s.callers t = none) (hfresh : req.xid ∉ (s.client req.clt).calls)
    (hcalls : c.calls = req.xid :: (s.client req.clt).calls)
    (hdestroy : c.destroyWait = (s.client req.clt).destroyWait) : (s.enter t c req).Linked := by
  have hfree : s.pending req.clt req.xid = none :=
    not_not.mp ((not_congr (hs.calls req.clt req.xid)).mp hfresh)
  constructor
  · intro clt xid u
    have hpending := CallNet.pending_setPending (s := { s with
      toNet := { s.setClient req.clt c with requests := req :: s.requests } }.setCaller t
        (some ⟨req, false, 0, [], .sending⟩)) req.clt req.xid (some t) clt xid
    rw [show (s.enter t c req).pending clt xid = _ from hpending]
    by_cases hu : u = t
    · subst hu
      have hold : s.pending clt xid ≠ some u := by
        intro hold
        obtain ⟨ca, hca, -⟩ := (hs.entries clt xid u).mp hold
        cases hidle.symm.trans hca
      rw [CallNet.callers_enter_self]
      constructor
      · intro hpending
        split at hpending
        · next hkey => exact ⟨_, rfl, hkey.1.symm, hkey.2.symm, by simp⟩
        · exact absurd hpending hold
      · rintro ⟨ca, hca, hclt, hxid, -⟩
        cases hca
        exact if_pos ⟨hclt.symm, hxid.symm⟩
    · rw [CallNet.callers_enter_of_ne hu, ← hs.entries clt xid u]
      split
      · next hkey =>
          refine iff_of_false (fun heq => hu (Option.some.inj heq).symm) ?_
          rw [hkey.1, hkey.2]
          intro hold
          cases hfree.symm.trans hold
      · rfl
  · intro clt xid
    have hpending := CallNet.pending_setPending (s := { s with
      toNet := { s.setClient req.clt c with requests := req :: s.requests } }.setCaller t
        (some ⟨req, false, 0, [], .sending⟩)) req.clt req.xid (some t) clt xid
    rw [show (s.enter t c req).pending clt xid = _ from hpending]
    by_cases hclt : clt = req.clt
    · subst hclt
      rw [CallNet.client_enter_self, hcalls, List.mem_cons, hs.calls]
      by_cases hxid : xid = req.xid
      · simp [hxid]
      · simp only [hxid, false_or, and_false, if_false]
        rfl
    · rw [CallNet.client_enter_of_ne hclt, hs.calls, if_neg fun h => hclt h.1]
      rfl
  · intro clt
    by_cases hclt : clt = req.clt
    · subst hclt
      rw [CallNet.client_enter_self, hcalls]
      exact List.nodup_cons.mpr ⟨hfresh, hs.nodup req.clt⟩
    · rw [CallNet.client_enter_of_ne hclt]
      exact hs.nodup clt
  · refine CallNet.forall_callers (fun c hc => ?_)
      fun u ca hca => List.mem_cons_of_mem _ (hs.own u ca hca)
    cases hc
    exact List.mem_cons_self
  · intro clt h
    by_cases hclt : clt = req.clt
    · subst hclt
      rw [CallNet.client_enter_self, hdestroy] at h
      exact hs.destroyed req.clt h
    · rw [CallNet.client_enter_of_ne hclt] at h
      exact hs.destroyed clt h
  · intro clt u h
    have hold := hs.waits clt u h
    by_cases hclt : clt = req.clt
    · subst hclt
      rw [CallNet.client_enter_self, hdestroy]
      exact hold
    · rw [CallNet.client_enter_of_ne hclt]
      exact hold
  · refine CallNet.forall_callers (fun c hc hdone => ?_) hs.results
    cases hc
    cases hdone
  · refine CallNet.forall_callers (fun c hc hdone => ?_) hs.awake
    cases hc
    cases hdone
  · intro r hr
    exact (hs.returned r hr).mono (fun _ h => h) (fun _ h => List.mem_cons_of_mem _ h) fun _ h => h

theorem CallNet.Linked.call {clt proc : Nat} (hs : s.Linked)
    (hfresh : (s.client clt).xid ∉ (s.client clt).calls) (h : s.call t clt proc = some s') :
    s'.Linked := by
  unfold CallNet.call at h
  split at h
  · cases h
  · next hidle =>
      split at h
      · next hrefused =>
          cases h
          refine ⟨hs.entries, hs.calls, hs.nodup, hs.own, hs.destroyed, hs.waits, hs.results,
            hs.awake, ?_⟩
          intro r hr
          rcases List.mem_cons.mp hr with rfl | hr
          · exact (Rpcc.refusal_cases hrefused).imp_right (And.imp_right (hs.destroyed clt))
          · exact hs.returned r hr
      · next c req hcall =>
          cases h
          obtain ⟨hcalls, hdestroy, rfl, -, hreq⟩ := Rpcc.call1_eq hcall
          exact hs.enter (not_not.mp (not_or.mp hidle).1) (hreq ▸ hfresh) (hreq ▸ hcalls) hdestroy

theorem CallNet.Linked.looks (hs : s.Linked) (h : s.looks t = some s') : s'.Linked := by
  obtain ⟨ca, hca, h⟩ := Option.bind_eq_some_iff.mp h
  split at h
  · next hstage =>
      cases h
      refine hs.setCaller hca rfl ?_ (hs.results t ca hca) ?_
      · rcases hstage with hstage | hstage <;> cases hdone : ca.done <;> simp [hstage]
      · intro hdone
        simp [show ca.done = true from hdone]
  · cases h

theorem CallNet.Linked.wakes (hs : s.Linked) (h : s.wakes t = some s') : s'.Linked := by
  obtain ⟨ca, hca, h⟩ := Option.bind_eq_some_iff.mp h
  split at h
  · next hstage =>
      cases h
      refine hs.setCaller hca rfl ?_ (hs.results t ca hca) ?_ <;> simp [Caller.signal, hstage]
  · cases h

theorem CallNet.Linked.timesOut {final : Bool} (hs : s.Linked) (h : s.timesOut t final = some s') :
    s'.Linked := by
  obtain ⟨ca, hca, h⟩ := Option.bind_eq_some_iff.mp h
  split at h
  · next hstage =>
      cases h
      refine hs.setCaller hca rfl ?_ (hs.results t ca hca) ?_
      · rcases hstage with hstage | hstage <;> cases ca.done <;> cases final <;> simp [hstage]
      · intro hdone
        simp [show ca.done = true from hdone]
  · cases h

theorem CallNet.Linked.returns (hs : s.Linked) (h : s.returns t = some s') : s'.Linked := by
  obtain ⟨ca, hca, h⟩ := Option.bind_eq_some_iff.mp h
  split at h
  · next hstage =>
      cases h
      have hold : ∀ u c, (s.setCaller t none).callers u = some c → s.callers u = some c := by
        intro u c hc
        by_cases hu : u = t
        · rw [hu, CallNet.callers_setCaller_self] at hc
          cases hc
        · rwa [CallNet.callers_setCaller_of_ne _ hu] at hc
      refine ⟨?_, hs.calls, hs.nodup, fun u c hc => hs.own u c (hold u c hc), hs.destroyed,
        hs.waits, fun u c hc => hs.results u c (hold u c hc),
        fun u c hc => hs.awake u c (hold u c hc), ?_⟩
      · intro clt xid u
        refine (hs.entries clt xid u).trans ?_
        constructor
        · rintro ⟨c, hc, hkey⟩
          by_cases hu : u = t
          · subst hu
            cases hca.symm.trans hc
            exact absurd hstage hkey.2.2
          · exact ⟨c, (CallNet.callers_setCaller_of_ne _ hu).trans hc, hkey⟩
        · rintro ⟨c, hc, hkey⟩
          exact ⟨c, hold u c hc, hkey⟩
      · intro r hr
        rcases List.mem_cons.mp hr with rfl | hr
        · refine ⟨hs.own t ca hca, rfl, rfl, ?_⟩
          cases hdone : ca.done with
          | false => exact .inl rfl
          | true => exact .inr (hs.results t ca hca hdone)
        · exact hs.returned r hr
  · cases h

theorem Rpcc.finish_eq {c next : Rpcc} {xid : Nat} (h : c.finish xid = some next) :
    xid ∈ c.calls ∧ next.calls = c.calls.erase xid ∧ next.destroyWait = c.destroyWait := by
  unfold Rpcc.finish at h
  split_ifs at h with hmem
  cases h
  exact ⟨hmem, rfl, rfl⟩

theorem CallNet.finish_eq {pick : Nat} (h : s.finish t pick = some s') :
    ∃ ca c d, s.callers t = some ca ∧ ca.stage = .leaving ∧
      (s.client ca.req.clt).finish ca.req.xid = some c ∧
      (if c.destroyWait then (s.destroyWaitC ca.req.clt).signal pick
        else some (s.destroyWaitC ca.req.clt)) = some d ∧ s' = s.erase t ca c d := by
  obtain ⟨ca, hca, h⟩ := Option.bind_eq_some_iff.mp h
  split at h
  · next hstage =>
      obtain ⟨c, hfinish, h⟩ := Option.bind_eq_some_iff.mp h
      obtain ⟨d, hd, heq⟩ := Option.map_eq_some_iff.mp h
      exact ⟨ca, c, d, hca, hstage, hfinish, hd, heq.symm⟩
  · cases h

theorem CallNet.callers_erase_self {c : Rpcc} {d : Cond Nat} :
    (s.erase t ca c d).callers t = some { ca with stage := .erased } :=
  CallNet.callers_setCaller_self _

theorem CallNet.callers_erase_of_ne {c : Rpcc} {d : Cond Nat} {u : Nat} (hu : u ≠ t) :
    (s.erase t ca c d).callers u = s.callers u := CallNet.callers_setCaller_of_ne _ hu

theorem CallNet.client_erase_self {c : Rpcc} {d : Cond Nat} :
    (s.erase t ca c d).client ca.req.clt = c := Function.update_self ..

theorem CallNet.client_erase_of_ne {c : Rpcc} {d : Cond Nat} {clt : Nat} (h : clt ≠ ca.req.clt) :
    (s.erase t ca c d).client clt = s.client clt := Function.update_of_ne h ..

theorem CallNet.pending_erase {c : Rpcc} {d : Cond Nat} (clt xid : Nat) :
    (s.erase t ca c d).pending clt xid =
      if clt = ca.req.clt ∧ xid = ca.req.xid then none else s.pending clt xid :=
  CallNet.pending_setPending ..

theorem CallNet.Linked.erase {c : Rpcc} {d : Cond Nat} (hs : s.Linked) (hca : s.callers t = some ca)
    (hstage : ca.stage = .leaving) (hfinish : (s.client ca.req.clt).finish ca.req.xid = some c)
    (hd : ∀ u, d.count u = (s.destroyWaitC ca.req.clt).count u) : (s.erase t ca c d).Linked := by
  obtain ⟨-, hcalls, hdestroy⟩ := Rpcc.finish_eq hfinish
  have hentry : s.pending ca.req.clt ca.req.xid = some t :=
    (hs.entries _ _ t).mpr ⟨ca, hca, rfl, rfl, by simp [hstage]⟩
  constructor
  · intro clt xid u
    rw [CallNet.pending_erase]
    by_cases hu : u = t
    · subst hu
      rw [CallNet.callers_erase_self]
      constructor
      · intro hpending
        split at hpending
        · cases hpending
        · next hkey =>
            obtain ⟨c', hc', hclt, hxid, -⟩ := (hs.entries clt xid u).mp hpending
            cases hca.symm.trans hc'
            exact absurd ⟨hclt.symm, hxid.symm⟩ hkey
      · rintro ⟨c', hc', -, -, herased⟩
        cases hc'
        exact absurd rfl herased
    · rw [CallNet.callers_erase_of_ne hu, ← hs.entries clt xid u]
      split
      · next hkey =>
          refine iff_of_false (fun heq => by cases heq) ?_
          rw [hkey.1, hkey.2, hentry]
          exact fun heq => hu (Option.some.inj heq).symm
      · rfl
  · intro clt xid
    rw [CallNet.pending_erase]
    by_cases hclt : clt = ca.req.clt
    · subst hclt
      rw [CallNet.client_erase_self, hcalls, (hs.nodup ca.req.clt).mem_erase_iff, hs.calls]
      by_cases hxid : xid = ca.req.xid
      · simp [hxid]
      · simp [hxid]
    · rw [CallNet.client_erase_of_ne hclt, hs.calls, if_neg fun h => hclt h.1]
  · intro clt
    by_cases hclt : clt = ca.req.clt
    · subst hclt
      rw [CallNet.client_erase_self, hcalls]
      exact (hs.nodup ca.req.clt).erase _
    · rw [CallNet.client_erase_of_ne hclt]
      exact hs.nodup clt
  · refine CallNet.forall_callers (fun c' hc' => ?_) hs.own
    cases hc'
    exact hs.own t ca hca
  · intro clt h
    by_cases hclt : clt = ca.req.clt
    · subst hclt
      rw [CallNet.client_erase_self, hdestroy] at h
      exact hs.destroyed ca.req.clt h
    · rw [CallNet.client_erase_of_ne hclt] at h
      exact hs.destroyed clt h
  · intro clt u h
    have h : 0 < (Function.update s.destroyWaitC ca.req.clt d clt).count u := h
    by_cases hclt : clt = ca.req.clt
    · subst hclt
      rw [Function.update_self, hd] at h
      rw [CallNet.client_erase_self, hdestroy]
      exact hs.waits ca.req.clt u h
    · rw [Function.update_of_ne hclt] at h
      rw [CallNet.client_erase_of_ne hclt]
      exact hs.waits clt u h
  · refine CallNet.forall_callers (fun c' hc' hdone => ?_) hs.results
    cases hc'
    exact hs.results t ca hca hdone
  · refine CallNet.forall_callers (fun c' hc' _ => ?_) hs.awake
    cases hc'
    simp
  · exact hs.returned

theorem CallNet.Linked.finish {pick : Nat} (hs : s.Linked) (h : s.finish t pick = some s') :
    s'.Linked := by
  obtain ⟨ca, c, d, hca, hstage, hfinish, hd, rfl⟩ := CallNet.finish_eq h
  refine hs.erase hca hstage hfinish fun u => ?_
  split at hd
  · exact Cond.count_signal u hd
  · rw [Option.some.inj hd]

/-! ### Replies -/

theorem Caller.signal_stage (ca : Caller) :
    (ca.signal.stage = .erased ↔ ca.stage = .erased) ∧ ca.signal.stage ≠ .waiting := by
  unfold Caller.signal
  split
  · next hwaiting => simp [hwaiting]
  · next hne => exact ⟨Iff.rfl, hne⟩

theorem Caller.gotPdu_req (ca : Caller) (pdu : ReplyPdu) : (ca.gotPdu pdu).req = ca.req := by
  unfold Caller.gotPdu
  split <;> rfl

theorem Caller.gotPdu_stage (ca : Caller) (pdu : ReplyPdu) :
    ((ca.gotPdu pdu).stage = .erased ↔ ca.stage = .erased) ∧
      (ca.gotPdu pdu).stage ≠ .waiting := by
  unfold Caller.gotPdu
  split
  · exact ca.signal_stage
  · exact Caller.signal_stage _

/-- The first reply counts. -/
theorem Caller.gotPdu_result (ca : Caller) (pdu : ReplyPdu) :
    (ca.gotPdu pdu).intret = (if ca.done then ca.intret else pdu.ret) ∧
      (ca.gotPdu pdu).un = (if ca.done then ca.un else pdu.body) := by
  unfold Caller.gotPdu
  split
  · next hdone => exact ⟨rfl, rfl⟩
  · next hdone => exact ⟨rfl, rfl⟩

theorem CallNet.Linked.gotPdu {clt : Nat} {pdu : ReplyPdu} (hs : s.Linked)
    (h : s.gotPdu clt pdu = some s') : s'.Linked := by
  unfold CallNet.gotPdu at h
  split at h
  · next hreply =>
      have hclient : { s with
          toNet := s.toNet.setClient clt ((s.client clt).gotPdu pdu) }.Linked :=
        hs.setClient rfl (hs.destroyed clt) id
      dsimp only at h
      split at h
      · cases h
        exact hclient
      · next t hpending =>
          obtain ⟨ca, hca, rfl⟩ := Option.map_eq_some_iff.mp h
          obtain ⟨c, hc, hclt, hxid, -⟩ := (hs.entries clt pdu.xid t).mp hpending
          cases hca.symm.trans hc
          obtain ⟨hintret, hun⟩ := ca.gotPdu_result pdu
          refine hclient.setCaller hca (ca.gotPdu_req pdu) (ca.gotPdu_stage pdu).1 (fun _ => ?_)
            fun _ => (ca.gotPdu_stage pdu).2
          rw [hintret, hun]
          cases hdone : ca.done with
          | true => exact hs.results t ca hca hdone
          | false =>
              refine .inr ?_
              rw [hclt, hxid]
              exact hreply
  · cases h

/-! ### Cancellation -/

theorem Caller.force_stage (ca : Caller) :
    (ca.force.stage = .erased ↔ ca.stage = .erased) ∧ ca.force.stage ≠ .waiting :=
  Caller.signal_stage _

theorem Caller.force_force (ca : Caller) : ca.force.force = ca.force := by
  unfold Caller.force Caller.signal
  cases ca.stage <;> rfl

/-- The call is one of those that the first loop of `cancel` comes to. -/
def Caller.Forced (clt : Nat) (xids : List Nat) (ca : Caller) : Prop :=
  ca.req.clt = clt ∧ ca.req.xid ∈ xids ∧ ca.stage ≠ .erased

instance (clt : Nat) (xids : List Nat) (ca : Caller) : Decidable (ca.Forced clt xids) :=
  inferInstanceAs (Decidable (_ ∧ _))

def CallNet.forced (s : CallNet) (clt : Nat) (xids : List Nat) (u : Nat) : Option Caller :=
  (s.callers u).map fun ca => if ca.Forced clt xids then ca.force else ca

/-- The first loop of `cancel` finds a `caller` behind each pointer. -/
theorem CallNet.Linked.force (clt : Nat) (xids : List Nat) :
    ∀ {s : CallNet}, s.Linked → clt ∈ s.cancels → (∀ xid ∈ xids, s.pending clt xid ≠ none) →
      s.force clt xids = some { s with callers := s.forced clt xids } ∧
        { s with callers := s.forced clt xids }.Linked := by
  induction xids with
  | nil =>
      intro s hs _ _
      have hsame : s.forced clt [] = s.callers := by
        funext u
        simp [CallNet.forced, Caller.Forced]
      rw [hsame]
      exact ⟨rfl, hs⟩
  | cons xid rest ih =>
      intro s hs hclt hxids
      obtain ⟨t, hpending⟩ := Option.ne_none_iff_exists'.mp (hxids xid List.mem_cons_self)
      obtain ⟨ca, hca, hkey⟩ := (hs.entries clt xid t).mp hpending
      have hforce : (s.setCaller t (some ca.force)).Linked :=
        hs.setCaller hca rfl ca.force_stage.1 (fun _ => .inl ⟨rfl, hkey.1 ▸ hclt⟩)
          fun _ => ca.force_stage.2
      have hcallers : (s.setCaller t (some ca.force)).forced clt rest =
          s.forced clt (xid :: rest) := by
        funext u
        simp only [CallNet.forced]
        by_cases hu : u = t
        · subst hu
          have hforced : ca.Forced clt (xid :: rest) := by
            refine ⟨hkey.1, ?_, hkey.2.2⟩
            rw [hkey.2.1]
            exact List.mem_cons_self
          rw [CallNet.callers_setCaller_self, hca, Option.map_some, Option.map_some,
            if_pos hforced, ca.force_force, ite_self]
        · rw [CallNet.callers_setCaller_of_ne _ hu]
          refine Option.map_congr fun c hc => if_congr ?_ rfl rfl
          constructor
          · exact fun h => ⟨h.1, List.mem_cons_of_mem _ h.2.1, h.2.2⟩
          · rintro ⟨hc1, hmem, hstage⟩
            rcases List.mem_cons.mp hmem with heq | hmem
            · have hother := (hs.entries clt xid u).mpr ⟨c, hc, hc1, heq, hstage⟩
              exact absurd (Option.some.inj (hother.symm.trans hpending)) hu
            · exact ⟨hc1, hmem, hstage⟩
      obtain ⟨hrest, hlinked⟩ := ih hforce hclt fun x hx => hxids x (List.mem_cons_of_mem _ hx)
      rw [hcallers] at hrest hlinked
      refine ⟨?_, hlinked⟩
      simp only [CallNet.force, hpending, Option.bind_some, hca]
      exact hrest

theorem CallNet.Linked.cancelLoop {clt : Nat} (hs : s.Linked) (hclt : clt ∈ s.cancels) :
    (s.cancelLoop t clt).Linked := by
  have hclient : { s with toNet := s.toNet.setClient clt (s.client clt).cancel }.Linked := by
    refine hs.setClient rfl (fun _ => hclt) fun h => ?_
    simp [Rpcc.cancel, h]
  refine ⟨hclient.entries, hclient.calls, hclient.nodup, hclient.own, hclient.destroyed, ?_,
    hclient.results, hclient.awake, hclient.returned⟩
  intro other u h
  by_cases hcalls : (s.client clt).calls = []
  · rw [CallNet.cancelLoop, if_pos hcalls] at h
    exact hclient.waits other u h
  · rw [CallNet.cancelLoop, if_neg hcalls] at h
    by_cases hother : other = clt
    · subst hother
      simp [CallNet.cancelLoop, Net.setClient, Rpcc.cancel, hcalls]
    · dsimp only at h
      rw [Function.update_of_ne hother] at h
      exact hclient.waits other u h

/-- A thread has called `cancel`. -/
theorem CallNet.Linked.cancels (hs : s.Linked) (clt : Nat) :
    { s with cancels := clt :: s.cancels }.Linked where
  entries := hs.entries
  calls := hs.calls
  nodup := hs.nodup
  own := hs.own
  destroyed other h := List.mem_cons_of_mem _ (hs.destroyed other h)
  waits := hs.waits
  results u ca hca hdone :=
    (hs.results u ca hca hdone).mono (List.subset_cons_self _ _) fun _ h => h
  awake := hs.awake
  returned r hr :=
    (hs.returned r hr).mono (List.subset_cons_self _ _) (fun _ h => h) fun _ h => h

/-- What `cancel` does. -/
theorem CallNet.Linked.cancel_eq (hs : s.Linked) (t clt : Nat) :
    s.cancel t clt = some ({ s with
      cancels := clt :: s.cancels
      callers := s.forced clt (s.client clt).calls }.cancelLoop t clt) ∧
    { s with
      cancels := clt :: s.cancels
      callers := s.forced clt (s.client clt).calls }.Linked := by
  obtain ⟨hforce, hlinked⟩ := CallNet.Linked.force clt (s.client clt).calls
    (hs.cancels clt) List.mem_cons_self fun xid hxid => (hs.calls clt xid).mp hxid
  refine ⟨?_, hlinked⟩
  rw [CallNet.cancel, hforce]
  rfl

/-- Threads at `destroy_wait_c_` wake, or one of them has `m_` again. -/
theorem CallNet.Linked.wakesUp {clt : Nat} {d : Cond Nat} (hs : s.Linked)
    (hd : ∀ u, d.count u ≤ (s.destroyWaitC clt).count u) :
    { s with destroyWaitC := Function.update s.destroyWaitC clt d }.Linked := by
  refine ⟨hs.entries, hs.calls, hs.nodup, hs.own, hs.destroyed, ?_, hs.results, hs.awake,
    hs.returned⟩
  intro other u h
  have h : 0 < (Function.update s.destroyWaitC clt d other).count u := h
  by_cases hother : other = clt
  · subst hother
    rw [Function.update_self] at h
    exact hs.waits other u (Nat.lt_of_lt_of_le h (hd u))
  · rw [Function.update_of_ne hother] at h
    exact hs.waits other u h

theorem CallNet.Linked.cancelResumes {clt : Nat} (hs : s.Linked)
    (h : s.cancelResumes t clt = some s') : s'.Linked := by
  obtain ⟨d, hresume, rfl⟩ := Option.map_eq_some_iff.mp h
  have hclt : clt ∈ s.cancels := by
    have hwoken := (Cond.resume_eq hresume).1
    exact hs.destroyed clt (hs.waits clt t (Cond.count_pos_of_woken hwoken))
  refine (hs.wakesUp fun u => ?_).cancelLoop hclt
  rw [Cond.count_resume u hresume]
  exact Nat.le_add_right _ _

theorem Net.serves_keeps {n n' : Net} {action : Net.Action} (hserves : action.serves = true)
    (h : n.step action = some n') :
    (∀ clt, (n'.client clt).calls = (n.client clt).calls ∧
      (n'.client clt).destroyWait = (n.client clt).destroyWait) ∧
      n'.requests = n.requests ∧ n.replies ⊆ n'.replies := by
  cases action with
  | bound clt r =>
      cases h
      refine ⟨fun other => ?_, rfl, fun _ h => h⟩
      by_cases hother : other = clt
      · subst hother
        simp [Net.setClient, Rpcc.bound]
      · simp [Net.setClient, hother]
  | dispatch req =>
      simp only [Net.step] at h
      split_ifs at h
      obtain ⟨out, -, rfl⟩ := Option.map_eq_some_iff.mp h
      exact ⟨fun _ => ⟨rfl, rfl⟩, rfl, List.subset_append_right _ _⟩
  | execute req buf ret body =>
      obtain ⟨server, -, rfl⟩ := Option.map_eq_some_iff.mp h
      exact ⟨fun _ => ⟨rfl, rfl⟩, rfl, fun _ h => h⟩
  | addReply req buf =>
      obtain ⟨server, -, rfl⟩ := Option.map_eq_some_iff.mp h
      exact ⟨fun _ => ⟨rfl, rfl⟩, rfl, fun _ h => h⟩
  | send req buf resend junk =>
      obtain ⟨out, -, rfl⟩ := Option.map_eq_some_iff.mp h
      exact ⟨fun _ => ⟨rfl, rfl⟩, rfl, List.subset_cons_self _ _⟩
  | _ => cases hserves

theorem CallNet.serve_eq {action : Net.Action} (h : s.step (.serve action) = some s') :
    action.serves = true ∧ ∃ n, s.toNet.step action = some n ∧ s' = { s with toNet := n } := by
  simp only [CallNet.step] at h
  split at h
  · next hserves =>
      obtain ⟨n, hn, heq⟩ := Option.map_eq_some_iff.mp h
      exact ⟨hserves, n, hn, heq.symm⟩
  · cases h

/-- As long as its counter has not wrapped around a client gives each xid to one call only. -/
theorem CallNet.fresh_of_orderly {action : CallAction} (hn : s.toNet.Ordered)
    (h : s.orderly action = true) : s.fresh action = true := by
  cases action with
  | call t clt proc =>
      have hxid : (s.client clt).xid ≠ 0 := by simpa [CallNet.orderly] using h
      have hlimit : (s.client clt).limit = (s.client clt).xid := if_neg hxid
      refine decide_eq_true fun hmem => ?_
      exact absurd (hlimit ▸ (hn.clients clt).calls _ hmem) (Nat.lt_irrefl _)
  | _ => rfl

theorem CallNet.Linked.step {action : CallAction} (hs : s.Linked)
    (hguard : s.fresh action = true) (h : s.step action = some s') : s'.Linked := by
  cases action with
  | call t clt proc => exact hs.call (of_decide_eq_true hguard) h
  | looks t => exact hs.looks h
  | wakes t => exact hs.wakes h
  | timesOut t final => exact hs.timesOut h
  | finish t pick => exact hs.finish h
  | returns t => exact hs.returns h
  | gotPdu clt pdu => exact hs.gotPdu h
  | cancel t clt =>
      obtain ⟨heq, hforced⟩ := hs.cancel_eq t clt
      cases heq.symm.trans h
      exact hforced.cancelLoop List.mem_cons_self
  | cancelResumes t clt => exact hs.cancelResumes h
  | cancelWakes t clt =>
      obtain ⟨d, hwake, rfl⟩ := Option.map_eq_some_iff.mp h
      exact hs.wakesUp fun u => Nat.le_of_eq (Cond.count_wake u hwake)
  | serve action =>
      obtain ⟨hserves, n, hstep, rfl⟩ := CallNet.serve_eq h
      obtain ⟨hclients, hrequests, hreplies⟩ := Net.serves_keeps hserves hstep
      refine hs.net (fun clt => (hclients clt).1) (fun clt h => ?_) (fun clt h => ?_) ?_ hreplies
      · exact hs.destroyed clt ((hclients clt).2 ▸ h)
      · exact (hclients clt).2 ▸ h
      · rw [hrequests]
        exact fun _ h => h

/-- A step is one of `Net`, or does not touch it. -/
theorem CallNet.Linked.step_net {action : CallAction} (hs : s.Linked)
    (h : s.step action = some s') :
    s'.toNet = s.toNet ∨ ∃ action', s.toNet.step action' = some s'.toNet ∧
      (s.orderly action = true → s.toNet.orderly action' = true) := by
  cases action with
  | call t clt proc =>
      simp only [CallNet.step, CallNet.call] at h
      split at h
      · cases h
      · next hidle =>
          split at h
          · cases h
            exact .inl rfl
          · next c req hcall =>
              cases h
              refine .inr ⟨.call clt proc, ?_, fun hxid => Bool.and_eq_true_iff.mpr ⟨hxid, rfl⟩⟩
              obtain ⟨-, -, rfl, -, -⟩ := Rpcc.call1_eq hcall
              simp only [Net.step, if_neg (not_or.mp hidle).2, hcall, Option.map_some]
              rfl
  | looks t | wakes t | timesOut t final | returns t =>
      obtain ⟨ca, -, h⟩ := Option.bind_eq_some_iff.mp h
      split at h
      · cases h
        exact .inl rfl
      · cases h
  | finish t pick =>
      obtain ⟨ca, c, d, -, -, hfinish, -, rfl⟩ := CallNet.finish_eq h
      refine .inr ⟨.finish ca.req.clt ca.req.xid, ?_, fun _ => rfl⟩
      simp only [Net.step, hfinish, Option.map_some]
      rfl
  | gotPdu clt pdu =>
      simp only [CallNet.step, CallNet.gotPdu] at h
      split at h
      · next hreply =>
          refine .inr ⟨.receive clt pdu, ?_, fun _ => rfl⟩
          rw [Net.step, if_pos hreply]
          split at h
          · cases h
            rfl
          · obtain ⟨ca, -, rfl⟩ := Option.map_eq_some_iff.mp h
            rfl
      · cases h
  | cancel t clt =>
      obtain ⟨heq, -⟩ := hs.cancel_eq t clt
      cases heq.symm.trans h
      exact .inr ⟨.cancel clt, rfl, fun _ => rfl⟩
  | cancelResumes t clt =>
      obtain ⟨d, -, rfl⟩ := Option.map_eq_some_iff.mp h
      exact .inr ⟨.cancel clt, rfl, fun _ => rfl⟩
  | cancelWakes t clt =>
      obtain ⟨d, -, rfl⟩ := Option.map_eq_some_iff.mp h
      exact .inl rfl
  | serve action =>
      obtain ⟨-, n, hstep, rfl⟩ := CallNet.serve_eq h
      exact .inr ⟨action, hstep, id⟩

end Linked

/-! ## 4. Runs -/

section Runs

variable {nonce : Nat} {procs : List Nat} {s : CallNet}

/-- The runs of the clients with their threads are runs of `Net`, under a guard that follows. -/
theorem callNet_refines {ok : CallNet → CallAction → Prop} {ok' : Net → Net.Action → Prop}
    (hfresh : ∀ s action, (net nonce procs).Reach ok' s.toNet → ok s action →
      s.fresh action = true)
    (hok : ∀ s action action', ok s action →
      (s.orderly action = true → s.toNet.orderly action' = true) → ok' s.toNet action')
    (h : (callNet nonce procs).Reach ok s) :
    s.Linked ∧ (net nonce procs).Reach ok' s.toNet := by
  refine h.invariant (P := fun s => s.Linked ∧ (net nonce procs).Reach ok' s.toNet) ?_ ?_
  · rintro start rfl
    exact ⟨CallNet.linked_new nonce procs, .init rfl⟩
  · rintro state next action ⟨hs, hnet⟩ hguard hstep
    refine ⟨hs.step (hfresh state action hnet hguard) hstep, ?_⟩
    rcases hs.step_net hstep with heq | ⟨action', htaken, hguard'⟩
    · rw [heq]
      exact hnet
    · exact hnet.step (hok state action action' hguard hguard') htaken

/-- **No pointer of `calls_` dangles**, as long as no call gets the xid of one that waits, whose
    entry it would overwrite.  The clients with their threads are clients of `Net`.  The pointers
    of `calls_` are those to the calls that have not taken them out, and so the poll thread and a
    thread in `cancel` find a `caller` behind each pointer that they follow. -/
theorem calls_never_dangle
    (h : (callNet nonce procs).Reach (fun state action => state.fresh action = true) s) :
    (net nonce procs).Reach anyStep s.toNet ∧
    (∀ clt xid t, s.pending clt xid = some t ↔
      ∃ ca, s.callers t = some ca ∧ ca.req.clt = clt ∧ ca.req.xid = xid ∧ ca.stage ≠ .erased) ∧
    (∀ clt pdu, (clt, pdu) ∈ s.replies → ∃ s', s.step (.gotPdu clt pdu) = some s') ∧
    ∀ t clt, ∃ s', s.step (.cancel t clt) = some s' := by
  obtain ⟨hs, hnet⟩ : s.Linked ∧ (net nonce procs).Reach anyStep s.toNet :=
    callNet_refines (fun _ _ _ hguard => hguard) (fun _ _ _ _ _ => trivial) h
  refine ⟨hnet, hs.entries, fun clt pdu hreply => ?_, fun t clt => ⟨_, (hs.cancel_eq t clt).1⟩⟩
  simp only [CallNet.step, CallNet.gotPdu, if_pos hreply]
  split
  · exact ⟨_, rfl⟩
  · next t hpending =>
      obtain ⟨ca, hca, -⟩ := (hs.entries clt pdu.xid t).mp hpending
      simp only [hca, Option.map_some]
      exact ⟨_, rfl⟩

/-- **A call returns the reply to its own request**, in the runs in which requests are executed at
    most once.  When `call1` returns a value that is not negative, the server has run the handler
    for the request of this call, once, and the value and the reply are those that the handler has
    returned.  All other results are errors, and
    `cancel_failure` is returned only if the client has been cancelled. -/
theorem call_returns_own_reply
    (h : (callNet nonce procs).Reach (fun state action => state.orderly action = true) s)
    {r : Returned} (hr : r ∈ s.returned) :
    (0 ≤ r.ret → ∃ req, r.req = some req ∧ req ∈ s.requests ∧ req.clt = r.clt ∧ req.proc = r.proc ∧
      (∀ req' ∈ s.requests, req'.clt = req.clt → req'.xid = req.xid → req' = req) ∧
      s.server.news.Nodup ∧ (req.clt, req.xid) ∈ s.server.news ∧
      ∀ pdu, ⟨req.clt, req.xid, pdu⟩ ∈ s.server.stored ↔ pdu = ⟨req.xid, r.ret, r.un⟩) ∧
    (r.ret < 0 →
      r.ret ∈ [timeoutFailure, atmostonceFailure, oldsrvFailure, bindFailure] ∨
        r.ret = cancelFailure ∧ r.clt ∈ s.cancels) := by
  obtain ⟨hs, hnet⟩ := callNet_refines
    (fun _ _ hnet hguard => CallNet.fresh_of_orderly (net_answers hnet).1 hguard)
    (fun _ _ _ hguard hguard' => hguard' hguard) h
  obtain ⟨hordered, hanswers⟩ := net_answers hnet
  have haccounts := hs.returned r hr
  rcases hreq : r.req with _ | req
  · simp only [CallNet.Accounts, hreq] at haccounts
    refine ⟨fun hpos => ?_, fun _ => haccounts.imp_left fun hbind => by simp [hbind]⟩
    rcases haccounts with hret | ⟨hret, -⟩ <;>
      · rw [hret] at hpos
        exact absurd hpos (by decide)
  · simp only [CallNet.Accounts, hreq] at haccounts
    obtain ⟨hmem, hclt, hproc, hresult⟩ := haccounts
    rcases hresult with htimeout | ⟨hcancel, hcancelled⟩ | hreply
    · refine ⟨fun hpos => ?_, fun _ => .inl (by simp [htimeout])⟩
      rw [htimeout] at hpos
      exact absurd hpos (by decide)
    · refine ⟨fun hpos => ?_, fun _ => .inr ⟨hcancel, hclt ▸ hcancelled⟩⟩
      rw [hcancel] at hpos
      exact absurd hpos (by decide)
    · rcases hanswers.replies _ _ hreply with hret | hret | hstored
      · have hret : r.ret = oldsrvFailure := hret
        refine ⟨fun hpos => ?_, fun _ => .inl (by simp [hret])⟩
        rw [hret] at hpos
        exact absurd hpos (by decide)
      · have hret : r.ret = atmostonceFailure := hret
        refine ⟨fun hpos => ?_, fun _ => .inl (by simp [hret])⟩
        rw [hret] at hpos
        exact absurd hpos (by decide)
      · have hpos : 0 ≤ r.ret := hanswers.stored _ hstored
        refine ⟨fun _ => ⟨req, rfl, hmem, hclt, hproc, ?_, hordered.server.once,
          hordered.server.known _ hstored, ?_⟩, fun hneg => absurd hneg (Int.not_lt.mpr hpos)⟩
        · exact fun req' hreq' hsame hxid => hanswers.keys req' hreq' req hmem hsame hxid
        · intro pdu
          constructor
          · intro hpdu
            exact congrArg Cell.pdu (hordered.server.unique _ hstored _ hpdu rfl rfl)
          · rintro rfl
            exact hstored

end Runs

/-! ## 5. Concrete runs -/

/-- The server answers a request. -/
def answered (req : Request) (buf : Nat) (body : List UInt8) : List CallAction :=
  [.serve (.dispatch req), .serve (.execute req buf 0 body), .serve (.addReply req buf),
    .serve (.send req buf false noReply), .gotPdu req.clt ⟨req.xid, 0, body⟩]

/-- The end of a call that has been woken. -/
def comesBack (t : Nat) : List CallAction := [.looks t, .finish t 7, .returns t]

/-- Two calls after `bind`; the first one has its reply when a third thread cancels the other. -/
def cancelledCall : List CallAction :=
  [.call 0 5 bindProc, .looks 0] ++ answered bindRequest 100 [] ++ comesBack 0 ++
    [.serve (.bound 5 9), .call 1 5 2, .call 2 5 2, .looks 1, .looks 2] ++
    answered secondRequest 200 [65] ++ comesBack 1 ++ [.cancel 7 5]

theorem calls_never_dangle_cancelled :
    ∃ s, (callNet 9 [bindProc, 2]).Reach (fun state action => state.fresh action = true) s ∧
      s.pending 5 3 = some 2 ∧
      (net 9 [bindProc, 2]).Reach anyStep s.toNet ∧
      (∀ clt xid t, s.pending clt xid = some t ↔
        ∃ ca, s.callers t = some ca ∧ ca.req.clt = clt ∧ ca.req.xid = xid ∧ ca.stage ≠ .erased) ∧
      (∀ clt pdu, (clt, pdu) ∈ s.replies → ∃ s', s.step (.gotPdu clt pdu) = some s') ∧
      ∀ t clt, ∃ s', s.step (.cancel t clt) = some s' := by
  obtain ⟨s, hreach, hseen⟩ : ∃ s, (callNet 9 [bindProc, 2]).Reach
      (fun state action => state.fresh action = true) s ∧ s.pending 5 3 = some 2 :=
    System.Reach.of_exec CallNet.fresh cancelledCall rfl (fun _ _ h => h) (by decide +kernel)
  exact ⟨s, hreach, hseen, calls_never_dangle hreach⟩

theorem call_returns_own_reply_answered :
    ∃ s, (callNet 9 [bindProc, 2]).Reach (fun state action => state.orderly action = true) s ∧
      ⟨5, 2, some ⟨5, 3, 2, 9, 1⟩, cancelFailure, []⟩ ∈ s.returned ∧ 5 ∈ s.cancels ∧
      ∃ req, some secondRequest = some req ∧ req ∈ s.requests ∧ req.clt = 5 ∧ req.proc = 2 ∧
        (∀ req' ∈ s.requests, req'.clt = req.clt → req'.xid = req.xid → req' = req) ∧
        s.server.news.Nodup ∧ (req.clt, req.xid) ∈ s.server.news ∧
        ∀ pdu, ⟨req.clt, req.xid, pdu⟩ ∈ s.server.stored ↔ pdu = ⟨req.xid, 0, [65]⟩ := by
  obtain ⟨s, hreach, hseen⟩ : ∃ s, (callNet 9 [bindProc, 2]).Reach
      (fun state action => state.orderly action = true) s ∧
      s.returned = [⟨5, 2, some ⟨5, 3, 2, 9, 1⟩, cancelFailure, []⟩,
        ⟨5, 2, some secondRequest, 0, [65]⟩, ⟨5, 1, some bindRequest, 0, []⟩] :=
    System.Reach.of_exec CallNet.orderly (cancelledCall ++ comesBack 2) rfl (fun _ _ h => h)
      (by decide +kernel)
  have hanswered : ⟨5, 2, some secondRequest, 0, [65]⟩ ∈ s.returned := by simp [hseen]
  have hcancelled : ⟨5, 2, some ⟨5, 3, 2, 9, 1⟩, cancelFailure, []⟩ ∈ s.returned := by simp [hseen]
  refine ⟨s, hreach, hcancelled, ?_, (call_returns_own_reply hreach hanswered).1 (by decide)⟩
  rcases (call_returns_own_reply hreach hcancelled).2 (by decide) with hother | ⟨-, hcancels⟩
  · exact absurd hother (by decide)
  · exact hcancels

end DistributedLab.Rpc
