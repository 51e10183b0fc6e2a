import DistributedLab.Condition
import DistributedLab.Connection

/-!
# Calls of send

Any number of threads call `send` on one connection.  A call waits at `send_wait_` while another
one uses `wpdu_`; it then has `wpdu_` to itself, and if the kernel does not take the whole PDU
at once it waits at `send_complete_` until `write_cb` has written the rest.  The call that is
done wakes all that wait for `wpdu_`.

A step is again a critical section of `m_`, and here the threads at the two condition variables
are part of the state.  `Link` is what the calls amount to: one call after the other, and no
threads.
-/

namespace DistributedLab.Channel

open Transition Monitor Wire

/-! ### The connection and its callers -/

/-- Where a call is while it does not have `m_`: at `send_wait_`, in `block_remove_fd` after a write
    that has failed, or at `send_complete_`. -/
inductive SendStage where
  | waits
  | removes
  | completes
deriving DecidableEq, Repr

structure SendCall where
  b : List UInt8
  stage : SendStage
deriving DecidableEq, Repr

/-- The fields of `Link` are those of the connection and of the other end.  `watched` says whether
    the poll manager has the connection for writing, `written` is all that `write` has taken, and
    `returned` are the calls that have returned, with their results. -/
structure Sender (τ : Type) extends Link where
  waiters : Int
  watched : Bool
  sendWait : Cond τ
  sendComplete : Cond τ
  calls : τ → Option SendCall
  written : List UInt8
  returned : List (List UInt8 × Bool)

variable {τ : Type} [DecidableEq τ]

def Sender.new : Sender τ := ⟨.new, 0, false, .empty, .empty, fun _ => none, [], []⟩

def Sender.setCall (s : Sender τ) (t : τ) (call : Option SendCall) : Sender τ :=
  { s with calls := Function.update s.calls t call }

/-- `writepdu` on `wpdu_`. -/
def Sender.writepdu (s : Sender τ) (r : Written) : Option (Bool × Sender τ) :=
  (Channel.writepdu s.wpdu r).map fun (ok, w, bytes) =>
    (ok, { s with wpdu := w, wire := s.wire ++ bytes, written := s.written ++ bytes })

/-- The end of `send`. -/
def Sender.finish (s : Sender τ) (b : List UInt8) : Sender τ :=
  let ret := !s.senderDead && s.wpdu.solong == s.wpdu.sz
  { s with
    wpdu := .empty
    sendWait := if s.waiters > 0 then s.sendWait.broadcast else s.sendWait
    returned := s.returned ++ [(b, ret)] }

/-- The loop around `send_complete_`. -/
def Sender.complete (s : Sender τ) (t : τ) (b : List UInt8) : Sender τ :=
  if s.senderDead = false ∧ s.wpdu.solong ≥ 0 ∧ s.wpdu.solong < s.wpdu.sz then
    { s with sendComplete := s.sendComplete.wait t }.setCall t (some ⟨b, .completes⟩)
  else s.finish b

/-- After the first write.  When it has failed, `block_remove_fd` takes the callbacks away. -/
def Sender.started (s : Sender τ) (t : τ) (b : List UInt8) (ok : Bool) : Sender τ :=
  if !ok then { s with senderDead := true, watched := false }.setCall t (some ⟨b, .removes⟩)
  else if s.wpdu.solong = s.wpdu.sz then s.finish b
  else { s with watched := true }.complete t b

/-- The call has got past `send_wait_`.  `lossy_` makes the kernel fail, as it may at any time. -/
def Sender.past (s : Sender τ) (t : τ) (b : List UInt8) (r : Written) : Option (Sender τ) :=
  let s : Sender τ := { s with waiters := s.waiters - 1, passed := s.passed ++ [b] }
  if s.senderDead then some { s with returned := s.returned ++ [(b, false)] }
  else
    (({ s with wpdu := ⟨some b, b.length, 0⟩ } : Sender τ).writepdu r).map fun x =>
      x.2.started t b x.1

/-- The loop around `send_wait_`. -/
def Sender.enter (s : Sender τ) (t : τ) (b : List UInt8) (r : Written) : Option (Sender τ) :=
  if s.senderDead = false ∧ s.wpdu.buf ≠ none then
    some ({ s with sendWait := s.sendWait.wait t }.setCall t (some ⟨b, .waits⟩))
  else s.past t b r

/-- `send` of a thread that is in no other call. -/
def Sender.send (s : Sender τ) (t : τ) (b : List UInt8) (r : Written) : Option (Sender τ) :=
  if s.calls t = none then { s with waiters := s.waiters + 1 }.enter t b r else none

def Sender.sendResumes (s : Sender τ) (t : τ) (r : Written) : Option (Sender τ) :=
  match s.calls t with
  | some ⟨b, .waits⟩ =>
      (s.sendWait.resume t).bind fun c => ({ s with sendWait := c }.setCall t none).enter t b r
  | _ => none

def Sender.completeResumes (s : Sender τ) (t : τ) : Option (Sender τ) :=
  match s.calls t with
  | some ⟨b, .completes⟩ =>
      (s.sendComplete.resume t).map fun c =>
        ({ s with sendComplete := c }.setCall t none).complete t b
  | _ => none

def Sender.removeReturns (s : Sender τ) (t : τ) : Option (Sender τ) :=
  match s.calls t with
  | some ⟨b, .removes⟩ => some ((s.setCall t none).finish b)
  | _ => none

/-- The signal at `send_complete_`; `pick` is the thread that wakes, if one sleeps. -/
def Sender.signalComplete (s : Sender τ) (pick : τ) : Option (Sender τ) :=
  (s.sendComplete.signal pick).map fun c => { s with sendComplete := c }

/-- After a write of `write_cb`. -/
def Sender.wrote (s : Sender τ) (ok : Bool) (pick : τ) : Option (Sender τ) :=
  if !ok then { s with watched := false, senderDead := true }.signalComplete pick
  else if s.wpdu.solong < 0 then none
  else if s.wpdu.solong < s.wpdu.sz then some s
  else s.signalComplete pick

/-- The poll thread may call `write_cb` at any time.  It must not find a dead connection. -/
def Sender.writeCb (s : Sender τ) (r : Written) (pick : τ) : Option (Sender τ) :=
  if s.senderDead then none
  else if s.wpdu.sz = 0 then some { s with watched := false }
  else (s.writepdu r).bind fun x => x.2.wrote x.1 pick

/-- `read_cb` of the sending end, when `readpdu` fails. -/
def Sender.readFails (s : Sender τ) (pick : τ) : Option (Sender τ) :=
  if s.senderDead then some s
  else { s with watched := false, senderDead := true }.signalComplete pick

/-- `closeconn` wakes nobody.  The callbacks are gone a little later, and a `write_cb` in between
    ends the process. -/
def Sender.closeconn (s : Sender τ) : Sender τ :=
  if s.senderDead then s else { s with senderDead := true, watched := false }

inductive SendAction (τ : Type) where
  | send (t : τ) (b : List UInt8) (r : Written)
  | sendResumes (t : τ) (r : Written)
  | sendWakes (t : τ)
  | completeResumes (t : τ)
  | completeWakes (t : τ)
  | removeReturns (t : τ)
  | writeCb (r : Written) (pick : τ)
  | readFails (pick : τ)
  | closeconn
  | readCb (size body : Received) (takes : Bool)
  | receiverDies

def Sender.step (s : Sender τ) : SendAction τ → Option (Sender τ)
  | .send t b r => s.send t b r
  | .sendResumes t r => s.sendResumes t r
  | .sendWakes t => (s.sendWait.wake t).map fun c => { s with sendWait := c }
  | .completeResumes t => s.completeResumes t
  | .completeWakes t => (s.sendComplete.wake t).map fun c => { s with sendComplete := c }
  | .removeReturns t => s.removeReturns t
  | .writeCb r pick => s.writeCb r pick
  | .readFails pick => s.readFails pick
  | .closeconn => some s.closeconn
  | .readCb size body takes => (s.toLink.readCb size body takes).map fun l => { s with toLink := l }
  | .receiverDies => some { s with receiverDead := true }

def senders (τ : Type) [DecidableEq τ] : System (Sender τ) (SendAction τ) where
  init s := s = .new
  step := Sender.step

/-- The sizes of the PDUs, as for a link. -/
def SizedSend (_ : Sender τ) : SendAction τ → Prop
  | .send _ b _ => rpcHeaderSz ≤ b.length ∧ b.length ≤ maxPdu
  | _ => True

instance (s : Sender τ) : (action : SendAction τ) → Decidable (SizedSend s action)
  | .send _ _ _ => inferInstanceAs (Decidable (_ ∧ _))
  | .sendResumes _ _ | .sendWakes _ | .completeResumes _ | .completeWakes _ | .removeReturns _
  | .writeCb _ _ | .readFails _ | .closeconn | .readCb _ _ _ | .receiverDies =>
      inferInstanceAs (Decidable True)

/-- The buffers of the calls that have returned true. -/
def Sender.succeeded (s : Sender τ) : List (List UInt8) := (s.returned.filter (·.2)).map (·.1)

/-! ### What a write leaves in the buffer -/

/-- The PDU in a buffer, as it goes to the stream. -/
def Charbuf.pdu (w : Charbuf) : List UInt8 :=
  match w.buf with
  | none => []
  | some b => stamped b

/-- The part of it that has been written. -/
def Charbuf.done (w : Charbuf) : List UInt8 := w.pdu.take w.solong.toNat

theorem Charbuf.done_append_remaining (w : Charbuf) : w.done ++ w.remaining = w.pdu := by
  unfold Charbuf.done Charbuf.remaining Charbuf.pdu
  cases w.buf with
  | none => simp
  | some b => exact List.take_append_drop _ _

theorem writepdu_keeps_buf {w w' : Charbuf} {r : Written} {ok : Bool} {bytes : List UInt8}
    (hw : writepdu w r = some (ok, w', bytes)) : w'.buf = none ↔ w.buf = none := by
  rcases hb : w.buf with _ | b
  · simp only [writepdu, hb] at hw
    split at hw
    · cases hw
    · split at hw
      · cases hw
        exact iff_of_true hb rfl
      · cases hw
  · simp only [writepdu, hb] at hw
    split at hw
    · cases hw
    · split at hw
      · cases hw
        simp [hb]
      · cases r <;> cases hw <;> simp

theorem writepdu_keeps_pdu {w w' : Charbuf} {r : Written} {ok : Bool} {bytes : List UInt8}
    (h : w.Sending) (hw : writepdu w r = some (ok, w', bytes)) (hok : ok = true) :
    w'.pdu = w.pdu := by
  subst hok
  cases h with
  | idle =>
      simp only [writepdu, Charbuf.empty] at hw
      cases hw
      rfl
  | @busy b k hfour hmax hk hstamped =>
      have hbuf : (if (k : Int) = 0 then stamp b.length b else b) = stamped b := by
        split_ifs with hzero
        · rfl
        · exact (hstamped (by omega)).symm
      simp only [writepdu, hbuf] at hw
      split_ifs at hw with hneg hdone
      · cases hw
        rfl
      · cases r with
        | failed => cases hw
        | again =>
            cases hw
            exact stamped_stamped hfour
        | wrote n =>
            cases hw
            exact stamped_stamped hfour

/-- A successful write adds to what has been written. -/
theorem writepdu_done {w w' : Charbuf} {r : Written} {bytes : List UInt8}
    (h : w.Sending) (hw : writepdu w r = some (true, w', bytes)) : w'.done = w.done ++ bytes := by
  rcases writepdu_cases h hw with ⟨-, -, hbytes⟩ | ⟨hfailed, -⟩
  · have hpdu := writepdu_keeps_pdu h hw rfl
    rw [← w'.done_append_remaining, ← w.done_append_remaining, ← hbytes,
      ← List.append_assoc] at hpdu
    exact List.append_cancel_right hpdu
  · cases hfailed

theorem Charbuf.Sending.bounds {w : Charbuf} (h : w.Sending) : 0 ≤ w.solong ∧ w.solong ≤ w.sz := by
  cases h with
  | idle => exact ⟨Int.le_refl 0, Int.le_refl 0⟩
  | busy hfour hmax hk hstamped => exact ⟨Int.natCast_nonneg _, Int.ofNat_le.mpr hk⟩

/-! ### The invariant -/

/-- What the thread that has `m_` is doing: it is counted in `waiters_` and has not got past
    `send_wait_`, or it uses `wpdu_` for its PDU. -/
inductive Running where
  | nobody
  | entering
  | sending (b : List UInt8)

def Running.entered : Running → Nat
  | .entering => 1
  | _ => 0

def Sender.stageOf (s : Sender τ) (t : τ) : Option SendStage := (s.calls t).map SendCall.stage

/-- The call of the thread uses `wpdu_`. -/
def Sender.Uses (s : Sender τ) (t : τ) : Prop := ∃ call, s.calls t = some call ∧ call.stage ≠ .waits

/-- The PDU that `wpdu_` is used for. -/
def Sender.Sends (s : Sender τ) (run : Running) (b : List UInt8) : Prop :=
  run = .sending b ∨ ∃ t stage, s.calls t = some ⟨b, stage⟩ ∧ stage ≠ .waits

/-- The calls that return true are the first ones past `send_wait_`.  Their PDUs have been written
    one after the other, and then at most a part of the next one. -/
structure Sender.Ordered (s : Sender τ) (run : Running) (rest : List (List UInt8))
    (part : List UInt8) : Prop where
  passed : s.passed = s.succeeded ++ rest
  written : s.written = (s.succeeded.map stamped).flatten ++ part
  part_prefix : part <+: (rest.map stamped).headD []
  alive : s.senderDead = false → part = s.wpdu.done
  free : s.senderDead = false → s.wpdu.buf = none → rest = []
  sends : ∀ b, s.senderDead = false → s.Sends run b → rest = [b] ∧ s.wpdu.pdu = stamped b

structure Sender.Inv (s : Sender τ) (run : Running) : Prop where
  waits : ∀ t, s.sendWait.count t = if s.stageOf t = some .waits then 1 else 0
  completes : ∀ t, s.sendComplete.count t = if s.stageOf t = some .completes then 1 else 0
  waiters : s.waiters = (s.sendWait.waiting.length + s.sendWait.woken.length + run.entered : Nat)
  exclusive : ∀ t t', s.Uses t → s.Uses t' → t = t'
  running : ∀ b, run = .sending b → ∀ t, ¬ s.Uses t
  used : s.wpdu.buf ≠ none ↔ ∃ b, s.Sends run b
  removes : ∀ t, s.stageOf t = some .removes → s.senderDead = true
  sized : ∀ t call, s.calls t = some call → rpcHeaderSz ≤ call.b.length ∧ call.b.length ≤ maxPdu
  sending : s.senderDead = false → s.wpdu.Sending
  /-- Whoever sleeps at `send_wait_` will be woken by the call that uses `wpdu_`. -/
  asleep : s.sendWait.waiting ≠ [] → s.wpdu.buf ≠ none
  ordered : ∃ rest part, s.Ordered run rest part

theorem Sender.inv_new : (Sender.new : Sender τ).Inv .nobody where
  waits _ := rfl
  completes _ := rfl
  waiters := rfl
  exclusive := by
    rintro t t' ⟨call, hcall, -⟩
    cases hcall
  running := by
    intro b hrun
    cases hrun
  used := by
    refine iff_of_false (fun h => h rfl) ?_
    rintro ⟨b, hrun | ⟨t, stage, hcall, -⟩⟩
    · cases hrun
    · cases hcall
  removes := by
    intro t hstage
    cases hstage
  sized := by
    intro t call hcall
    cases hcall
  sending _ := .idle
  asleep h := absurd rfl h
  ordered := by
    refine ⟨[], [], rfl, rfl, List.prefix_rfl, fun _ => rfl, fun _ _ => rfl, ?_⟩
    rintro b - (hrun | ⟨t, stage, hcall, -⟩)
    · cases hrun
    · cases hcall

section Facts

variable {s : Sender τ} {t : τ} {b : List UInt8} {run : Running}

theorem Sender.calls_setCall_self (call : Option SendCall) : (s.setCall t call).calls t = call :=
  Function.update_self ..

theorem Sender.calls_setCall_of_ne {x : τ} (call : Option SendCall) (hx : x ≠ t) :
    (s.setCall t call).calls x = s.calls x := Function.update_of_ne hx ..

theorem Sender.stageOf_setCall (call : Option SendCall) (x : τ) :
    (s.setCall t call).stageOf x = if x = t then call.map SendCall.stage else s.stageOf x := by
  unfold Sender.stageOf
  split
  · next hx => rw [hx, Sender.calls_setCall_self]
  · next hx => rw [Sender.calls_setCall_of_ne call hx]

theorem Sender.stageOf_eq {τ : Type} {s : Sender τ} {t : τ} {call : SendCall}
    (h : s.calls t = some call) :
    s.stageOf t = some call.stage := by
  rw [Sender.stageOf, h]
  rfl

theorem Sender.uses_iff_sends {τ : Type} {s : Sender τ} :
    (∃ x, s.Uses x) ↔ ∃ b, s.Sends .nobody b := by
  constructor
  · rintro ⟨x, ⟨b, stage⟩, hcall, hstage⟩
    exact ⟨b, .inr ⟨x, stage, hcall, hstage⟩⟩
  · rintro ⟨b, hrun | ⟨x, stage, hcall, hstage⟩⟩
    · cases hrun
    · exact ⟨x, _, hcall, hstage⟩

theorem Sender.Inv.not_uses (hs : s.Inv run) (hfree : s.wpdu.buf = none) (x : τ) : ¬ s.Uses x := by
  rintro ⟨⟨b, stage⟩, hcall, hstage⟩
  exact hs.used.mpr ⟨b, .inr ⟨x, stage, hcall, hstage⟩⟩ hfree

/-- The thread that runs uses `wpdu_` itself. -/
theorem Sender.Inv.eq_of_sends (hs : s.Inv (.sending b)) {b' : List UInt8}
    (h : s.Sends (.sending b) b') : b' = b := by
  rcases h with hrun | ⟨x, stage, hcall, hstage⟩
  · cases hrun
    rfl
  · exact absurd ⟨_, hcall, hstage⟩ (hs.running b rfl x)

/-- A call that only waits for `wpdu_` does not count. -/
theorem Sender.uses_setCall {call : Option SendCall} (h : ¬ s.Uses t)
    (hcall : ∀ c, call = some c → c.stage = .waits) (x : τ) :
    (s.setCall t call).Uses x ↔ s.Uses x := by
  by_cases hx : x = t
  · subst hx
    refine iff_of_false ?_ h
    rintro ⟨c, hc, hstage⟩
    rw [Sender.calls_setCall_self] at hc
    exact hstage (hcall c hc)
  · unfold Sender.Uses
    rw [Sender.calls_setCall_of_ne call hx]

theorem Sender.sends_setCall {call : Option SendCall} (h : ¬ s.Uses t)
    (hcall : ∀ c, call = some c → c.stage = .waits) (b : List UInt8) :
    (s.setCall t call).Sends run b ↔ s.Sends run b := by
  refine or_congr_right (exists_congr fun x => exists_congr fun stage => ?_)
  by_cases hx : x = t
  · subst hx
    rw [Sender.calls_setCall_self]
    refine iff_of_false ?_ fun hold => h ⟨_, hold⟩
    rintro ⟨hc, hstage⟩
    exact hstage (hcall _ hc)
  · rw [Sender.calls_setCall_of_ne call hx]

/-- The threads at a condition variable are those with a call at that stage, if this is so for the
    thread whose call changes. -/
theorem Sender.counts_setCall {call : Option SendCall} {stage : SendStage} {c d : Cond τ}
    (h : ∀ x, c.count x = if s.stageOf x = some stage then 1 else 0)
    (hothers : ∀ x, x ≠ t → d.count x = c.count x)
    (hself : d.count t = if call.map SendCall.stage = some stage then 1 else 0) (x : τ) :
    d.count x = if (s.setCall t call).stageOf x = some stage then 1 else 0 := by
  rw [Sender.stageOf_setCall]
  by_cases hx : x = t
  · rw [if_pos hx, hx]
    exact hself
  · rw [if_neg hx, hothers x hx]
    exact h x

theorem Sender.Inv.removes_setCall (hs : s.Inv run) {call : Option SendCall}
    (hcall : call.map SendCall.stage = some .removes → s.senderDead = true) (x : τ)
    (hx : (s.setCall t call).stageOf x = some .removes) : s.senderDead = true := by
  rw [Sender.stageOf_setCall] at hx
  split at hx
  · exact hcall hx
  · exact hs.removes x hx

theorem Sender.Inv.sized_setCall (hs : s.Inv run) {call : Option SendCall}
    (hcall : ∀ c, call = some c → rpcHeaderSz ≤ c.b.length ∧ c.b.length ≤ maxPdu) (x : τ)
    (c : SendCall) (hx : (s.setCall t call).calls x = some c) :
    rpcHeaderSz ≤ c.b.length ∧ c.b.length ≤ maxPdu := by
  by_cases heq : x = t
  · rw [heq, Sender.calls_setCall_self] at hx
    exact hcall c hx
  · rw [Sender.calls_setCall_of_ne _ heq] at hx
    exact hs.sized x c hx

end Facts

/-! ### The parts of a step -/

section Parts

variable {s s' : Sender τ} {t : τ} {b : List UInt8} {run run' : Running}

theorem Sender.Ordered.congr {τ : Type} {s s' : Sender τ} {rest : List (List UInt8)}
    {part : List UInt8} (h : s.Ordered run rest part) (hlink : s'.toLink = s.toLink)
    (hwritten : s'.written = s.written)
    (hreturned : s'.returned = s.returned) (hsends : ∀ b, s'.Sends run' b ↔ s.Sends run b) :
    s'.Ordered run' rest part := by
  have hsucceeded : s'.succeeded = s.succeeded := by rw [Sender.succeeded, hreturned]; rfl
  constructor
  · rw [hsucceeded, hlink]
    exact h.passed
  · rw [hsucceeded, hwritten]
    exact h.written
  · exact h.part_prefix
  · rw [hlink]
    exact h.alive
  · rw [hlink]
    exact h.free
  · intro b
    rw [hlink, hsends]
    exact h.sends b

/-- The calls move on, and nothing else changes.  The call that uses `wpdu_` may give `m_` up or get
    it back. -/
theorem Sender.Inv.moves (hs : s.Inv run) (hlink : s'.toLink = s.toLink)
    (hwritten : s'.written = s.written) (hreturned : s'.returned = s.returned)
    (hsends : ∀ b, s'.Sends run' b ↔ s.Sends run b)
    (hwaits : ∀ t, s'.sendWait.count t = if s'.stageOf t = some .waits then 1 else 0)
    (hcompletes : ∀ t, s'.sendComplete.count t = if s'.stageOf t = some .completes then 1 else 0)
    (hwaiters : s'.waiters =
      (s'.sendWait.waiting.length + s'.sendWait.woken.length + run'.entered : Nat))
    (hexclusive : ∀ t t', s'.Uses t → s'.Uses t' → t = t')
    (hrunning : ∀ b, run' = .sending b → ∀ t, ¬ s'.Uses t)
    (hremoves : ∀ t, s'.stageOf t = some .removes → s.senderDead = true)
    (hsized : ∀ t call, s'.calls t = some call →
      rpcHeaderSz ≤ call.b.length ∧ call.b.length ≤ maxPdu)
    (hasleep : s'.sendWait.waiting ≠ [] → s.wpdu.buf ≠ none) : s'.Inv run' where
  waits := hwaits
  completes := hcompletes
  waiters := hwaiters
  exclusive := hexclusive
  running := hrunning
  used := by
    rw [hlink, hs.used]
    exact exists_congr fun b => (hsends b).symm
  removes t h := by
    rw [hlink]
    exact hremoves t h
  sized := hsized
  sending := by
    rw [hlink]
    exact hs.sending
  asleep := by
    rw [hlink]
    exact hasleep
  ordered := by
    obtain ⟨rest, part, h⟩ := hs.ordered
    exact ⟨rest, part, h.congr hlink hwritten hreturned hsends⟩

/-- A thread calls `send` and has `m_`. -/
theorem Sender.Inv.calls (hs : s.Inv .nobody) :
    { s with waiters := s.waiters + 1 }.Inv .entering := by
  refine hs.moves rfl rfl rfl ?_ hs.waits hs.completes ?_ hs.exclusive ?_ hs.removes hs.sized
    hs.asleep
  · refine fun b => or_congr_left ⟨?_, ?_⟩ <;> intro hrun <;> cases hrun
  · show s.waiters + 1 = _
    rw [hs.waiters]
    rfl
  · intro b hrun
    cases hrun

/-- It finds `wpdu_` in use. -/
theorem Sender.Inv.waitsFor (hs : s.Inv .entering) (hcall : s.calls t = none)
    (hbusy : s.wpdu.buf ≠ none) (hb : rpcHeaderSz ≤ b.length ∧ b.length ≤ maxPdu) :
    ({ s with sendWait := s.sendWait.wait t }.setCall t (some ⟨b, .waits⟩)).Inv .nobody := by
  have hidle : ¬ { s with sendWait := s.sendWait.wait t }.Uses t := by
    rintro ⟨c, hc, -⟩
    cases hcall.symm.trans hc
  have hstage : s.stageOf t = none := by rw [Sender.stageOf, hcall]; rfl
  have hwaits : ∀ c, some (⟨b, .waits⟩ : SendCall) = some c → c.stage = .waits := by
    intro c hc
    cases hc
    rfl
  refine hs.moves rfl rfl rfl ?_ (Sender.counts_setCall hs.waits ?_ ?_)
    (Sender.counts_setCall hs.completes (fun _ _ => rfl) ?_) ?_ ?_ ?_ (hs.removes_setCall ?_)
    (hs.sized_setCall ?_) fun _ => hbusy
  · intro b'
    rw [Sender.sends_setCall hidle hwaits]
    refine or_congr_left ⟨?_, ?_⟩ <;> intro hrun <;> cases hrun
  · intro x hx
    exact (Cond.count_wait x).trans (by rw [if_neg hx.symm, Nat.add_zero])
  · refine (Cond.count_wait t).trans ?_
    rw [hs.waits t, hstage]
    simp
  · refine (hs.completes t).trans ?_
    rw [hstage]
    simp
  · show s.waiters = _
    rw [hs.waiters]
    simp only [Sender.setCall, Cond.wait, List.length_cons, Running.entered]
    omega
  · intro x y hx hy
    rw [Sender.uses_setCall hidle hwaits] at hx hy
    exact hs.exclusive x y hx hy
  · intro b' hrun
    cases hrun
  · intro hremoves
    cases hremoves
  · intro c hc
    cases hc
    exact hb

/-- A call that has waited for `wpdu_` has `m_` again. -/
theorem Sender.Inv.resumes {c : Cond τ} (hs : s.Inv .nobody) (hcall : s.calls t = some ⟨b, .waits⟩)
    (hresume : s.sendWait.resume t = some c) :
    ({ s with sendWait := c }.setCall t none).Inv .entering := by
  have hidle : ¬ { s with sendWait := c }.Uses t := by
    rintro ⟨call, hc, hstage⟩
    cases hcall.symm.trans hc
    exact hstage rfl
  have hstage : s.stageOf t = some .waits := Sender.stageOf_eq hcall
  have hnone : ∀ c, (none : Option SendCall) = some c → c.stage = .waits := by
    intro c hc
    cases hc
  obtain ⟨-, hwaiting, -⟩ := Cond.resume_subset hresume
  refine hs.moves rfl rfl rfl ?_ (Sender.counts_setCall hs.waits ?_ ?_)
    (Sender.counts_setCall hs.completes (fun _ _ => rfl) ?_) ?_ ?_ ?_ (hs.removes_setCall ?_)
    (hs.sized_setCall ?_) ?_
  · intro b'
    rw [Sender.sends_setCall hidle hnone]
    refine or_congr_left ⟨?_, ?_⟩ <;> intro hrun <;> cases hrun
  · intro x hx
    have hcount := Cond.count_resume x hresume
    rw [if_neg hx.symm] at hcount
    exact hcount.symm
  · have hcount := Cond.count_resume t hresume
    rw [hs.waits t, hstage, if_pos rfl, if_pos rfl] at hcount
    exact (Nat.succ.inj ((Nat.zero_add 1).trans hcount)).symm
  · refine (hs.completes t).trans ?_
    rw [hstage]
    simp
  · show s.waiters = _
    have hwoken := Cond.woken_resume hresume
    rw [hs.waiters]
    simp only [Sender.setCall, Running.entered, hwaiting]
    omega
  · intro x y hx hy
    rw [Sender.uses_setCall hidle hnone] at hx hy
    exact hs.exclusive x y hx hy
  · intro b' hrun
    cases hrun
  · intro hremoves
    cases hremoves
  · intro c hc
    cases hc
  · intro hne
    exact hs.asleep (hwaiting ▸ hne)

/-- The call that uses `wpdu_` gives `m_` up. -/
theorem Sender.Inv.leaves {stage : SendStage} {c : Cond τ} (hs : s.Inv (.sending b))
    (hcall : s.calls t = none) (hstage : stage ≠ .waits)
    (hb : rpcHeaderSz ≤ b.length ∧ b.length ≤ maxPdu)
    (hc : ∀ x, x ≠ t → c.count x = s.sendComplete.count x)
    (hself : c.count t = if stage = .completes then 1 else 0)
    (hdead : stage = .removes → s.senderDead = true) :
    ({ s with sendComplete := c }.setCall t (some ⟨b, stage⟩)).Inv .nobody := by
  have huses : ∀ x, ({ s with sendComplete := c }.setCall t (some ⟨b, stage⟩)).Uses x → x = t := by
    rintro x ⟨call, hx, hne⟩
    by_contra hxt
    rw [Sender.calls_setCall_of_ne _ hxt] at hx
    exact hs.running b rfl x ⟨call, hx, hne⟩
  refine hs.moves rfl rfl rfl ?_ (Sender.counts_setCall hs.waits (fun _ _ => rfl) ?_)
    (Sender.counts_setCall hs.completes hc ?_) ?_ ?_ ?_ (hs.removes_setCall ?_)
    (hs.sized_setCall ?_) hs.asleep
  · intro b'
    constructor
    · rintro (hrun | ⟨x, stage', hx, hne⟩)
      · cases hrun
      · obtain rfl := huses x ⟨_, hx, hne⟩
        rw [Sender.calls_setCall_self] at hx
        cases hx
        exact .inl rfl
    · intro hsends
      obtain rfl := hs.eq_of_sends hsends
      exact .inr ⟨t, stage, Sender.calls_setCall_self _, hstage⟩
  · refine (hs.waits t).trans ?_
    rw [Sender.stageOf, hcall]
    simp [hstage]
  · refine hself.trans ?_
    simp
  · exact hs.waiters
  · intro x y hx hy
    rw [huses x hx, huses y hy]
  · intro b' hrun
    cases hrun
  · intro hremoves
    exact hdead (Option.some.inj hremoves)
  · intro call hcall
    cases hcall
    exact hb

/-- The call that uses `wpdu_` has `m_` again. -/
theorem Sender.Inv.takes {stage : SendStage} {c : Cond τ} (hs : s.Inv .nobody)
    (hcall : s.calls t = some ⟨b, stage⟩) (hstage : stage ≠ .waits)
    (hc : ∀ x, s.sendComplete.count x = c.count x + if t = x ∧ stage = .completes then 1 else 0) :
    ({ s with sendComplete := c }.setCall t none).Inv (.sending b) := by
  have hidle : ∀ x, ¬ ({ s with sendComplete := c }.setCall t none).Uses x := by
    rintro x ⟨call, hx, hne⟩
    by_cases hxt : x = t
    · rw [hxt, Sender.calls_setCall_self] at hx
      cases hx
    · rw [Sender.calls_setCall_of_ne _ hxt] at hx
      exact hxt (hs.exclusive x t ⟨call, hx, hne⟩ ⟨_, hcall, hstage⟩)
  refine hs.moves rfl rfl rfl ?_ (Sender.counts_setCall hs.waits (fun _ _ => rfl) ?_)
    (Sender.counts_setCall hs.completes ?_ ?_) hs.waiters ?_ (fun _ _ => hidle)
    (hs.removes_setCall ?_) (hs.sized_setCall ?_) hs.asleep
  · intro b'
    constructor
    · rintro (hrun | ⟨x, stage', hx, hne⟩)
      · cases hrun
        exact .inr ⟨t, stage, hcall, hstage⟩
      · exact absurd ⟨_, hx, hne⟩ (hidle x)
    · rintro (hrun | ⟨x, stage', hx, hne⟩)
      · cases hrun
      · obtain rfl := hs.exclusive x t ⟨_, hx, hne⟩ ⟨_, hcall, hstage⟩
        cases hcall.symm.trans hx
        exact .inl rfl
  · refine (hs.waits t).trans ?_
    rw [Sender.stageOf_eq hcall]
    simp [hstage]
  · intro x hx
    refine ((hc x).trans ?_).symm
    rw [if_neg fun h => hx h.1.symm]
    rfl
  · have hcount := hc t
    rw [hs.completes t, Sender.stageOf_eq hcall] at hcount
    simp only [Option.some.injEq, true_and] at hcount
    show c.count t = 0
    omega
  · intro x y hx
    exact absurd hx (hidle x)
  · intro hremoves
    cases hremoves
  · intro call hnone
    cases hnone

/-- Threads at `send_complete_` wake. -/
theorem Sender.Inv.completeWakes {c : Cond τ} (hs : s.Inv run)
    (hc : ∀ x, c.count x = s.sendComplete.count x) : { s with sendComplete := c }.Inv run :=
  hs.moves rfl rfl rfl (fun _ => Iff.rfl) hs.waits (fun x => (hc x).trans (hs.completes x))
    hs.waiters hs.exclusive hs.running hs.removes hs.sized hs.asleep

/-- A thread at `send_wait_` wakes by itself. -/
theorem Sender.Inv.sendWakes {c : Cond τ} (hs : s.Inv run) (hwake : s.sendWait.wake t = some c) :
    { s with sendWait := c }.Inv run := by
  have hcount := fun x => Cond.count_wake x hwake
  obtain ⟨hmem, rfl⟩ := Cond.wake_eq hwake
  refine hs.moves rfl rfl rfl (fun _ => Iff.rfl) (fun x => (hcount x).trans (hs.waits x))
    hs.completes ?_ hs.exclusive hs.running hs.removes hs.sized
    fun _ => hs.asleep (List.ne_nil_of_mem hmem)
  show s.waiters = _
  have hpos := List.length_pos_of_mem hmem
  rw [hs.waiters, List.length_erase_of_mem hmem, List.length_cons]
  omega

/-- A connection that is dead refuses the call. -/
theorem Sender.Inv.refuses (hs : s.Inv .entering) (hdead : s.senderDead = true) :
    { s with
      waiters := s.waiters - 1
      passed := s.passed ++ [b]
      returned := s.returned ++ [(b, false)] }.Inv .nobody where
  waits := hs.waits
  completes := hs.completes
  waiters := by
    show s.waiters - 1 = _
    rw [hs.waiters]
    simp only [Running.entered]
    omega
  exclusive := hs.exclusive
  running := by
    intro b hrun
    cases hrun
  used := by
    refine hs.used.trans (exists_congr fun b => or_congr_left ⟨?_, ?_⟩) <;>
      · intro hrun
        cases hrun
  removes := hs.removes
  sized := hs.sized
  sending := hs.sending
  asleep := hs.asleep
  ordered := by
    obtain ⟨rest, part, h⟩ := hs.ordered
    have hsucceeded : { s with
        waiters := s.waiters - 1
        passed := s.passed ++ [b]
        returned := s.returned ++ [(b, false)] }.succeeded = s.succeeded := by
      simp [Sender.succeeded]
    refine ⟨rest ++ [b], part, ?_, ?_, ?_, ?_, ?_, ?_⟩
    · rw [hsucceeded, ← List.append_assoc, ← h.passed]
    · rw [hsucceeded]
      exact h.written
    · have hpart := h.part_prefix
      rcases rest with _ | ⟨first, rest⟩
      · rw [List.prefix_nil.mp hpart]
        exact List.nil_prefix
      · exact hpart
    all_goals
      intros
      simp_all

/-- A buffer is put into `wpdu_`. -/
theorem Sender.Inv.begins (hs : s.Inv .entering) (halive : s.senderDead = false)
    (hfree : s.wpdu.buf = none) (hb : rpcHeaderSz ≤ b.length ∧ b.length ≤ maxPdu) :
    { s with
      waiters := s.waiters - 1
      passed := s.passed ++ [b]
      wpdu := ⟨some b, b.length, 0⟩ }.Inv (.sending b) where
  waits := hs.waits
  completes := hs.completes
  waiters := by
    show s.waiters - 1 = _
    rw [hs.waiters]
    simp only [Running.entered]
    omega
  exclusive := hs.exclusive
  running _ _ := hs.not_uses hfree
  used := iff_of_true (by simp) ⟨b, .inl rfl⟩
  removes := hs.removes
  sized := hs.sized
  sending _ := .busy (Nat.le_trans (by decide) hb.1) hb.2 (Nat.zero_le _)
    fun hpos => absurd hpos (Nat.lt_irrefl 0)
  asleep _ := by simp
  ordered := by
    obtain ⟨rest, part, h⟩ := hs.ordered
    obtain rfl := h.free halive hfree
    obtain rfl := List.prefix_nil.mp h.part_prefix
    refine ⟨[b], [], ?_, h.written, List.nil_prefix, fun _ => rfl, ?_, ?_⟩
    · show s.passed ++ [b] = s.succeeded ++ [b]
      rw [h.passed, List.append_nil]
    · intro _ hnone
      cases hnone
    · rintro b' - (hrun | ⟨x, stage, hcall, hstage⟩)
      · cases hrun
        exact ⟨rfl, rfl⟩
      · exact absurd ⟨_, hcall, hstage⟩ (hs.not_uses hfree x)

/-- Bytes of the PDU go to the stream. -/
theorem Sender.Inv.writes {r : Written} {w : Charbuf} {bytes : List UInt8} (hs : s.Inv run)
    (halive : s.senderDead = false) (hw : Channel.writepdu s.wpdu r = some (true, w, bytes)) :
    { s with wpdu := w, wire := s.wire ++ bytes, written := s.written ++ bytes }.Inv run where
  waits := hs.waits
  completes := hs.completes
  waiters := hs.waiters
  exclusive := hs.exclusive
  running := hs.running
  used := (not_congr (writepdu_keeps_buf hw)).trans hs.used
  removes := hs.removes
  sized := hs.sized
  sending _ := by
    rcases writepdu_cases (hs.sending halive) hw with ⟨-, hsending, -⟩ | ⟨hfailed, -⟩
    · exact hsending
    · cases hfailed
  asleep hne := (not_congr (writepdu_keeps_buf hw)).mpr (hs.asleep hne)
  ordered := by
    have hsending := hs.sending halive
    have hpdu := writepdu_keeps_pdu hsending hw rfl
    have hdone := writepdu_done hsending hw
    obtain ⟨rest, part, h⟩ := hs.ordered
    obtain rfl := h.alive halive
    refine ⟨rest, w.done, h.passed, ?_, ?_, fun _ => rfl, ?_, ?_⟩
    · show s.written ++ bytes = (s.succeeded.map stamped).flatten ++ w.done
      rw [hdone, h.written, List.append_assoc]
    · by_cases hbusy : s.wpdu.buf = none
      · have hnone : w.buf = none := (writepdu_keeps_buf hw).mpr hbusy
        rw [Charbuf.done, Charbuf.pdu, hnone, List.take_nil]
        exact List.nil_prefix
      · obtain ⟨b, hb⟩ := hs.used.mp hbusy
        obtain ⟨rfl, hstamped⟩ := h.sends b halive hb
        show w.pdu.take _ <+: stamped b
        rw [hpdu, hstamped]
        exact List.take_prefix _ _
    · intro _ hnone
      exact h.free halive ((writepdu_keeps_buf hw).mp hnone)
    · intro b _ hb
      obtain ⟨hrest, hstamped⟩ := h.sends b halive hb
      exact ⟨hrest, hpdu.trans hstamped⟩

theorem Sender.Inv.dies (hs : s.Inv run) : { s with senderDead := true }.Inv run where
  waits := hs.waits
  completes := hs.completes
  waiters := hs.waiters
  exclusive := hs.exclusive
  running := hs.running
  used := hs.used
  removes _ _ := rfl
  sized := hs.sized
  sending hdead := by cases hdead
  asleep := hs.asleep
  ordered := by
    obtain ⟨rest, part, h⟩ := hs.ordered
    refine ⟨rest, part, h.passed, h.written, h.part_prefix, ?_, ?_, ?_⟩ <;>
      · intros
        contradiction

/-- A write fails.  What has been written of the PDU stays in the stream. -/
theorem Sender.Inv.fails {r : Written} {w : Charbuf} {bytes : List UInt8} (hs : s.Inv run)
    (halive : s.senderDead = false) (hw : Channel.writepdu s.wpdu r = some (false, w, bytes)) :
    { s with
      senderDead := true
      wpdu := w
      wire := s.wire ++ bytes
      written := s.written ++ bytes }.Inv run := by
  rcases writepdu_cases (hs.sending halive) hw with ⟨hok, -⟩ | ⟨-, rfl⟩
  · cases hok
  · rw [List.append_nil, List.append_nil]
    have hdead := hs.dies
    obtain ⟨rest, part, h⟩ := hdead.ordered
    refine ⟨hs.waits, hs.completes, hs.waiters, hs.exclusive, hs.running,
      (not_congr (writepdu_keeps_buf hw)).trans hs.used, hdead.removes, hs.sized, ?_,
      fun hne => (not_congr (writepdu_keeps_buf hw)).mpr (hs.asleep hne),
      rest, part, h.passed, h.written, h.part_prefix, ?_, ?_, ?_⟩ <;>
      · intros
        contradiction

theorem Sender.succeeded_finish {τ : Type} {s : Sender τ} : (s.finish b).succeeded =
    s.succeeded ++ if s.senderDead = false ∧ s.wpdu.solong = s.wpdu.sz then [b] else [] := by
  simp only [Sender.succeeded, Sender.finish, List.filter_append, List.map_append]
  cases s.senderDead <;> by_cases heq : s.wpdu.solong = s.wpdu.sz <;> simp [heq]

/-- The call that has used `wpdu_` returns. -/
theorem Sender.Inv.finish (hs : s.Inv (.sending b))
    (hdone : s.senderDead = false → s.wpdu.sz ≤ s.wpdu.solong) : (s.finish b).Inv .nobody where
  waits x := by
    refine Eq.trans ?_ (hs.waits x)
    show (if s.waiters > 0 then s.sendWait.broadcast else s.sendWait).count x = _
    split
    · exact Cond.count_broadcast x
    · rfl
  completes := hs.completes
  waiters := by
    show s.waiters = _
    rw [hs.waiters]
    simp only [Sender.finish, Running.entered]
    split
    · simp only [Cond.broadcast, List.length_append, List.length_nil]
      omega
    · rfl
  exclusive := hs.exclusive
  running := by
    intro b hrun
    cases hrun
  used := by
    refine iff_of_false (fun h => h rfl) ?_
    rintro ⟨b', hrun | ⟨x, stage, hcall, hstage⟩⟩
    · cases hrun
    · exact hs.running b rfl x ⟨_, hcall, hstage⟩
  removes := hs.removes
  sized := hs.sized
  sending _ := .idle
  asleep hne := by
    -- all who wait are counted, and so they are awake now
    refine absurd ?_ hne
    show (if s.waiters > 0 then s.sendWait.broadcast else s.sendWait).waiting = []
    have hwaiters := hs.waiters
    split
    · rfl
    · apply List.length_eq_zero_iff.mp
      omega
  ordered := by
    obtain ⟨rest, part, h⟩ := hs.ordered
    have hnobody : ∀ b', ¬ (s.finish b).Sends .nobody b' := by
      rintro b' (hrun | ⟨x, stage, hcall, hstage⟩)
      · cases hrun
      · exact hs.running b rfl x ⟨_, hcall, hstage⟩
    cases hdead : s.senderDead with
    | true =>
        have hsucceeded : (s.finish b).succeeded = s.succeeded := by
          rw [Sender.succeeded_finish, if_neg (by simp [hdead]), List.append_nil]
        have hfinished : (s.finish b).senderDead = true := hdead
        refine ⟨rest, part, ?_, ?_, h.part_prefix, ?_, ?_, fun b' _ hb' => absurd hb' (hnobody b')⟩
        · rw [hsucceeded]
          exact h.passed
        · rw [hsucceeded]
          exact h.written
        · intro halive
          cases hfinished.symm.trans halive
        · intro halive
          cases hfinished.symm.trans halive
    | false =>
        have hsending := hs.sending hdead
        have hsz := hdone hdead
        obtain ⟨rfl, hpdu⟩ := h.sends b hdead (.inl rfl)
        have hsucceeded : (s.finish b).succeeded = s.succeeded ++ [b] := by
          rw [Sender.succeeded_finish, if_pos ⟨hdead, Int.le_antisymm hsending.bounds.2 hsz⟩]
        refine ⟨[], [], ?_, ?_, List.nil_prefix, fun _ => rfl, fun _ _ => rfl,
          fun b' _ hb' => absurd hb' (hnobody b')⟩
        · rw [hsucceeded, List.append_nil]
          exact h.passed
        · -- the PDU has been written to its end
          have hall := s.wpdu.done_append_remaining
          rw [hsending.remaining_eq_nil (.inr hsz), List.append_nil, hpdu] at hall
          show s.written = _
          rw [hsucceeded, h.written, h.alive hdead, hall]
          simp

theorem Sender.Inv.watches (hs : s.Inv run) (watched : Bool) :
    { s with watched := watched }.Inv run :=
  hs.moves rfl rfl rfl (fun _ => Iff.rfl) hs.waits hs.completes hs.waiters hs.exclusive hs.running
    hs.removes hs.sized hs.asleep

end Parts

/-! ### Steps keep the invariant -/

section Steps

variable {s s' : Sender τ} {t : τ} {b : List UInt8} {r : Written}

theorem Sender.Inv.written_of_stop {run : Running} (hs : s.Inv run)
    (hstop : ¬ (s.senderDead = false ∧ s.wpdu.solong ≥ 0 ∧ s.wpdu.solong < s.wpdu.sz))
    (halive : s.senderDead = false) : s.wpdu.sz ≤ s.wpdu.solong := by
  have hbounds := (hs.sending halive).bounds
  by_contra hlt
  exact hstop ⟨halive, hbounds.1, by omega⟩

theorem Sender.Inv.complete (hs : s.Inv (.sending b)) (hcall : s.calls t = none)
    (hb : rpcHeaderSz ≤ b.length ∧ b.length ≤ maxPdu) : (s.complete t b).Inv .nobody := by
  have hcount : s.sendComplete.count t = 0 := by
    rw [hs.completes t, Sender.stageOf, hcall]
    rfl
  unfold Sender.complete
  split
  · refine hs.leaves hcall (by simp) hb ?_ ?_ (by simp)
    · intro x hx
      rw [Cond.count_wait, if_neg hx.symm, Nat.add_zero]
    · rw [Cond.count_wait, hcount]
      simp
  · next hstop => exact hs.finish (hs.written_of_stop hstop)

theorem Sender.Inv.past (hs : s.Inv .entering) (hcall : s.calls t = none)
    (hfree : s.senderDead = false → s.wpdu.buf = none)
    (hb : rpcHeaderSz ≤ b.length ∧ b.length ≤ maxPdu) (h : s.past t b r = some s') :
    s'.Inv .nobody := by
  unfold Sender.past at h
  cases hdead : s.senderDead with
  | true =>
      simp only [hdead, if_true] at h
      cases h
      have hrefused : { s with
          waiters := s.waiters - 1
          passed := s.passed ++ [b]
          returned := s.returned ++ [(b, false)] }.Inv .nobody := hs.refuses hdead
      rw [← hdead]
      exact hrefused
  | false =>
      have hbegun := hs.begins hdead (hfree hdead) hb
      simp only [hdead, Bool.false_eq_true, if_false] at h
      obtain ⟨x, hx, rfl⟩ := Option.map_eq_some_iff.mp h
      obtain ⟨⟨ok, w, bytes⟩, hw, rfl⟩ := Option.map_eq_some_iff.mp hx
      cases ok with
      | false =>
          have hcount : s.sendComplete.count t = 0 := by
            rw [hs.completes t, Sender.stageOf, hcall]
            rfl
          have hfailed := (hbegun.fails hdead hw).watches false
          exact hfailed.leaves hcall (by simp) hb (fun _ _ => rfl) (by simpa using hcount)
            fun _ => rfl
      | true =>
          have hwritten := hbegun.writes hdead hw
          simp only [Sender.started, Bool.not_true, Bool.false_eq_true, if_false]
          split
          · next hall =>
              rw [← hdead]
              exact hwritten.finish fun _ => Int.le_of_eq hall.symm
          · rw [← hdead]
            exact (hwritten.watches true).complete hcall hb

theorem Sender.Inv.enter (hs : s.Inv .entering) (hcall : s.calls t = none)
    (hb : rpcHeaderSz ≤ b.length ∧ b.length ≤ maxPdu) (h : s.enter t b r = some s') :
    s'.Inv .nobody := by
  unfold Sender.enter at h
  split at h
  · next hwait =>
      cases h
      exact hs.waitsFor hcall hwait.2 hb
  · next hpast =>
      refine hs.past hcall (fun halive => ?_) hb h
      by_contra hbusy
      exact hpast ⟨halive, hbusy⟩

theorem Sender.Inv.send (hs : s.Inv .nobody) (hb : rpcHeaderSz ≤ b.length ∧ b.length ≤ maxPdu)
    (h : s.send t b r = some s') : s'.Inv .nobody := by
  unfold Sender.send at h
  split at h
  · next hcall => exact hs.calls.enter hcall hb h
  · cases h

/-- What the three steps of a call that comes back have in common. -/
theorem Sender.sendResumes_eq (h : s.sendResumes t r = some s') :
    ∃ b c, s.calls t = some ⟨b, .waits⟩ ∧ s.sendWait.resume t = some c ∧
      ({ s with sendWait := c }.setCall t none).enter t b r = some s' := by
  unfold Sender.sendResumes at h
  split at h
  · next b hcall =>
      obtain ⟨c, hresume, henter⟩ := Option.bind_eq_some_iff.mp h
      exact ⟨b, c, hcall, hresume, henter⟩
  · cases h

theorem Sender.completeResumes_eq (h : s.completeResumes t = some s') :
    ∃ b c, s.calls t = some ⟨b, .completes⟩ ∧ s.sendComplete.resume t = some c ∧
      s' = ({ s with sendComplete := c }.setCall t none).complete t b := by
  unfold Sender.completeResumes at h
  split at h
  · next b hcall =>
      obtain ⟨c, hresume, heq⟩ := Option.map_eq_some_iff.mp h
      exact ⟨b, c, hcall, hresume, heq.symm⟩
  · cases h

theorem Sender.removeReturns_eq (h : s.removeReturns t = some s') :
    ∃ b, s.calls t = some ⟨b, .removes⟩ ∧ s' = (s.setCall t none).finish b := by
  unfold Sender.removeReturns at h
  split at h
  · next b hcall => exact ⟨b, hcall, (Option.some.inj h).symm⟩
  · cases h

theorem Sender.Inv.sendResumes (hs : s.Inv .nobody) (h : s.sendResumes t r = some s') :
    s'.Inv .nobody := by
  obtain ⟨b, c, hcall, hresume, henter⟩ := Sender.sendResumes_eq h
  exact (hs.resumes hcall hresume).enter (Sender.calls_setCall_self _) (hs.sized t _ hcall) henter

/-- The call at `send_complete_` has `m_` again. -/
theorem Sender.Inv.completing {c : Cond τ} (hs : s.Inv .nobody)
    (hcall : s.calls t = some ⟨b, .completes⟩) (hresume : s.sendComplete.resume t = some c) :
    ({ s with sendComplete := c }.setCall t none).Inv (.sending b) :=
  hs.takes hcall (by simp) fun x => by simpa using Cond.count_resume x hresume

theorem Sender.Inv.completeResumes (hs : s.Inv .nobody) (h : s.completeResumes t = some s') :
    s'.Inv .nobody := by
  obtain ⟨b, c, hcall, hresume, rfl⟩ := Sender.completeResumes_eq h
  exact (hs.completing hcall hresume).complete (Sender.calls_setCall_self _) (hs.sized t _ hcall)

theorem Sender.Inv.removeReturns (hs : s.Inv .nobody) (h : s.removeReturns t = some s') :
    s'.Inv .nobody := by
  obtain ⟨b, hcall, rfl⟩ := Sender.removeReturns_eq h
  have hdead := hs.removes t (Sender.stageOf_eq hcall)
  refine (hs.takes hcall (by simp) fun x => ?_).finish fun halive => ?_
  · simp
  · cases hdead.symm.trans halive

theorem Sender.signalComplete_eq {pick : τ} (h : s.signalComplete pick = some s') :
    ∃ c, s.sendComplete.signal pick = some c ∧ s' = { s with sendComplete := c } := by
  obtain ⟨c, hsignal, heq⟩ := Option.map_eq_some_iff.mp h
  exact ⟨c, hsignal, heq.symm⟩

theorem Sender.Inv.signalComplete {pick : τ} {run : Running} (hs : s.Inv run)
    (h : s.signalComplete pick = some s') : s'.Inv run := by
  obtain ⟨c, hsignal, rfl⟩ := Sender.signalComplete_eq h
  exact hs.completeWakes fun x => Cond.count_signal x hsignal

/-- A `write_cb` that finds something to write. -/
theorem Sender.writeCb_eq {pick : τ} (h : s.writeCb r pick = some s') :
    s.senderDead = false ∧ (s.wpdu.sz = 0 ∧ s' = { s with watched := false } ∨
      s.wpdu.sz ≠ 0 ∧ ∃ ok w bytes, Channel.writepdu s.wpdu r = some (ok, w, bytes) ∧
        { s with wpdu := w, wire := s.wire ++ bytes, written := s.written ++ bytes }.wrote ok pick =
          some s') := by
  unfold Sender.writeCb at h
  split at h
  · cases h
  · next halive =>
      refine ⟨Bool.eq_false_iff.mpr halive, ?_⟩
      split at h
      · next hzero => exact .inl ⟨hzero, (Option.some.inj h).symm⟩
      · next hsz =>
          obtain ⟨x, hx, hwrote⟩ := Option.bind_eq_some_iff.mp h
          obtain ⟨⟨ok, w, bytes⟩, hw, rfl⟩ := Option.map_eq_some_iff.mp hx
          exact .inr ⟨hsz, ok, w, bytes, hw, hwrote⟩

theorem Sender.Inv.writeCb {pick : τ} (hs : s.Inv .nobody) (h : s.writeCb r pick = some s') :
    s'.Inv .nobody := by
  obtain ⟨halive, ⟨-, rfl⟩ | ⟨-, ok, w, bytes, hw, hwrote⟩⟩ := Sender.writeCb_eq h
  · exact hs.watches false
  · cases ok with
    | false =>
        exact ((hs.fails halive hw).watches false).signalComplete hwrote
    | true =>
        have hwritten := hs.writes halive hw
        simp only [Sender.wrote, Bool.not_true, Bool.false_eq_true, if_false] at hwrote
        split at hwrote
        · cases hwrote
        · split at hwrote
          · cases hwrote
            exact hwritten
          · exact hwritten.signalComplete hwrote

theorem Sender.Inv.readFails {pick : τ} (hs : s.Inv .nobody) (h : s.readFails pick = some s') :
    s'.Inv .nobody := by
  unfold Sender.readFails at h
  split at h
  · cases h
    exact hs
  · exact (hs.dies.watches false).signalComplete h

theorem Sender.Inv.closeconn (hs : s.Inv .nobody) : s.closeconn.Inv .nobody := by
  unfold Sender.closeconn
  split
  · exact hs
  · exact hs.dies.watches false

theorem Link.readCb_keeps {l l' : Link} {size body : Received} {takes : Bool}
    (h : l.readCb size body takes = some l') :
    l'.senderDead = l.senderDead ∧ l'.wpdu = l.wpdu ∧ l'.passed = l.passed := by
  have hdeliver : ∀ l : Link, (l.deliver takes).senderDead = l.senderDead ∧
      (l.deliver takes).wpdu = l.wpdu ∧ (l.deliver takes).passed = l.passed := by
    intro l
    unfold Link.deliver
    split
    · exact ⟨rfl, rfl, rfl⟩
    · split <;> exact ⟨rfl, rfl, rfl⟩
  unfold Link.readCb at h
  split at h
  · cases h
    exact ⟨rfl, rfl, rfl⟩
  · split at h
    · obtain ⟨⟨succ, w, wire⟩, -, rfl⟩ := Option.map_eq_some_iff.mp h
      exact hdeliver _
    · cases h
      exact hdeliver _

/-- The other end does something. -/
theorem Sender.Inv.receives {l : Link} (hs : s.Inv .nobody) (hdead : l.senderDead = s.senderDead)
    (hwpdu : l.wpdu = s.wpdu) (hpassed : l.passed = s.passed) :
    { s with toLink := l }.Inv .nobody := by
  obtain ⟨rest, part, h⟩ := hs.ordered
  constructor
  · exact hs.waits
  · exact hs.completes
  · exact hs.waiters
  · exact hs.exclusive
  · exact hs.running
  · rw [hwpdu]
    exact hs.used
  · rw [hdead]
    exact hs.removes
  · exact hs.sized
  · rw [hdead, hwpdu]
    exact hs.sending
  · rw [hwpdu]
    exact hs.asleep
  · refine ⟨rest, part, hpassed.trans h.passed, h.written, h.part_prefix, ?_, ?_, ?_⟩
    · rw [hdead, hwpdu]
      exact h.alive
    · rw [hdead, hwpdu]
      exact h.free
    · intro b
      rw [hdead, hwpdu]
      exact h.sends b

theorem Sender.Inv.step {action : SendAction τ} (hs : s.Inv .nobody) (hsized : SizedSend s action)
    (h : s.step action = some s') : s'.Inv .nobody := by
  cases action with
  | send t b r => exact hs.send hsized h
  | sendResumes t r => exact hs.sendResumes h
  | sendWakes t =>
      obtain ⟨c, hwake, rfl⟩ := Option.map_eq_some_iff.mp h
      exact hs.sendWakes hwake
  | completeResumes t => exact hs.completeResumes h
  | completeWakes t =>
      obtain ⟨c, hwake, rfl⟩ := Option.map_eq_some_iff.mp h
      exact hs.completeWakes fun x => Cond.count_wake x hwake
  | removeReturns t => exact hs.removeReturns h
  | writeCb r pick => exact hs.writeCb h
  | readFails pick => exact hs.readFails h
  | closeconn =>
      cases h
      exact hs.closeconn
  | readCb size body takes =>
      obtain ⟨l, hread, rfl⟩ := Option.map_eq_some_iff.mp h
      obtain ⟨hdead, hwpdu, hpassed⟩ := Link.readCb_keeps hread
      exact hs.receives hdead hwpdu hpassed
  | receiverDies =>
      cases h
      exact hs.receives rfl rfl rfl

end Steps

end DistributedLab.Channel
