import DistributedLab.ConnSend

/-!
# The order of the calls of send

`Link` lets one call of `send` use the connection after the other, and has no threads.  Each
critical section of the calls is a step of the link or does not touch it, and so what holds for
all links holds for a connection that any number of threads send on.

What a call returns is then compared with the stream: a call returns true if its PDU has been
written to its end, and a call that returns false may have written a part of its PDU, or all of
it when the connection has failed at the last moment.
-/

namespace DistributedLab.Channel

open Transition Monitor Wire

variable {τ : Type} [DecidableEq τ]

/-! ### The calls are those of a link -/

/-- At most one step of the link. -/
def Link.Moves (l l' : Link) : Prop := l' = l ∨ ∃ action, Sized l action ∧ l.step action = some l'

section Refinement

variable {s s' : Sender τ} {t : τ} {b : List UInt8} {r : Written}

theorem Sender.finish_link {τ : Type} {s : Sender τ} (hbusy : s.wpdu.buf ≠ none)
    (hdone : s.senderDead = true ∨ s.wpdu.solong < 0 ∨ s.wpdu.sz ≤ s.wpdu.solong) :
    s.toLink.Moves (s.finish b).toLink :=
  .inr ⟨.sendReturns, trivial, if_pos ⟨hbusy, hdone⟩⟩

theorem Sender.complete_link (hbusy : s.wpdu.buf ≠ none) :
    s.toLink.Moves (s.complete t b).toLink := by
  unfold Sender.complete
  split
  · exact .inl rfl
  · next hstop =>
      refine Sender.finish_link hbusy ?_
      cases hdead : s.senderDead with
      | true => exact .inl rfl
      | false =>
          right
          by_contra hgoes
          exact hstop ⟨hdead, by omega, by omega⟩

/-- A call past `send_wait_` is a call of the link. -/
theorem Sender.past_link (hfree : s.senderDead = false → s.wpdu.buf = none)
    (hb : rpcHeaderSz ≤ b.length ∧ b.length ≤ maxPdu) (h : s.past t b r = some s') :
    s.toLink.step (.send b r) = some s'.toLink := by
  unfold Sender.past at h
  simp only [Link.step, Link.send]
  cases hdead : s.senderDead with
  | true =>
      simp only [hdead, if_true] at h ⊢
      cases h
      rfl
  | false =>
      simp only [hdead, Bool.false_eq_true, if_false, hfree hdead, ne_eq, not_true] at h ⊢
      obtain ⟨x, hx, rfl⟩ := Option.map_eq_some_iff.mp h
      obtain ⟨⟨ok, w, bytes⟩, hw, rfl⟩ := Option.map_eq_some_iff.mp hx
      have hw : Channel.writepdu ⟨some b, b.length, 0⟩ r = some (ok, w, bytes) := hw
      rw [hw, Option.map_some]
      cases ok with
      | false => rfl
      | true =>
          simp only [Sender.started, Bool.not_true, Bool.false_eq_true, if_false, true_and]
          split
          · rfl
          · next hpart =>
              -- the kernel has taken a part, and the call waits for the rest
              have hfirst : Charbuf.Sending ⟨some b, b.length, 0⟩ :=
                .busy (k := 0) (Nat.le_trans (by decide) hb.1) hb.2 (Nat.zero_le _)
                  fun hpos => absurd hpos (Nat.lt_irrefl 0)
              rcases writepdu_cases hfirst hw with ⟨-, hsending, -⟩ | ⟨hfailed, -⟩
              · have hbounds := hsending.bounds
                rw [Sender.complete, if_pos ⟨rfl, hbounds.1, by dsimp only; omega⟩]
                rfl
              · cases hfailed

theorem Sender.enter_link (hb : rpcHeaderSz ≤ b.length ∧ b.length ≤ maxPdu)
    (h : s.enter t b r = some s') : s.toLink.Moves s'.toLink := by
  unfold Sender.enter at h
  split at h
  · cases h
    exact .inl rfl
  · next hpast =>
      refine .inr ⟨.send b r, hb, Sender.past_link (fun halive => ?_) hb h⟩
      by_contra hbusy
      exact hpast ⟨halive, hbusy⟩

theorem Sender.writeCb_link {pick : τ} (h : s.writeCb r pick = some s') :
    s.toLink.Moves s'.toLink := by
  obtain ⟨halive, ⟨-, rfl⟩ | ⟨hsz, ok, w, bytes, hw, hwrote⟩⟩ := Sender.writeCb_eq h
  · exact .inl rfl
  · refine .inr ⟨.writeCb r, trivial, ?_⟩
    simp only [Link.step, Link.writeCb, halive, Bool.false_eq_true, if_false, hsz, hw,
      Option.map_some]
    cases ok with
    | false =>
        obtain ⟨c, -, rfl⟩ := Sender.signalComplete_eq hwrote
        rfl
    | true =>
        simp only [Sender.wrote, Bool.not_true, Bool.false_eq_true, if_false] at hwrote
        split at hwrote
        · cases hwrote
        · split at hwrote
          · cases hwrote
            simp [halive]
          · obtain ⟨c, -, rfl⟩ := Sender.signalComplete_eq hwrote
            simp [halive]

theorem Sender.Inv.step_link {action : SendAction τ} (hs : s.Inv .nobody)
    (hsized : SizedSend s action) (h : s.step action = some s') : s.toLink.Moves s'.toLink := by
  cases action with
  | send t b r =>
      simp only [Sender.step, Sender.send] at h
      split at h
      · exact Sender.enter_link (s := { s with waiters := s.waiters + 1 }) hsized h
      · cases h
  | sendResumes t r =>
      obtain ⟨b, c, hcall, -, henter⟩ := Sender.sendResumes_eq h
      exact Sender.enter_link (s := { s with sendWait := c }.setCall t none) (hs.sized t _ hcall)
        henter
  | sendWakes t =>
      obtain ⟨c, -, rfl⟩ := Option.map_eq_some_iff.mp h
      exact .inl rfl
  | completeResumes t =>
      obtain ⟨b, c, hcall, -, rfl⟩ := Sender.completeResumes_eq h
      refine Sender.complete_link (s := { s with sendComplete := c }.setCall t none) ?_
      exact hs.used.mpr ⟨b, .inr ⟨t, _, hcall, by simp⟩⟩
  | completeWakes t =>
      obtain ⟨c, -, rfl⟩ := Option.map_eq_some_iff.mp h
      exact .inl rfl
  | removeReturns t =>
      obtain ⟨b, hcall, rfl⟩ := Sender.removeReturns_eq h
      exact Sender.finish_link (s := s.setCall t none)
        (hs.used.mpr ⟨b, .inr ⟨t, _, hcall, by simp⟩⟩)
        (.inl (hs.removes t (Sender.stageOf_eq hcall)))
  | writeCb r pick => exact Sender.writeCb_link h
  | readFails pick =>
      simp only [Sender.step, Sender.readFails] at h
      split at h
      · cases h
        exact .inl rfl
      · obtain ⟨c, -, rfl⟩ := Sender.signalComplete_eq h
        exact .inr ⟨.senderDies, trivial, rfl⟩
  | closeconn =>
      cases h
      unfold Sender.closeconn
      split
      · exact .inl rfl
      · exact .inr ⟨.senderDies, trivial, rfl⟩
  | readCb size body takes =>
      obtain ⟨l, hread, rfl⟩ := Option.map_eq_some_iff.mp h
      exact .inr ⟨.readCb size body takes, trivial, hread⟩
  | receiverDies =>
      cases h
      exact .inr ⟨.receiverDies, trivial, rfl⟩

end Refinement

theorem senders_invariant {s : Sender τ} (h : (senders τ).Reach SizedSend s) :
    s.Inv .nobody ∧ linkSystem.Reach Sized s.toLink := by
  refine h.invariant (P := fun s => s.Inv .nobody ∧ linkSystem.Reach Sized s.toLink) ?_ ?_
  · rintro start rfl
    exact ⟨Sender.inv_new, .init rfl⟩
  · rintro state next action ⟨hs, hlink⟩ hsized hstep
    refine ⟨hs.step hsized hstep, ?_⟩
    rcases hs.step_link hsized hstep with heq | ⟨action', hguard, htaken⟩
    · rw [heq]
      exact hlink
    · exact hlink.step hguard htaken

/-- **Any number of threads in `send` are one caller after the other.**  The connection and the
    other end go through states of `linkSystem`, in which there are no threads, and `wpdu_` is in
    use exactly while one call uses it. -/
theorem senders_refine_link {s : Sender τ} (h : (senders τ).Reach SizedSend s) :
    linkSystem.Reach Sized s.toLink ∧ (∀ t t', s.Uses t → s.Uses t' → t = t') ∧
      (s.wpdu.buf ≠ none ↔ ∃ t, s.Uses t) := by
  obtain ⟨hs, hlink⟩ := senders_invariant h
  exact ⟨hlink, hs.exclusive, hs.used.trans Sender.uses_iff_sends.symm⟩

/-- The kernel takes a part of the first PDU, and the second call has to wait. -/
def twoSenders : List (SendAction Bool) :=
  [.send false (List.replicate 25 7) (.wrote 10), .send true (List.replicate 24 9) .again]

theorem senders_refine_link_twoSenders :
    ∃ s : Sender Bool, (senders Bool).Reach SizedSend s ∧ s.stageOf false = some .completes ∧
      s.stageOf true = some .waits ∧ linkSystem.Reach Sized s.toLink ∧
      (∀ t t', s.Uses t → s.Uses t' → t = t') ∧ (s.wpdu.buf ≠ none ↔ ∃ t, s.Uses t) := by
  obtain ⟨s, hreach, hstages⟩ : ∃ s, (senders Bool).Reach SizedSend s ∧
      (s.stageOf false, s.stageOf true) = (some .completes, some .waits) :=
    System.Reach.of_exec (fun s action => decide (SizedSend s action)) twoSenders rfl
      (fun _ _ h => of_decide_eq_true h) (by decide +kernel)
  obtain ⟨hcompletes, hwaits⟩ := Prod.mk.inj hstages
  exact ⟨s, hreach, hcompletes, hwaits, senders_refine_link hreach⟩

/-! ### What the other end has received -/

/-- The bytes that have left the sender, as far as the other end still has them. -/
def Link.received (l : Link) : Nat :=
  l.consumed.flatten.length + if l.receiverDead then 0 else (l.rpdu.bytes ++ l.wire).length

theorem Link.received_deliver {l : Link} {takes : Bool}
    (hdead : l.receiverDead = true → l.rpdu.buf = none) :
    (l.deliver takes).received = l.received := by
  unfold Link.deliver
  split
  · rfl
  · next b hb =>
      split
      · have halive : l.receiverDead = false := by
          cases hreceiver : l.receiverDead with
          | false => rfl
          | true => cases hb.symm.trans (hdead hreceiver)
        simp [Link.received, halive, Charbuf.bytes, hb, Charbuf.empty]
        omega
      · rfl

theorem Link.Framed.received_readCb {l l' : Link} {size body : Received} {takes : Bool}
    (hl : l.Framed) (h : l.readCb size body takes = some l') : l'.received ≤ l.received := by
  unfold Link.readCb at h
  split at h
  · cases h
    exact Nat.le_refl _
  · next halive =>
      have halive := Bool.eq_false_iff.mpr halive
      split at h
      · obtain ⟨⟨succ, w, wire⟩, hread, rfl⟩ := Option.map_eq_some_iff.mp h
        obtain ⟨next, hnext, hflow⟩ := hl.flow
        obtain ⟨hrpdu, rest, hstream, -⟩ := hflow halive
        rcases readpdu_cases (hl.isFrame hnext) hrpdu hstream hread with
          ⟨rfl, -, hbytes⟩ | ⟨rfl, rfl⟩
        · rw [Link.received_deliver (by simp)]
          simp only [Link.received, Bool.not_true, Bool.false_eq_true, if_false, halive, hbytes]
          exact Nat.le_refl _
        · rw [Link.received_deliver fun _ => rfl]
          exact Nat.add_le_add_left (Nat.zero_le _) _
      · cases h
        rw [Link.received_deliver fun hdead => absurd (hdead.symm.trans halive) (by decide)]

/-- What a step of a call may not change. -/
def Sender.stream (s : Sender τ) :
    List UInt8 × List UInt8 × List (List UInt8) × Charbuf × Bool :=
  (s.wire, s.written, s.consumed, s.rpdu, s.receiverDead)

section Stream

variable {s s' : Sender τ} {t : τ} {b : List UInt8} {r : Written}

theorem Sender.received_congr {τ : Type} {s s' : Sender τ} (h : s'.stream = s.stream)
    (hs : s.toLink.received ≤ s.written.length) : s'.toLink.received ≤ s'.written.length := by
  simp only [Sender.stream, Prod.mk.injEq] at h
  obtain ⟨hwire, hwritten, hconsumed, hrpdu, hdead⟩ := h
  rw [Link.received, hwire, hwritten, hconsumed, hrpdu, hdead]
  exact hs

theorem Sender.received_writes {τ : Type} {s : Sender τ} {bytes : List UInt8} (w : Charbuf)
    (hs : s.toLink.received ≤ s.written.length) :
    { s with wpdu := w, wire := s.wire ++ bytes, written := s.written ++ bytes }.toLink.received ≤
      (s.written ++ bytes).length := by
  unfold Link.received at hs ⊢
  simp only [List.length_append] at hs ⊢
  split at hs <;> split <;> simp_all <;> omega

theorem Sender.stream_complete : (s.complete t b).stream = s.stream := by
  unfold Sender.complete
  split <;> rfl

theorem Sender.stream_started {ok : Bool} : (s.started t b ok).stream = s.stream := by
  unfold Sender.started
  split
  · rfl
  · split
    · rfl
    · exact Sender.stream_complete

theorem Sender.stream_signalComplete {pick : τ} (h : s.signalComplete pick = some s') :
    s'.stream = s.stream := by
  obtain ⟨c, -, rfl⟩ := Sender.signalComplete_eq h
  rfl

theorem Sender.stream_wrote {ok : Bool} {pick : τ} (h : s.wrote ok pick = some s') :
    s'.stream = s.stream := by
  unfold Sender.wrote at h
  split at h
  · exact (Sender.stream_signalComplete h).trans rfl
  · split at h
    · cases h
    · split at h
      · cases h
        rfl
      · exact Sender.stream_signalComplete h

theorem Sender.received_enter (hs : s.toLink.received ≤ s.written.length)
    (h : s.enter t b r = some s') : s'.toLink.received ≤ s'.written.length := by
  unfold Sender.enter Sender.past at h
  split at h
  · cases h
    exact Sender.received_congr rfl hs
  · dsimp only at h
    split at h
    · cases h
      exact Sender.received_congr rfl hs
    · obtain ⟨x, hx, rfl⟩ := Option.map_eq_some_iff.mp h
      obtain ⟨⟨ok, w, bytes⟩, -, rfl⟩ := Option.map_eq_some_iff.mp hx
      exact Sender.received_congr Sender.stream_started (Sender.received_writes w hs)

theorem Sender.received_step {action : SendAction τ} (hl : s.toLink.Framed)
    (hs : s.toLink.received ≤ s.written.length) (h : s.step action = some s') :
    s'.toLink.received ≤ s'.written.length := by
  cases action with
  | send t b r =>
      simp only [Sender.step, Sender.send] at h
      split at h
      · exact Sender.received_enter (s := { s with waiters := s.waiters + 1 }) hs h
      · cases h
  | sendResumes t r =>
      obtain ⟨b, c, -, -, henter⟩ := Sender.sendResumes_eq h
      exact Sender.received_enter (s := { s with sendWait := c }.setCall t none) hs henter
  | sendWakes t =>
      obtain ⟨c, -, rfl⟩ := Option.map_eq_some_iff.mp h
      exact hs
  | completeResumes t =>
      obtain ⟨b, c, -, -, rfl⟩ := Sender.completeResumes_eq h
      exact Sender.received_congr (s := s) Sender.stream_complete hs
  | completeWakes t =>
      obtain ⟨c, -, rfl⟩ := Option.map_eq_some_iff.mp h
      exact hs
  | removeReturns t =>
      obtain ⟨b, -, rfl⟩ := Sender.removeReturns_eq h
      exact Sender.received_congr (s := s) rfl hs
  | writeCb r pick =>
      obtain ⟨-, ⟨-, rfl⟩ | ⟨-, ok, w, bytes, -, hwrote⟩⟩ := Sender.writeCb_eq h
      · exact hs
      · exact Sender.received_congr (Sender.stream_wrote hwrote) (Sender.received_writes w hs)
  | readFails pick =>
      simp only [Sender.step, Sender.readFails] at h
      split at h
      · cases h
        exact hs
      · exact Sender.received_congr (s := s) ((Sender.stream_signalComplete h).trans rfl) hs
  | closeconn =>
      cases h
      unfold Sender.closeconn
      split <;> exact hs
  | readCb size body takes =>
      obtain ⟨l, hread, rfl⟩ := Option.map_eq_some_iff.mp h
      exact Nat.le_trans (hl.received_readCb hread) hs
  | receiverDies =>
      cases h
      refine Nat.le_trans (Nat.add_le_add_left ?_ _) hs
      exact Nat.zero_le _

end Stream

theorem Link.framed_of_reach {l : Link} (h : linkSystem.Reach Sized l) : l.Framed := by
  refine h.invariant (P := Link.Framed) ?_ ?_
  · rintro start rfl
    exact Link.framed_new
  · intro state next action hstate hsized hstep
    exact hstate.step hsized hstep

theorem senders_received {s : Sender τ} (h : (senders τ).Reach SizedSend s) :
    s.toLink.received ≤ s.written.length := by
  obtain ⟨start, rfl, hrun⟩ := h
  induction hrun with
  | refl => exact Nat.le_refl 0
  | step hrun _ taken ih =>
      have hlink := (senders_invariant ⟨_, rfl, hrun⟩).2
      exact Sender.received_step (Link.framed_of_reach hlink) ih taken

/-- A list of PDUs that has no more bytes than another list and a part of the next PDU goes at most
    to that PDU. -/
theorem prefix_of_length_le {taken done : List (List UInt8)} {rest : List (List UInt8)}
    {part : List UInt8} (htaken : taken <+: done ++ rest) (hrest : ∀ f ∈ rest, f ≠ [])
    (hpart : part <+: rest.headD [])
    (hlength : taken.flatten.length ≤ (done.flatten ++ part).length) :
    taken <+: done ++ rest.take 1 := by
  have hfirst : done ++ rest.take 1 <+: done ++ rest :=
    (List.prefix_append_right_inj done).mpr (List.take_prefix 1 rest)
  refine List.prefix_of_prefix_length_le htaken hfirst ?_
  by_contra hlong
  rcases rest with _ | ⟨first, _ | ⟨second, more⟩⟩
  · exact hlong (List.append_nil done ▸ htaken.length_le)
  · exact hlong htaken.length_le
  · -- the second of the others would have been taken as well
    have hpair : done ++ [first, second] <+: done ++ first :: second :: more := ⟨more, by simp⟩
    obtain ⟨others, rfl⟩ := List.prefix_of_prefix_length_le hpair htaken (by
      simp only [List.take_succ_cons, List.take_zero, List.length_append, List.length_cons,
        List.length_nil] at hlong ⊢
      omega)
    have hsecond := List.length_pos_iff.mpr (hrest second (by simp))
    have hle := hpart.length_le
    simp only [List.flatten_append, List.flatten_cons, List.flatten_nil, List.length_append,
      List.length_nil, List.headD_cons] at hle hlength
    omega

/-- **What `send` returns.**  The calls that have returned true are the first ones past
    `send_wait_`.  Their PDUs are in the stream one after the other, followed by at most a part of
    the next one, and the other end has consumed none beyond that one. -/
theorem send_results {s : Sender τ} (h : (senders τ).Reach SizedSend s) :
    ∃ rest part, s.passed = s.succeeded ++ rest ∧
      s.written = (s.succeeded.map stamped).flatten ++ part ∧
      part <+: (rest.map stamped).headD [] ∧
      s.consumed <+: (s.succeeded ++ rest.take 1).map stamped := by
  obtain ⟨hs, hlink⟩ := senders_invariant h
  have hframed := Link.framed_of_reach hlink
  obtain ⟨rest, part, hordered⟩ := hs.ordered
  refine ⟨rest, part, hordered.passed, hordered.written, hordered.part_prefix, ?_⟩
  obtain ⟨next, hnext, -⟩ := hframed.flow
  have hconsumed : s.consumed <+: s.succeeded.map stamped ++ rest.map stamped :=
    ⟨next, by rw [← hnext, hordered.passed, List.map_append]⟩
  have hsizes : ∀ f ∈ rest.map stamped, f ≠ [] := by
    rintro f hf rfl
    obtain ⟨b, hb, hempty⟩ := List.mem_map.mp hf
    have hsize := hframed.sizes b (hordered.passed ▸ List.mem_append_right _ hb)
    have hheader := (isFrame_stamped hsize).four_le
    rw [hempty] at hheader
    exact absurd hheader (by decide)
  have hreceived : s.consumed.flatten.length ≤ s.written.length :=
    Nat.le_trans (Nat.le_add_right _ _) (senders_received h)
  rw [List.map_append, List.map_take]
  exact prefix_of_length_le hconsumed hsizes hordered.part_prefix (hordered.written ▸ hreceived)

/-- The two PDUs arrive, and a third one is written in part before the connection fails. -/
def threeSends : List (SendAction Bool) :=
  twoSenders ++
  [.writeCb (.wrote 100) false, .completeResumes false, .sendResumes true (.wrote 100),
    .readCb (.bytes 4) (.bytes 100) true, .readCb (.bytes 4) (.bytes 100) true,
    .send false (List.replicate 30 5) (.wrote 8), .writeCb .failed false, .completeResumes false]

theorem send_results_threeSends :
    ∃ s : Sender Bool, (senders Bool).Reach SizedSend s ∧
      s.returned.map (·.2) = [true, true, false] ∧ s.consumed.length = 2 ∧
      ∃ rest part, s.passed = s.succeeded ++ rest ∧
        s.written = (s.succeeded.map stamped).flatten ++ part ∧
        part <+: (rest.map stamped).headD [] ∧
        s.consumed <+: (s.succeeded ++ rest.take 1).map stamped := by
  obtain ⟨s, hreach, hseen⟩ : ∃ s, (senders Bool).Reach SizedSend s ∧
      (s.returned.map (·.2), s.consumed.length) = ([true, true, false], 2) :=
    System.Reach.of_exec (fun s action => decide (SizedSend s action)) threeSends rfl
      (fun _ _ h => of_decide_eq_true h) (by decide +kernel)
  obtain ⟨hreturned, hconsumed⟩ := Prod.mk.inj hseen
  exact ⟨s, hreach, hreturned, hconsumed, send_results hreach⟩

end DistributedLab.Channel
