import DistributedLab.ConnSend

/-!
# No call of send sleeps for ever

A thread that sleeps at `send_wait_` is woken by the call that uses `wpdu_`, and that call sleeps
at `send_complete_` only while the poll manager is to call `write_cb`.  The callbacks signal
`send_complete_` when the PDU has been written or the connection fails.  `closeconn` does not: a
call that waits for the kernel would not come back from it, so that it is to be called while
`wpdu_` is free.
-/

namespace DistributedLab.Channel

open Transition Monitor Wire

variable {τ : Type} [DecidableEq τ]

/-! ### Who wakes the threads -/

/-- `closeconn` is called while `wpdu_` is free: it does not wake a call that waits at
    `send_complete_`. -/
def OrderlySend (s : Sender τ) : SendAction τ → Prop
  | .send _ b _ => rpcHeaderSz ≤ b.length ∧ b.length ≤ maxPdu
  | .closeconn => s.wpdu.buf = none
  | _ => True

instance (s : Sender τ) : (action : SendAction τ) → Decidable (OrderlySend s action)
  | .send _ _ _ => inferInstanceAs (Decidable (_ ∧ _))
  | .closeconn => inferInstanceAs (Decidable (s.wpdu.buf = none))
  | .sendResumes _ _ | .sendWakes _ | .completeResumes _ | .completeWakes _ | .removeReturns _
  | .writeCb _ _ | .readFails _ | .readCb _ _ _ | .receiverDies =>
      inferInstanceAs (Decidable True)

theorem OrderlySend.sized {τ : Type} {s : Sender τ} {action : SendAction τ}
    (h : OrderlySend s action) : SizedSend s action := by
  cases action with
  | send t b r => exact h
  | _ => trivial

/-- The call at `send_complete_` sleeps only while the poll manager is to call `write_cb`. -/
structure Sender.Awake (s : Sender τ) : Prop where
  watched : s.senderDead = false → ∀ t, s.stageOf t = some .completes → s.watched = true
  asleep : s.sendComplete.waiting ≠ [] → s.senderDead = false ∧ s.wpdu.solong < s.wpdu.sz

section Wakeups

variable {s s' : Sender τ} {t : τ} {b : List UInt8} {r : Written} {run : Running}

theorem Sender.Inv.stage_of_count (hs : s.Inv run) (h : 0 < s.sendComplete.count t) :
    s.stageOf t = some .completes := by
  rw [hs.completes t] at h
  by_contra hstage
  rw [if_neg hstage] at h
  exact Nat.lt_irrefl 0 h

theorem Sender.uses_of_completes {τ : Type} {s : Sender τ} {t : τ}
    (h : s.stageOf t = some .completes) : s.Uses t := by
  obtain ⟨call, hcall, hstage⟩ := Option.map_eq_some_iff.mp h
  exact ⟨call, hcall, by simp [hstage]⟩

/-- There is one thread at most at `send_complete_`. -/
theorem Sender.Inv.alone (hs : s.Inv run) (h : 0 < s.sendComplete.count t) :
    s.sendComplete = ⟨[t], []⟩ ∨ s.sendComplete = ⟨[], [t]⟩ := by
  have hstage := hs.stage_of_count h
  have hcount := hs.completes t
  rw [if_pos hstage] at hcount
  have heq : ∀ x, 0 < s.sendComplete.count x → x = t := by
    intro x hx
    exact hs.exclusive x t (Sender.uses_of_completes (hs.stage_of_count hx))
      (Sender.uses_of_completes hstage)
  have hwaiting := List.eq_replicate_of_mem
    fun x hx => heq x (Cond.count_pos_of_waiting (c := s.sendComplete) hx)
  have hwoken := List.eq_replicate_of_mem
    fun x hx => heq x (Cond.count_pos_of_woken (c := s.sendComplete) hx)
  rcases hc : s.sendComplete with ⟨waiting, woken⟩
  rw [hc] at hwaiting hwoken hcount
  dsimp only at hwaiting hwoken
  rw [Cond.count, hwaiting, hwoken, List.count_replicate_self, List.count_replicate_self] at hcount
  rw [hwaiting, hwoken]
  rcases Nat.eq_zero_or_pos waiting.length with hzero | hpos
  · right
    rw [hzero, show woken.length = 1 by omega]
    rfl
  · left
    rw [show waiting.length = 1 by omega, show woken.length = 0 by omega]
    rfl

theorem Sender.Inv.signal_clears {pick : τ} {c : Cond τ} (hs : s.Inv run)
    (h : s.sendComplete.signal pick = some c) : c.waiting = [] := by
  unfold Cond.signal at h
  split at h
  · next hnone =>
      cases h
      exact hnone
  · obtain ⟨hmem, rfl⟩ := Cond.wake_eq h
    rcases hs.alone (Cond.count_pos_of_waiting hmem) with heq | heq
    · simp [heq]
    · rw [heq] at hmem
      cases hmem

theorem Sender.Awake.of_not_uses (hs : s.Inv run) (hnone : ∀ x, ¬ s.Uses x) : s.Awake := by
  refine ⟨fun _ x hx => absurd (Sender.uses_of_completes hx) (hnone x), fun hne => ?_⟩
  obtain ⟨x, hx⟩ := List.exists_mem_of_ne_nil _ hne
  have hstage := hs.stage_of_count (Cond.count_pos_of_waiting hx)
  exact absurd (Sender.uses_of_completes hstage) (hnone x)

theorem Sender.Awake.waiting_eq_nil {τ : Type} {s : Sender τ} (ha : s.Awake)
    (hdead : s.senderDead = true) : s.sendComplete.waiting = [] := by
  by_contra hne
  cases hdead.symm.trans (ha.asleep hne).1

theorem Sender.Awake.of_dead {τ : Type} {s : Sender τ} (hdead : s.senderDead = true)
    (hwaiting : s.sendComplete.waiting = []) : s.Awake := by
  refine ⟨fun halive => ?_, fun hne => absurd hwaiting hne⟩
  cases hdead.symm.trans halive

theorem Sender.Inv.awake (hs : s.Inv (.sending b)) : s.Awake := .of_not_uses hs (hs.running b rfl)

theorem Sender.Inv.awake_finish (hs : s.Inv (.sending b))
    (hdone : s.senderDead = false → s.wpdu.sz ≤ s.wpdu.solong) : (s.finish b).Awake :=
  .of_not_uses (hs.finish hdone) (hs.running b rfl)

theorem Sender.Inv.awake_complete (hs : s.Inv (.sending b))
    (hwatched : s.senderDead = false → s.watched = true) : (s.complete t b).Awake := by
  unfold Sender.complete
  split
  · next hgoes => exact ⟨fun _ _ _ => hwatched hgoes.1, fun _ => ⟨hgoes.1, hgoes.2.2⟩⟩
  · next hstop => exact hs.awake_finish (hs.written_of_stop hstop)

theorem Sender.Awake.past (ha : s.Awake) (hs : s.Inv .entering)
    (hfree : s.senderDead = false → s.wpdu.buf = none)
    (hb : rpcHeaderSz ≤ b.length ∧ b.length ≤ maxPdu) (h : s.past t b r = some s') : s'.Awake := by
  unfold Sender.past at h
  cases hdead : s.senderDead with
  | true =>
      simp only [hdead, if_true] at h
      cases h
      exact .of_dead rfl (ha.waiting_eq_nil hdead)
  | false =>
      have hbegun := hs.begins hdead (hfree hdead) hb
      simp only [hdead, Bool.false_eq_true, if_false] at h
      obtain ⟨x, hx, rfl⟩ := Option.map_eq_some_iff.mp h
      obtain ⟨⟨ok, w, bytes⟩, hw, rfl⟩ := Option.map_eq_some_iff.mp hx
      cases ok with
      | false =>
          have hfailed := hbegun.fails hdead hw
          exact .of_dead rfl (hfailed.awake.waiting_eq_nil rfl)
      | true =>
          have hwritten := hbegun.writes hdead hw
          simp only [Sender.started, Bool.not_true, Bool.false_eq_true, if_false]
          rw [← hdead]
          split
          · next hall => exact hwritten.awake_finish fun _ => Int.le_of_eq hall.symm
          · exact (hwritten.watches true).awake_complete fun _ => rfl

theorem Sender.Awake.enter (ha : s.Awake) (hs : s.Inv .entering)
    (hb : rpcHeaderSz ≤ b.length ∧ b.length ≤ maxPdu) (h : s.enter t b r = some s') : s'.Awake := by
  unfold Sender.enter at h
  split at h
  · cases h
    refine ⟨fun halive x hx => ?_, ha.asleep⟩
    rw [Sender.stageOf_setCall] at hx
    split at hx
    · cases hx
    · exact ha.watched halive x hx
  · next hpast =>
      refine ha.past hs (fun halive => ?_) hb h
      by_contra hbusy
      exact hpast ⟨halive, hbusy⟩

theorem Sender.Awake.writeCb {pick : τ} (ha : s.Awake) (hs : s.Inv .nobody)
    (h : s.writeCb r pick = some s') : s'.Awake := by
  obtain ⟨halive, ⟨hsz, rfl⟩ | ⟨-, ok, w, bytes, hw, hwrote⟩⟩ := Sender.writeCb_eq h
  · -- nothing is being sent
    have hfree : s.wpdu.buf = none := by
      cases hwpdu : s.wpdu.buf with
      | none => rfl
      | some b =>
          have hsending := hs.sending halive
          generalize s.wpdu = w at hsending hsz hwpdu
          cases hsending with
          | idle => cases hwpdu
          | busy hfour =>
              dsimp only at hsz
              omega
    exact .of_not_uses (hs.watches false) (hs.not_uses hfree)
  · cases ok with
    | false =>
        obtain ⟨c, hsignal, rfl⟩ := Sender.signalComplete_eq hwrote
        exact .of_dead rfl (hs.signal_clears hsignal)
    | true =>
        simp only [Sender.wrote, Bool.not_true, Bool.false_eq_true, if_false] at hwrote
        split at hwrote
        · cases hwrote
        · split at hwrote
          · next hpart =>
              cases hwrote
              exact ⟨ha.watched, fun _ => ⟨halive, hpart⟩⟩
          · obtain ⟨c, hsignal, rfl⟩ := Sender.signalComplete_eq hwrote
            exact ⟨ha.watched, fun hne => absurd (hs.signal_clears hsignal) hne⟩

theorem Sender.Awake.step {action : SendAction τ} (ha : s.Awake) (hs : s.Inv .nobody)
    (horderly : OrderlySend s action) (h : s.step action = some s') : s'.Awake := by
  cases action with
  | send t b r =>
      simp only [Sender.step, Sender.send] at h
      split at h
      · have hcalled : { s with waiters := s.waiters + 1 }.Awake := ⟨ha.watched, ha.asleep⟩
        exact hcalled.enter hs.calls horderly h
      · cases h
  | sendResumes t r =>
      obtain ⟨b, c, hcall, hresume, henter⟩ := Sender.sendResumes_eq h
      have hresumed : ({ s with sendWait := c }.setCall t none).Awake := by
        refine ⟨fun halive x hx => ?_, ha.asleep⟩
        rw [Sender.stageOf_setCall] at hx
        split at hx
        · cases hx
        · exact ha.watched halive x hx
      exact hresumed.enter (hs.resumes hcall hresume) (hs.sized t _ hcall) henter
  | sendWakes t =>
      obtain ⟨c, -, rfl⟩ := Option.map_eq_some_iff.mp h
      exact ⟨ha.watched, ha.asleep⟩
  | completeResumes t =>
      obtain ⟨b, c, hcall, hresume, rfl⟩ := Sender.completeResumes_eq h
      exact (hs.completing hcall hresume).awake_complete fun halive =>
        ha.watched halive t (Sender.stageOf_eq hcall)
  | completeWakes t =>
      obtain ⟨c, hwake, rfl⟩ := Option.map_eq_some_iff.mp h
      obtain ⟨hmem, rfl⟩ := Cond.wake_eq hwake
      exact ⟨ha.watched, fun _ => ha.asleep (List.ne_nil_of_mem hmem)⟩
  | removeReturns t =>
      obtain ⟨b, hcall, rfl⟩ := Sender.removeReturns_eq h
      have htaken : ({ s with sendComplete := s.sendComplete }.setCall t none).Inv (.sending b) :=
        hs.takes hcall (by simp) fun x => by simp
      have hdead := hs.removes t (Sender.stageOf_eq hcall)
      exact htaken.awake_finish fun halive => absurd (hdead.symm.trans halive) (by decide)
  | writeCb r pick => exact ha.writeCb hs h
  | readFails pick =>
      simp only [Sender.step, Sender.readFails] at h
      split at h
      · cases h
        exact ha
      · obtain ⟨c, hsignal, rfl⟩ := Sender.signalComplete_eq h
        exact .of_dead rfl (hs.signal_clears hsignal)
  | closeconn =>
      cases h
      unfold Sender.closeconn
      split
      · exact ha
      · exact .of_not_uses (hs.dies.watches false) (hs.not_uses horderly)
  | readCb size body takes =>
      obtain ⟨l, hread, rfl⟩ := Option.map_eq_some_iff.mp h
      obtain ⟨hdead, hwpdu, -⟩ := Link.readCb_keeps hread
      constructor
      · rw [hdead]
        exact ha.watched
      · rw [hdead, hwpdu]
        exact ha.asleep
  | receiverDies =>
      cases h
      exact ⟨ha.watched, ha.asleep⟩

/-- A call that has `m_` again. -/
def SendAction.goesOn : SendAction τ → Bool
  | .sendResumes _ _ | .completeResumes _ | .removeReturns _ => true
  | _ => false

/-- The calls in progress. -/
def Sender.pending (s : Sender τ) : Nat :=
  s.sendWait.waiting.length + s.sendWait.woken.length + if s.wpdu.buf = none then 0 else 1

theorem exists_writepdu (b : List UInt8) (sz : Int) {solong : Int} (hpos : 0 ≤ solong)
    (r : Written) : ∃ x, Channel.writepdu ⟨some b, sz, solong⟩ r = some x := by
  unfold Channel.writepdu
  rw [if_neg (by dsimp only; omega)]
  split
  · exact ⟨_, rfl⟩
  · cases r <;> exact ⟨_, rfl⟩

theorem Sender.exists_sendResumes (hcall : s.calls t = some ⟨b, .waits⟩)
    (hwoken : t ∈ s.sendWait.woken) (r : Written) : ∃ s', s.sendResumes t r = some s' := by
  obtain ⟨c, hresume⟩ := Cond.exists_resume hwoken
  simp only [Sender.sendResumes, hcall, hresume, Option.bind_some, Sender.enter, Sender.past]
  split
  · exact ⟨_, rfl⟩
  · split
    · exact ⟨_, rfl⟩
    · obtain ⟨⟨ok, w, bytes⟩, hw⟩ := exists_writepdu b b.length (Int.le_refl 0) r
      simp only [Sender.writepdu, hw, Option.map_some]
      exact ⟨_, rfl⟩

/-- The poll thread can go on with the PDU of a call that sleeps, whatever the kernel does. -/
theorem Sender.Inv.exists_writeCb (hs : s.Inv .nobody) (halive : s.senderDead = false)
    (hmem : t ∈ s.sendComplete.waiting) (r : Written) : ∃ s', s.writeCb r t = some s' := by
  have hstage := hs.stage_of_count (Cond.count_pos_of_waiting hmem)
  obtain ⟨⟨b, stage⟩, hcall, hne⟩ := Sender.uses_of_completes hstage
  have hbusy := hs.used.mpr ⟨b, .inr ⟨t, stage, hcall, hne⟩⟩
  have hsignal : ∀ s' : Sender τ, s'.sendComplete = s.sendComplete →
      ∃ s'', s'.signalComplete t = some s'' := by
    intro s' heq
    simp only [Sender.signalComplete, heq, Cond.signal, if_neg (List.ne_nil_of_mem hmem), Cond.wake,
      if_pos hmem, Option.map_some]
    exact ⟨_, rfl⟩
  have hsending := hs.sending halive
  rcases hwpdu : s.wpdu with ⟨buf, sz, solong⟩
  rw [hwpdu] at hbusy hsending
  cases hsending with
  | idle => exact absurd rfl hbusy
  | @busy b k hfour hmax hk hstamped =>
      obtain ⟨⟨ok, w, bytes⟩, hw⟩ := exists_writepdu b b.length (Int.natCast_nonneg k) r
      have hsz : (b.length : Int) ≠ 0 := by omega
      simp only [Sender.writeCb, halive, Bool.false_eq_true, if_false, hwpdu, hsz,
        Sender.writepdu, hw, Option.map_some, Option.bind_some, Sender.wrote]
      rcases writepdu_cases (.busy hfour hmax hk hstamped) hw with ⟨rfl, hsent, -⟩ | ⟨rfl, -⟩
      · simp only [Bool.not_true, Bool.false_eq_true, if_false,
          if_neg (Int.not_lt.mpr hsent.bounds.1)]
        split
        · exact ⟨_, rfl⟩
        · exact hsignal _ rfl
      · exact hsignal _ rfl

/-- A call that uses `wpdu_` can go on, or the poll thread can for it. -/
theorem Sender.Awake.user_goes_on (ha : s.Awake) (hs : s.Inv .nobody) (huses : s.Uses t) :
    (∃ action s', SendAction.goesOn action = true ∧ s.step action = some s') ∨
      s.senderDead = false ∧ s.watched = true ∧ s.wpdu.solong < s.wpdu.sz ∧
        ∀ r, ∃ pick s', s.step (.writeCb r pick) = some s' := by
  obtain ⟨⟨b, stage⟩, hcall, hne⟩ := huses
  cases stage with
  | waits => exact absurd rfl hne
  | removes =>
      refine .inl ⟨.removeReturns t, (s.setCall t none).finish b, rfl, ?_⟩
      simp only [Sender.step, Sender.removeReturns, hcall]
  | completes =>
      have hstage : s.stageOf t = some .completes := Sender.stageOf_eq hcall
      have hpos : 0 < s.sendComplete.count t := by
        rw [hs.completes t, if_pos hstage]
        exact Nat.one_pos
      rcases Cond.mem_of_count_pos hpos with hasleep | hwoken
      · obtain ⟨halive, hpart⟩ := ha.asleep (List.ne_nil_of_mem hasleep)
        refine .inr ⟨halive, ha.watched halive t hstage, hpart, fun r => ⟨t, ?_⟩⟩
        exact hs.exists_writeCb halive hasleep r
      · obtain ⟨c, hresume⟩ := Cond.exists_resume hwoken
        refine .inl ⟨.completeResumes t,
          ({ s with sendComplete := c }.setCall t none).complete t b, rfl, ?_⟩
        simp only [Sender.step, Sender.completeResumes, hcall, hresume, Option.map_some]

theorem Sender.Awake.goes_on (ha : s.Awake) (hs : s.Inv .nobody) (hcall : s.calls t ≠ none) :
    (∃ action s', SendAction.goesOn action = true ∧ s.step action = some s') ∨
      s.senderDead = false ∧ s.watched = true ∧ s.wpdu.solong < s.wpdu.sz ∧
        ∀ r, ∃ pick s', s.step (.writeCb r pick) = some s' := by
  obtain ⟨⟨b, stage⟩, hcall⟩ := Option.ne_none_iff_exists'.mp hcall
  by_cases hwaits : stage = .waits
  · subst hwaits
    have hpos : 0 < s.sendWait.count t := by
      rw [hs.waits t, if_pos (Sender.stageOf_eq hcall)]
      exact Nat.one_pos
    rcases Cond.mem_of_count_pos hpos with hasleep | hwoken
    · -- the call that will wake this one
      obtain ⟨user, huses⟩ :=
        Sender.uses_iff_sends.mpr (hs.used.mp (hs.asleep (List.ne_nil_of_mem hasleep)))
      exact ha.user_goes_on hs huses
    · obtain ⟨s', hs'⟩ := Sender.exists_sendResumes hcall hwoken .again
      exact .inl ⟨.sendResumes t .again, s', rfl, hs'⟩
  · exact ha.user_goes_on hs ⟨_, hcall, hwaits⟩

/-! ### After the connection has died -/

theorem Sender.pending_finish {τ : Type} {s : Sender τ} (hbusy : s.wpdu.buf ≠ none) :
    (s.finish b).pending + 1 = s.pending := by
  simp only [Sender.pending, Sender.finish, Charbuf.empty, if_true, if_neg hbusy]
  split
  · simp only [Cond.broadcast, List.length_append, List.length_nil]
    omega
  · rfl

theorem Sender.enter_dead (hdead : s.senderDead = true) (h : s.enter t b r = some s') :
    s'.senderDead = true ∧ s'.pending = s.pending := by
  simp only [Sender.enter, Sender.past, hdead, Bool.true_eq_false, false_and, if_false,
    if_true] at h
  cases h
  exact ⟨rfl, rfl⟩

theorem Sender.complete_dead (hdead : s.senderDead = true) : s.complete t b = s.finish b := by
  rw [Sender.complete, if_neg (by simp [hdead])]

/-- On a dead connection a call that goes on returns, and none comes to wait. -/
theorem Sender.Inv.step_dead {action : SendAction τ} (hs : s.Inv .nobody)
    (hdead : s.senderDead = true) (h : s.step action = some s') :
    s'.senderDead = true ∧ s'.pending + (if action.goesOn then 1 else 0) ≤ s.pending := by
  cases action with
  | send t b r =>
      simp only [Sender.step, Sender.send] at h
      split at h
      · obtain ⟨hdead', hpending⟩ :=
          Sender.enter_dead (s := { s with waiters := s.waiters + 1 }) hdead h
        exact ⟨hdead', Nat.le_of_eq hpending⟩
      · cases h
  | sendResumes t r =>
      obtain ⟨b, c, -, hresume, henter⟩ := Sender.sendResumes_eq h
      obtain ⟨hdead', hpending⟩ :=
        Sender.enter_dead (s := { s with sendWait := c }.setCall t none) hdead henter
      refine ⟨hdead', ?_⟩
      have hwoken := Cond.woken_resume hresume
      have hwaiting := (Cond.resume_subset hresume).2.1
      rw [hpending]
      show c.waiting.length + c.woken.length + (if s.wpdu.buf = none then 0 else 1) + 1 ≤
        s.sendWait.waiting.length + s.sendWait.woken.length + if s.wpdu.buf = none then 0 else 1
      rw [hwaiting]
      omega
  | sendWakes t =>
      obtain ⟨c, hwake, rfl⟩ := Option.map_eq_some_iff.mp h
      obtain ⟨hmem, rfl⟩ := Cond.wake_eq hwake
      refine ⟨hdead, ?_⟩
      have hpos := List.length_pos_of_mem hmem
      simp only [Sender.pending, SendAction.goesOn, List.length_erase_of_mem hmem,
        List.length_cons, Bool.false_eq_true, if_false]
      omega
  | completeResumes t =>
      obtain ⟨b, c, hcall, -, rfl⟩ := Sender.completeResumes_eq h
      have hbusy := hs.used.mpr ⟨b, .inr ⟨t, _, hcall, by simp⟩⟩
      have hfinish : ({ s with sendComplete := c }.setCall t none).complete t b =
          ({ s with sendComplete := c }.setCall t none).finish b := Sender.complete_dead hdead
      have hpending : (({ s with sendComplete := c }.setCall t none).finish b).pending + 1 =
          s.pending := Sender.pending_finish hbusy
      rw [hfinish]
      exact ⟨hdead, Nat.le_of_eq hpending⟩
  | completeWakes t =>
      obtain ⟨c, -, rfl⟩ := Option.map_eq_some_iff.mp h
      exact ⟨hdead, Nat.le_refl _⟩
  | removeReturns t =>
      obtain ⟨b, hcall, rfl⟩ := Sender.removeReturns_eq h
      have hbusy := hs.used.mpr ⟨b, .inr ⟨t, _, hcall, by simp⟩⟩
      have hpending : ((s.setCall t none).finish b).pending + 1 = s.pending :=
        Sender.pending_finish hbusy
      exact ⟨hdead, Nat.le_of_eq hpending⟩
  | writeCb r pick =>
      cases hdead.symm.trans (Sender.writeCb_eq h).1
  | readFails pick =>
      simp only [Sender.step, Sender.readFails, hdead, if_true] at h
      cases h
      exact ⟨hdead, Nat.le_refl _⟩
  | closeconn =>
      simp only [Sender.step, Sender.closeconn, hdead, if_true] at h
      cases h
      exact ⟨hdead, Nat.le_refl _⟩
  | readCb size body takes =>
      obtain ⟨l, hread, rfl⟩ := Option.map_eq_some_iff.mp h
      obtain ⟨hdead', hwpdu, -⟩ := Link.readCb_keeps hread
      refine ⟨hdead'.trans hdead, Nat.le_of_eq ?_⟩
      simp only [Sender.pending, hwpdu, SendAction.goesOn, Bool.false_eq_true, if_false]
      rfl
  | receiverDies =>
      cases h
      exact ⟨hdead, Nat.le_refl _⟩

end Wakeups

theorem senders_awake {s : Sender τ} (h : (senders τ).Reach OrderlySend s) :
    s.Inv .nobody ∧ s.Awake := by
  refine h.invariant (P := fun s => s.Inv .nobody ∧ s.Awake) ?_ ?_
  · rintro start rfl
    exact ⟨Sender.inv_new, .of_not_uses Sender.inv_new (Sender.inv_new.not_uses rfl)⟩
  · rintro state next action ⟨hs, ha⟩ horderly hstep
    exact ⟨hs.step horderly.sized hstep, ha.step hs horderly hstep⟩

/-- **A call of `send` comes back.**  While calls are in progress one of them can go on, or the
    connection is alive with bytes left and the poll manager is to call `write_cb`, which can go on
    whatever the kernel does.  Once the connection is dead, each call that goes on returns: no run
    has more such steps than there are calls. -/
theorem send_comes_back {s : Sender τ} (h : (senders τ).Reach OrderlySend s) :
    ((∃ t, s.calls t ≠ none) →
      (∃ action s', SendAction.goesOn action = true ∧ s.step action = some s') ∨
        s.senderDead = false ∧ s.watched = true ∧ s.wpdu.solong < s.wpdu.sz ∧
          ∀ r, ∃ pick s', s.step (.writeCb r pick) = some s') ∧
    (s.senderDead = true → ∀ actions final,
      (senders τ).exec (fun s action => decide (SizedSend s action)) s actions = some final →
        actions.countP SendAction.goesOn + final.pending ≤ s.pending) := by
  obtain ⟨hs, ha⟩ := senders_awake h
  refine ⟨fun ⟨t, hcall⟩ => ha.goes_on hs hcall, fun hdead actions final hexec => ?_⟩
  have hrank : (final.Inv .nobody ∧ final.senderDead = true) ∧
      actions.countP SendAction.goesOn + final.pending ≤ s.pending := by
    refine System.countP_le_rank (P := fun s => s.Inv .nobody ∧ s.senderDead = true) ?_ ⟨hs, hdead⟩
      hexec
    rintro state next action ⟨hstate, hstateDead⟩ hsized hstep
    obtain ⟨hnextDead, hpending⟩ := hstate.step_dead hstateDead hstep
    exact ⟨⟨hstate.step (of_decide_eq_true hsized) hstep, hnextDead⟩, hpending⟩
  exact hrank.2

/-- The connection fails while one call is at `send_complete_` and another one waits for it. -/
def failedSend : List (SendAction Bool) :=
  [.send false (List.replicate 25 7) (.wrote 10), .send true (List.replicate 24 9) .again,
    .readFails false]

theorem send_comes_back_failed :
    ∃ s : Sender Bool, (senders Bool).Reach OrderlySend s ∧ s.senderDead = true ∧ s.pending = 2 ∧
      (∃ action s', SendAction.goesOn action = true ∧ s.step action = some s') ∧
      ∀ actions final,
        (senders Bool).exec (fun s action => decide (SizedSend s action)) s actions = some final →
          actions.countP SendAction.goesOn + final.pending ≤ 2 := by
  obtain ⟨s, hreach, hseen⟩ : ∃ s, (senders Bool).Reach OrderlySend s ∧
      (s.senderDead, s.pending, s.stageOf true) = (true, 2, some .waits) :=
    System.Reach.of_exec (fun s action => decide (OrderlySend s action)) failedSend rfl
      (fun _ _ h => of_decide_eq_true h) (by decide +kernel)
  simp only [Prod.mk.injEq] at hseen
  obtain ⟨hdead, hpending, hwaits⟩ := hseen
  obtain ⟨hgoes, hbound⟩ := send_comes_back hreach
  have hcall : s.calls true ≠ none := by
    intro hnone
    rw [Sender.stageOf, hnone] at hwaits
    cases hwaits
  refine ⟨s, hreach, hdead, hpending, ?_, fun actions final h => hpending ▸ hbound hdead _ _ h⟩
  rcases hgoes ⟨true, hcall⟩ with hgoes | ⟨halive, -⟩
  · exact hgoes
  · cases hdead.symm.trans halive

end DistributedLab.Channel
