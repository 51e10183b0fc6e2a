import DistributedLab.LockCacheQueue
import DistributedLab.LockExclusion

/-!
# Mutual exclusion without replication

Every step keeps the queues of the locks or lets one client join at the end or leave
at the front, so the service is a queue per lock whose first client may have the lock.
-/

namespace DistributedLab.LockCache

open Transition Relay
open Lock (LockStatus Status enlist address address_injective)

/-! ## 1. What a step does -/

section Cases

variable {c c' : LockClientCache} {t lid : Nat}

theorem LockClientCache.test_cases (h : c.test t = some c') :
    ∃ lid, c.thread t = .entering lid ∧
      ((c.status lid = .none ∧ c' = (c.setStatus lid .acquiring).setThread t
          (.acquiring lid (.calling .requested))) ∨
        (c.status lid = .free ∧ c' = c.granted t lid)) := by
  unfold LockClientCache.test at h
  split at h
  · rename_i lid hthread hmutex
    refine ⟨lid, hthread, ?_⟩
    split at h
    · rename_i hstatus
      exact .inl ⟨hstatus, (Option.some.inj h).symm⟩
    · rename_i hstatus
      exact .inr ⟨hstatus, (Option.some.inj h).symm⟩
    · cases h
  · cases h

/-- Only a request that was answered OK at the first call goes on without the status RETRY. -/
theorem LockClientCache.answered_cases (h : c.answered t = some c') :
    ∃ lid stage, c.thread t = .acquiring lid stage ∧
      ((stage = .calling (.answered .ok) ∧ c' = c.granted t lid) ∨
        stage = .calling (.answered .retry) ∨ ∃ call, stage = .recalling call) := by
  unfold LockClientCache.answered at h
  split at h
  · rename_i lid hthread hmutex
    exact ⟨lid, _, hthread, .inl ⟨rfl, (Option.some.inj h).symm⟩⟩
  · rename_i lid hthread hmutex
    exact ⟨lid, _, hthread, .inr (.inl rfl)⟩
  · rename_i lid hthread
    exact ⟨lid, _, hthread, .inr (.inr ⟨_, rfl⟩)⟩
  · rename_i lid hthread
    exact ⟨lid, _, hthread, .inr (.inr ⟨_, rfl⟩)⟩
  · cases h

theorem LockClientCache.again_cases (h : c.again t = some c') :
    ∃ lid, c.thread t = .acquiring lid .retrying := by
  unfold LockClientCache.again at h
  split at h
  · rename_i lid hthread hmutex
    exact ⟨lid, hthread⟩
  · cases h

theorem LockClientCache.revokeHandler_cases {handler : Handler} {out : LockClientCache × Handler}
    (h : c.revokeHandler lid handler = some out) :
    (handler = .waiting ∧ c.status lid = .free ∧ out = (c.setStatus lid .releasing, .releasing)) ∨
      (handler = .waiting ∧ c.status lid = .none) ∨
      (handler = .releasing ∧ out = (c.setStatus lid .none, .answered .ok)) := by
  cases handler with
  | waiting =>
      simp only [LockClientCache.revokeHandler] at h
      split at h
      · rename_i hmutex hstatus
        exact .inl ⟨rfl, hstatus, (Option.some.inj h).symm⟩
      · rename_i hmutex hstatus
        exact .inr (.inl ⟨rfl, hstatus⟩)
      · cases h
  | releasing =>
      simp only [LockClientCache.revokeHandler] at h
      split at h
      · cases h
      · exact .inr (.inr ⟨rfl, (Option.some.inj h).symm⟩)
  | answered status => cases h

theorem Thread.call?_cases {thread : Thread} {call : Call} (h : thread.call? = some (lid, call)) :
    thread = .acquiring lid (.calling call) ∨ thread = .acquiring lid (.recalling call) := by
  unfold Thread.call? at h
  split at h
  · cases h
    exact .inl rfl
  · cases h
    exact .inr rfl
  · cases h

variable {s s' : LockCacheSystem} {dst : Nat → String} {target client : Nat}

theorem LockCacheSystem.serve_cases {c : Nat} (h : s.serve dst c t = some s') :
    ∃ lid, s.call? c t = some (lid, .requested) ∧
      s' = { s.setCall c t ((s.server.acquire lid (dst c)).1.goOn (s.server.acquire lid (dst c)).2.1)
        with server := (s.server.acquire lid (dst c)).1 } := by
  unfold LockCacheSystem.serve at h
  split at h
  · rename_i lid hcall
    exact ⟨lid, hcall, (Option.some.inj h).symm⟩
  · cases h

theorem LockCacheSystem.revoke_cases {c : Nat} (h : s.revoke dst c t target = some s') :
    ∃ lid client handler out, s.call? c t = some (lid, .revoking client handler) ∧
      dst target = client ∧ (s.client target).revokeHandler lid handler = some out ∧
      s' = (s.onClient target out.1).setCall c t (.revoking client out.2) := by
  unfold LockCacheSystem.revoke at h
  split at h
  · rename_i lid client handler hcall
    split at h
    · rename_i htarget
      obtain ⟨out, hout, rfl⟩ := Option.map_eq_some_iff.mp h
      exact ⟨lid, client, handler, out, hcall, htarget, hout, rfl⟩
    · cases h
  · cases h

theorem LockCacheSystem.revoked_cases {c : Nat} (h : s.revoked c t = some s') :
    ∃ lid client status, s.call? c t = some (lid, .revoking client (.answered status)) ∧
      s' = s.setCall c t (s.server.revoked lid status) := by
  unfold LockCacheSystem.revoked at h
  split at h
  · rename_i lid client status hcall
    exact ⟨lid, client, status, hcall, (Option.some.inj h).symm⟩
  · cases h

theorem LockCacheSystem.retry_cases {c : Nat} (h : s.retry dst c t target = some s') :
    ∃ lid client, s.call? c t = some (lid, .retrying client) := by
  unfold LockCacheSystem.retry at h
  split at h
  · rename_i lid client hcall
    exact ⟨lid, client, hcall⟩
  · cases h

end Cases

/-! ## 2. What a step does to a lock -/

def LockCacheSystem.shares (s : LockCacheSystem) (lid : Nat) : Nat → Share :=
  fun c => (s.client c).share lid

section Shares

variable {s : LockCacheSystem} {c t lid l : Nat} {client : LockClientCache} {stage : Stage}

theorem shares_onClient :
    (s.onClient c client).shares lid = Function.update (s.shares lid) c (client.share lid) := by
  funext c'
  by_cases hc : c' = c
  · subst hc
    simp [LockCacheSystem.shares, LockCacheSystem.onClient]
  · simp [LockCacheSystem.shares, LockCacheSystem.onClient, hc]

theorem stage_shares (h : (s.client c).thread t = .acquiring lid stage) :
    (s.shares lid c).stage t = some stage := by
  simp [LockCacheSystem.shares, LockClientCache.share, h, Thread.stage?]

theorem stage_shares_of_ne (h : (s.client c).thread t = .acquiring lid stage) (hl : l ≠ lid) :
    (s.shares l c).stage t = none := by
  simp [LockCacheSystem.shares, LockClientCache.share, h, Thread.stage?, hl.symm]

theorem shares_setCall {call call' : Call}
    (h : (s.client c).thread t = .acquiring lid (.calling call)) :
    (s.setCall c t call').shares lid = Function.update (s.shares lid) c
      ((s.shares lid c).setStage t (some (.calling call'))) := by
  unfold LockCacheSystem.setCall
  rw [shares_onClient, share_setThread, h]
  simp [Thread.setCall, Thread.stage?, LockCacheSystem.shares]

theorem shares_setCall_of_ne {call call' : Call}
    (h : (s.client c).thread t = .acquiring lid (.calling call)) (hl : l ≠ lid) :
    (s.setCall c t call').shares l = s.shares l := by
  unfold LockCacheSystem.setCall
  rw [shares_onClient, share_setThread, h]
  have hstage : ((s.client c).share l).stage t = none := stage_shares_of_ne h hl
  simp only [Thread.setCall, Thread.stage?, if_neg hl.symm]
  rw [setStage_of_eq hstage]
  exact Function.update_eq_self c (s.shares l)

/-- A step of `revoke_handler`. -/
theorem shares_handled {call call' : Call} {target : Nat} (status : LockStatus)
    (h : (s.client c).thread t = .acquiring lid (.calling call)) (hne : target ≠ c) :
    ((s.onClient target ((s.client target).setStatus lid status)).setCall c t call').shares lid =
      Function.update (Function.update (s.shares lid) target
        ((s.shares lid target).setStatus status)) c
        ((s.shares lid c).setStage t (some (.calling call'))) := by
  have hclient : (s.onClient target ((s.client target).setStatus lid status)).client c =
      s.client c := Function.update_of_ne hne.symm _ _
  rw [shares_setCall (by rw [hclient]; exact h), shares_onClient, share_setStatus,
    Function.update_of_ne hne.symm]
  rfl

theorem shares_handled_of_ne {call call' : Call} {target : Nat} (status : LockStatus)
    (h : (s.client c).thread t = .acquiring lid (.calling call)) (hne : target ≠ c)
    (hl : l ≠ lid) :
    ((s.onClient target ((s.client target).setStatus lid status)).setCall c t call').shares l =
      s.shares l := by
  have hclient : (s.onClient target ((s.client target).setStatus lid status)).client c =
      s.client c := Function.update_of_ne hne.symm _ _
  rw [shares_setCall_of_ne (by rw [hclient]; exact h) hl, shares_onClient,
    share_setStatus_of_ne hl]
  exact Function.update_eq_self target (s.shares l)

theorem mutex_onClient (h : client.mutex = (s.client c).mutex) (c' : Nat) :
    ((s.onClient c client).client c').mutex = (s.client c').mutex := by
  by_cases hc : c' = c
  · subst hc
    simpa [LockCacheSystem.onClient] using h
  · simp [LockCacheSystem.onClient, hc]

theorem mutex_setCall {call : Call} (c' : Nat) :
    ((s.setCall c t call).client c').mutex = (s.client c').mutex := by
  apply mutex_onClient
  rfl

theorem share_granted :
    (client.granted t lid).share lid =
      (((client.share lid).setStatus .locked).setStage t none).setHolds t true := by
  unfold LockClientCache.granted
  rw [share_setHolds, share_setThread, share_setStatus]
  rfl

theorem share_granted_of_ne (hl : l ≠ lid) (hstage : (client.share l).stage t = none) :
    (client.granted t lid).share l = client.share l := by
  unfold LockClientCache.granted
  rw [share_setHolds_of_ne hl, share_setThread, share_setStatus_of_ne hl]
  exact setStage_of_eq hstage

end Shares

/-! ## 3. The service is a queue for every lock -/

structure LockCacheSystem.Relayed (dst : Nat → String) (s : LockCacheSystem)
    (queue : Nat → List Nat) : Prop where
  mutex : ∀ c, (s.client c).mutex = false
  connected : ∀ lid, ∀ client ∈ s.server.lockClientList lid, client ∈ s.server.connection
  queued : ∀ lid, Queued dst (s.shares lid) (s.server.lockClientList lid) (queue lid)

section Relayed

variable {dst : Nat → String} {s s' : LockCacheSystem} {queue : Nat → List Nat} {c t lid : Nat}

theorem LockCacheSystem.Relayed.initial :
    LockCacheSystem.Relayed dst ⟨fun _ => LockClientCache.new, LockServerCache.new⟩
      (fun _ => []) where
  mutex := fun _ => rfl
  connected := nofun
  queued := fun lid => Queued.initial lid

/-- A request is at its first call. -/
theorem LockCacheSystem.Relayed.calling {call : Call} (h : s.Relayed dst queue)
    (hcall : s.call? c t = some (lid, call)) :
    (s.client c).thread t = .acquiring lid (.calling call) := by
  rcases Thread.call?_cases hcall with hthread | hthread
  · exact hthread
  · have hstands := ((h.queued lid).fits c).stands t _ (stage_shares hthread)
    cases hstands

theorem LockCacheSystem.Relayed.stage {call : Call} (h : s.Relayed dst queue)
    (hcall : s.call? c t = some (lid, call)) :
    (s.shares lid c).stage t = some (.calling call) :=
  stage_shares (h.calling hcall)

/-- A step of one client that leaves the queues as they are. -/
theorem LockCacheSystem.Relayed.onClient (lid : Nat) {client : LockClientCache}
    (h : s.Relayed dst queue) (hmutex : client.mutex = (s.client c).mutex)
    (hother : ∀ l, l ≠ lid → client.share l = (s.client c).share l)
    (hqueued : Queued dst (Function.update (s.shares lid) c (client.share lid))
      (s.server.lockClientList lid) (queue lid)) : (s.onClient c client).Relayed dst queue where
  mutex := by
    intro c'
    rw [mutex_onClient hmutex]
    exact h.mutex c'
  connected := h.connected
  queued := by
    intro l
    rw [shares_onClient]
    by_cases hl : l = lid
    · subst hl
      exact hqueued
    · rw [hother l hl]
      have hsame : Function.update (s.shares l) c ((s.client c).share l) = s.shares l :=
        Function.update_eq_self c (s.shares l)
      rw [hsame]
      exact h.queued l

theorem LockCacheSystem.Relayed.enter {client : LockClientCache} (h : s.Relayed dst queue)
    (hstep : (s.client c).enter t lid = some client) : (s.onClient c client).Relayed dst queue := by
  unfold LockClientCache.enter at hstep
  split at hstep
  · rename_i hthread
    obtain rfl := Option.some.inj hstep
    have hshare : ∀ l, ((s.client c).setThread t (.entering lid)).share l =
        (s.client c).share l := by
      intro l
      rw [share_setThread]
      apply setStage_of_eq
      simp [LockClientCache.share, hthread, Thread.stage?]
    refine h.onClient lid rfl (fun l _ => hshare l) ?_
    rw [hshare lid]
    have hsame : Function.update (s.shares lid) c ((s.client c).share lid) = s.shares lid :=
      Function.update_eq_self c (s.shares lid)
    rw [hsame]
    exact h.queued lid
  · cases hstep

theorem LockCacheSystem.Relayed.grant (h : s.Relayed dst queue)
    (hhead : (queue lid).head? = some c)
    (hothers : ∀ t', t' ≠ t → (s.shares lid c).stage t' = none)
    (hstatus : (s.client c).status lid = .free ∨ (s.client c).status lid = .acquiring)
    (hstage : ∀ l, l ≠ lid → (s.shares l c).stage t = none) :
    (s.onClient c ((s.client c).granted t lid)).Relayed dst queue := by
  refine h.onClient lid rfl ?_ ?_
  · intro l hl
    exact share_granted_of_ne hl (hstage l hl)
  · rw [share_granted]
    exact (h.queued lid).grant hhead hothers hstatus

theorem LockCacheSystem.Relayed.test {client : LockClientCache} (h : s.Relayed dst queue)
    (hstep : (s.client c).test t = some client) : (s.onClient c client).Relayed dst queue := by
  obtain ⟨lid, hthread, hcases⟩ := LockClientCache.test_cases hstep
  have hstage : ∀ l, ((s.client c).share l).stage t = none := by
    intro l
    simp [LockClientCache.share, hthread, Thread.stage?]
  rcases hcases with ⟨hstatus, rfl⟩ | ⟨hstatus, rfl⟩
  · refine h.onClient lid rfl ?_ ?_
    · intro l hl
      rw [share_setThread, share_setStatus_of_ne hl]
      apply setStage_of_eq
      rw [hstage l]
      simp [Thread.stage?, hl.symm]
    · rw [share_setThread, share_setStatus]
      have hrequested : Thread.stage? lid (.acquiring lid (.calling .requested)) =
          some (.calling .requested) := if_pos rfl
      rw [hrequested]
      exact (h.queued lid).request hstatus
  · have hfits := (h.queued lid).fits c
    have hfree : (s.shares lid c).status = .free := hstatus
    refine h.grant (hfits.first (.inl hfree)) ?_ (.inl hstatus) (fun l _ => hstage l)
    intro t' _
    exact hfits.stage_eq_none (by simp [hfree]) t'

theorem LockCacheSystem.Relayed.answered {client : LockClientCache} (h : s.Relayed dst queue)
    (hstep : (s.client c).answered t = some client) : (s.onClient c client).Relayed dst queue := by
  obtain ⟨lid, stage, hthread, hcases⟩ := LockClientCache.answered_cases hstep
  have hfits := (h.queued lid).fits c
  have hstage := stage_shares hthread
  have hstands := hfits.stands t stage hstage
  rcases hcases with ⟨rfl, rfl⟩ | rfl | ⟨call, rfl⟩
  · have hhead : (queue lid).head? = some c := by
      cases hstands with
      | answered hhead => exact hhead
    refine h.grant hhead ?_ (.inr (hfits.acquiring t (by simp [hstage]))) ?_
    · intro t' ht
      by_contra hother
      exact ht (hfits.alone t' t hother (by simp [hstage]))
    · intro l hl
      exact stage_shares_of_ne hthread hl
  · cases hstands
  · cases hstands

theorem LockCacheSystem.Relayed.again {client : LockClientCache} (h : s.Relayed dst queue)
    (hstep : (s.client c).again t = some client) : (s.onClient c client).Relayed dst queue := by
  obtain ⟨lid, hthread⟩ := LockClientCache.again_cases hstep
  have hstands := ((h.queued lid).fits c).stands t _ (stage_shares hthread)
  cases hstands

theorem LockCacheSystem.Relayed.release {client : LockClientCache} (h : s.Relayed dst queue)
    (hstep : (s.client c).release t lid = some client) :
    (s.onClient c client).Relayed dst queue := by
  unfold LockClientCache.release at hstep
  split at hstep
  · rename_i hheld
    obtain rfl := Option.some.inj hstep
    refine h.onClient lid rfl ?_ ?_
    · intro l hl
      rw [share_setHolds_of_ne hl, share_setStatus_of_ne hl]
    · rw [share_setHolds, share_setStatus]
      exact (h.queued lid).release hheld.2.2
  · cases hstep

/-! ### The server -/

/-- A request to which the server finds one other client, or none. -/
theorem takeTurn_enlist {list : List String} {others : List Nat}
    (hlist : list = (others.getLast?.map dst).toList) (hdst : Function.Injective dst)
    (habsent : c ∉ others) :
    takeTurn (enlist list (dst c)) (dst c) = ([dst c],
      match others.getLast? with
      | none => .answer .ok
      | some x => .revoke (dst x)) := by
  rcases hlast : others.getLast? with _ | x
  · rw [hlist, hlast]
    simp [enlist, takeTurn]
  · have hx : x ≠ c := by
      rintro rfl
      exact habsent (List.mem_of_getLast? hlast)
    have hne : dst x ≠ dst c := fun heq => hx (hdst heq)
    rw [hlist, hlast]
    simp [enlist, takeTurn, hne, hne.symm]

/-- A step that moves one queue. -/
theorem LockCacheSystem.Relayed.advance (lid : Nat) {next : List Nat} (h : s.Relayed dst queue)
    (hmutex : ∀ c, (s'.client c).mutex = (s.client c).mutex)
    (hconnected : ∀ l, ∀ client ∈ s'.server.lockClientList l, client ∈ s'.server.connection)
    (hother : ∀ l, l ≠ lid → s'.shares l = s.shares l ∧
      s'.server.lockClientList l = s.server.lockClientList l)
    (hadvances : Advances (queue lid) next)
    (hqueued : Queued dst (s'.shares lid) (s'.server.lockClientList lid) next) :
    ∃ queue', (∀ l, Advances (queue l) (queue' l)) ∧ s'.Relayed dst queue' := by
  refine ⟨Function.update queue lid next, ?_, ?_, hconnected, ?_⟩
  · intro l
    by_cases hl : l = lid
    · subst hl
      rw [Function.update_self]
      exact hadvances
    · rw [Function.update_of_ne hl]
      exact .stay
  · intro c
    rw [hmutex]
    exact h.mutex c
  · intro l
    by_cases hl : l = lid
    · subst hl
      rw [Function.update_self]
      exact hqueued
    · rw [Function.update_of_ne hl, (hother l hl).1, (hother l hl).2]
      exact h.queued l

/-- How the request of a client that is not in the queue goes on. -/
theorem LockCacheSystem.Relayed.turn (h : s.Relayed dst queue) (hdst : Function.Injective dst)
    (habsent : c ∉ queue lid) :
    (s.server.acquire lid (dst c)).1.lockClientList =
        Function.update s.server.lockClientList lid [dst c] ∧
      ∃ call, (s.server.acquire lid (dst c)).1.goOn (s.server.acquire lid (dst c)).2.1 = call ∧
        Stands dst (queue lid ++ [c]) c (.calling call) ∧
        ∀ client, call ≠ .revoking client .releasing := by
  have hturn := takeTurn_enlist (h.queued lid).list hdst habsent
  unfold LockServerCache.acquire
  dsimp only
  rw [hturn]
  refine ⟨rfl, _, rfl, ?_⟩
  rcases hlast : (queue lid).getLast? with _ | x
  · have hempty : queue lid = [] := List.getLast?_eq_none_iff.mp hlast
    refine ⟨.answered ?_, nofun⟩
    rw [hempty]
    rfl
  · have hmem : dst x ∈ s.server.lockClientList lid := by
      rw [(h.queued lid).list, hlast]
      exact List.mem_singleton_self _
    have hconnected : dst x ∈ s.server.connection.insert (dst c) :=
      List.mem_insert_of_mem (h.connected lid _ hmem)
    dsimp only [LockServerCache.goOn, LockServerCache.reaches]
    rw [if_pos hconnected]
    exact ⟨.waiting x (follows_join hlast), by simp⟩

theorem LockCacheSystem.Relayed.serve (h : s.Relayed dst queue) (hdst : Function.Injective dst)
    (hstep : s.serve dst c t = some s') :
    ∃ queue', (∀ l, Advances (queue l) (queue' l)) ∧ s'.Relayed dst queue' := by
  obtain ⟨lid, hcall, rfl⟩ := LockCacheSystem.serve_cases hstep
  have hthread := h.calling hcall
  have habsent : c ∉ queue lid := by
    cases ((h.queued lid).fits c).stands t _ (h.stage hcall) with
    | requested habsent => exact habsent
  obtain ⟨hlist, call, hgoOn, hstands, hnot⟩ := h.turn hdst habsent
  refine h.advance lid (fun c' => mutex_setCall c') ?_ ?_ (.join habsent) ?_
  · intro l client hmem
    have hmem' : client ∈ Function.update s.server.lockClientList lid [dst c] l := by
      rw [← hlist]
      exact hmem
    show client ∈ s.server.connection.insert (dst c)
    by_cases hl : l = lid
    · subst hl
      rw [Function.update_self, List.mem_singleton] at hmem'
      rw [hmem']
      exact List.mem_insert_self
    · rw [Function.update_of_ne hl] at hmem'
      exact List.mem_insert_of_mem (h.connected l client hmem')
  · intro l hl
    refine ⟨shares_setCall_of_ne hthread hl, ?_⟩
    dsimp only
    rw [hlist, Function.update_of_ne hl]
  · dsimp only
    rw [hgoOn, hlist, Function.update_self]
    have hshares : (s.setCall c t call).shares lid = _ := shares_setCall hthread
    exact hshares ▸ (h.queued lid).join (h.stage hcall) hstands hnot

theorem LockCacheSystem.Relayed.revoke {target : Nat} (h : s.Relayed dst queue)
    (hdst : Function.Injective dst) (hstep : s.revoke dst c t target = some s') :
    ∃ queue', (∀ l, Advances (queue l) (queue' l)) ∧ s'.Relayed dst queue' := by
  obtain ⟨lid, client, handler, out, hcall, rfl, hout, rfl⟩ :=
    LockCacheSystem.revoke_cases hstep
  have hthread := h.calling hcall
  have hstage := h.stage hcall
  -- Both critical sections of the handler set the status and move the request on.
  have hcommon : ∀ (status : LockStatus) (call : Call) (next : List Nat), target ≠ c →
      Advances (queue lid) next →
      Queued dst (Function.update (Function.update (s.shares lid) target
        ((s.shares lid target).setStatus status)) c
        ((s.shares lid c).setStage t (some (.calling call)))) (s.server.lockClientList lid) next →
      ∃ queue', (∀ l, Advances (queue l) (queue' l)) ∧
        ((s.onClient target ((s.client target).setStatus lid status)).setCall c t call).Relayed dst
          queue' := by
    intro status call next hne hadvances hqueued
    refine h.advance lid ?_ h.connected ?_ hadvances ?_
    · intro c'
      rw [mutex_setCall]
      apply mutex_onClient
      rfl
    · intro l hl
      exact ⟨shares_handled_of_ne status hthread hne hl, rfl⟩
    · rw [shares_handled status hthread hne]
      exact hqueued
  rcases LockClientCache.revokeHandler_cases hout with
    ⟨rfl, hfree, rfl⟩ | ⟨rfl, hnone⟩ | ⟨rfl, rfl⟩
  · obtain ⟨hne, hqueued⟩ := (h.queued lid).releases hdst hstage hfree
    exact hcommon _ _ _ hne .stay hqueued
  · obtain ⟨x, hx, hfollows⟩ := (((h.queued lid).fits c).stands t _ hstage).follows
    have hmem : target ∈ queue lid := by
      rw [hdst hx]
      exact hfollows.mem_left
    exact absurd hmem (((h.queued lid).fits target).absent hnone)
  · obtain ⟨rest, hqueue, hqueued⟩ := (h.queued lid).leaves hdst hstage
    have hne : target ≠ c := by
      rintro rfl
      have hnodup := (h.queued lid).nodup
      rw [hqueue] at hnodup
      exact (List.nodup_cons.mp hnodup).1 List.mem_cons_self
    refine hcommon _ _ _ hne ?_ hqueued
    rw [hqueue]
    exact .leave

/-- The server has at most one client in the list of a lock, so nobody is told to ask again. -/
theorem LockCacheSystem.Relayed.retries_eq_none (h : s.Relayed dst queue) (lid : Nat) :
    s.server.retries lid = none := by
  unfold LockServerCache.retries
  rw [(h.queued lid).list]
  rcases (queue lid).getLast? with _ | x
  · rfl
  · rfl

theorem LockCacheSystem.Relayed.revoked (h : s.Relayed dst queue)
    (hstep : s.revoked c t = some s') : s'.Relayed dst queue := by
  obtain ⟨lid, client, status, hcall, rfl⟩ := LockCacheSystem.revoked_cases hstep
  have hthread := h.calling hcall
  have hstage := h.stage hcall
  have hok : status = .ok := by
    cases ((h.queued lid).fits c).stands t _ hstage with
    | revoked => rfl
  subst hok
  have hrevoked : s.server.revoked lid .ok = .answered .ok := by
    unfold LockServerCache.revoked
    dsimp only
    rw [h.retries_eq_none]
  rw [hrevoked]
  refine ⟨?_, h.connected, ?_⟩
  · intro c'
    rw [mutex_setCall]
    exact h.mutex c'
  · intro l
    by_cases hl : l = lid
    · subst hl
      rw [shares_setCall hthread]
      exact (h.queued l).answered hstage
    · rw [shares_setCall_of_ne hthread hl]
      exact h.queued l

theorem LockCacheSystem.Relayed.retry {target : Nat} (h : s.Relayed dst queue)
    (hstep : s.retry dst c t target = some s') : s'.Relayed dst queue := by
  obtain ⟨lid, client, hcall⟩ := LockCacheSystem.retry_cases hstep
  have hstands := ((h.queued lid).fits c).stands t _ (h.stage hcall)
  cases hstands

/-- **The step lemma.**  A step lets at most one client join or leave a queue. -/
theorem LockCacheSystem.Relayed.step {action : LockCacheSystem.Action} (h : s.Relayed dst queue)
    (hdst : Function.Injective dst) (hstep : s.step dst action = some s') :
    ∃ queue', (∀ l, Advances (queue l) (queue' l)) ∧ s'.Relayed dst queue' := by
  have hstay : s'.Relayed dst queue →
      ∃ queue', (∀ l, Advances (queue l) (queue' l)) ∧ s'.Relayed dst queue' :=
    fun hrelayed => ⟨queue, fun _ => .stay, hrelayed⟩
  cases action with
  | enter c t lid =>
      obtain ⟨client, hclient, rfl⟩ := Option.map_eq_some_iff.mp hstep
      exact hstay (h.enter hclient)
  | test c t =>
      obtain ⟨client, hclient, rfl⟩ := Option.map_eq_some_iff.mp hstep
      exact hstay (h.test hclient)
  | answered c t =>
      obtain ⟨client, hclient, rfl⟩ := Option.map_eq_some_iff.mp hstep
      exact hstay (h.answered hclient)
  | again c t =>
      obtain ⟨client, hclient, rfl⟩ := Option.map_eq_some_iff.mp hstep
      exact hstay (h.again hclient)
  | release c t lid =>
      obtain ⟨client, hclient, rfl⟩ := Option.map_eq_some_iff.mp hstep
      exact hstay (h.release hclient)
  | serve c t => exact h.serve hdst hstep
  | revoke c t target => exact h.revoke hdst hstep
  | revoked c t => exact hstay (h.revoked hstep)
  | retry c t target => exact hstay (h.retry hstep)

theorem LockCacheSystem.Relayed.mutualExclusion (h : s.Relayed dst queue) :
    s.MutualExclusion := by
  intro lid c t c' t' hholds hholds'
  have hfits := (h.queued lid).fits c
  have hfits' := (h.queued lid).fits c'
  have hhead : (queue lid).head? = some c := hfits.first (.inr (.inl (hfits.holding t hholds)))
  have hhead' : (queue lid).head? = some c' :=
    hfits'.first (.inr (.inl (hfits'.holding t' hholds')))
  have hc : c = c' := by
    rw [hhead] at hhead'
    exact Option.some.inj hhead'
  subst hc
  exact ⟨rfl, hfits.single t t' hholds hholds'⟩

theorem LockCacheSystem.Relayed.revokesSucceed (h : s.Relayed dst queue) : s.RevokesSucceed := by
  intro c t lid call hcall
  have hstands := ((h.queued lid).fits c).stands t _ (h.stage hcall)
  constructor
  · rintro rfl
    cases hstands
  · rintro client status rfl
    cases hstands with
    | revoked => rfl

end Relayed

/-- Whatever the run, there is a queue for every lock. -/
theorem relayed_of_reach {dst : Nat → String} (hdst : Function.Injective dst)
    {ok : LockCacheSystem → LockCacheSystem.Action → Prop} {s : LockCacheSystem}
    (h : (lockCacheSystem dst).Reach ok s) : ∃ queue, s.Relayed dst queue := by
  apply h.invariant
  · rintro start rfl
    exact ⟨_, LockCacheSystem.Relayed.initial⟩
  · rintro state next action ⟨queue, hrelayed⟩ _ hstep
    obtain ⟨queue', -, hnext⟩ := hrelayed.step hdst hstep
    exact ⟨queue', hnext⟩

/-- **Mutual exclusion.**  At most one thread of one client has a lock, and every revoke is
    answered OK. -/
theorem exclusive_of_reach (dst : Nat → String) (hdst : Function.Injective dst)
    {s : LockCacheSystem} (h : (lockCacheSystem dst).Reach anyStep s) :
    s.MutualExclusion ∧ s.RevokesSucceed := by
  obtain ⟨queue, hrelayed⟩ := relayed_of_reach hdst h
  exact ⟨hrelayed.mutualExclusion, hrelayed.revokesSucceed⟩

/-- Client 0 has the lock when 1 and then 2 ask for it.  The thread of the server that works for
    1 is still in its revoke when the one for 2 starts to revoke the lock from 1.  Client 0 asks
    again before the answer to its revoke has arrived. -/
def overtaking : List LockCacheSystem.Action :=
  [.enter 0 0 5, .test 0 0, .serve 0 0, .answered 0 0,
    .enter 1 0 5, .test 1 0, .serve 1 0, .enter 2 0 5, .test 2 0, .serve 2 0,
    .release 0 0 5, .revoke 1 0 0, .revoke 1 0 0, .enter 0 1 5, .test 0 1, .serve 0 1,
    .revoked 1 0, .answered 1 0, .release 1 0 5, .revoke 2 0 1, .revoke 2 0 1, .revoked 2 0,
    .answered 2 0]

theorem exclusive_overtaking :
    ∃ s, (lockCacheSystem address).Reach anyStep s ∧ (s.client 2).holds 0 5 = true ∧
      s.MutualExclusion ∧ s.RevokesSucceed := by
  obtain ⟨s, hreach, hholds⟩ : ∃ s, (lockCacheSystem address).Reach anyStep s ∧
      (s.client 2).holds 0 5 = true :=
    System.Reach.of_exec (fun _ _ => true) overtaking rfl (fun _ _ _ => trivial)
      (by decide +kernel)
  exact ⟨s, hreach, hholds, exclusive_of_reach address address_injective hreach⟩

end DistributedLab.LockCache
