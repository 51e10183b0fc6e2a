import DistributedLab.LockCache
import DistributedLab.Relay

/-!
# The invariant of the lock service without replication

The clients that have asked for a lock form a queue, in the order in which the server
has executed their requests.  The server knows only the last of them.  The first one
has the lock or will get it from an answer that no longer waits for anybody.  Every
other one waits for the revoke of the lock from the one before it, so the queue is
kept by the threads of the server that are blocked in a revoke.

A client leaves the queue when its `revoke_handler` sets the status to NONE, which
happens only at the front and when there is a second one.  Until then the client does
not ask for the lock again.  Hence the server never finds a client in its list, and a
revoke never finds a lock that is NONE.
-/

namespace DistributedLab.LockCache

open Transition Relay
open Lock (LockStatus Status enlist)

/-! ## 1. One client and one lock -/

/-- What a client has to do with one lock. -/
@[ext]
structure Share where
  status : LockStatus
  stage : Nat → Option Stage
  holds : Nat → Bool

def Thread.stage? (lid : Nat) : Thread → Option Stage
  | .acquiring l stage => if l = lid then some stage else none
  | _ => none

def LockClientCache.share (c : LockClientCache) (lid : Nat) : Share where
  status := c.status lid
  stage := fun t => (c.thread t).stage? lid
  holds := fun t => c.holds t lid

def Share.setStatus (share : Share) (status : LockStatus) : Share :=
  { share with status := status }

def Share.setStage (share : Share) (t : Nat) (stage : Option Stage) : Share :=
  { share with stage := Function.update share.stage t stage }

def Share.setHolds (share : Share) (t : Nat) (held : Bool) : Share :=
  { share with holds := Function.update share.holds t held }

section Share

variable {c : LockClientCache} {t lid l : Nat} {status : LockStatus} {thread : Thread}
  {held : Bool}

@[simp] theorem share_setStatus :
    (c.setStatus lid status).share lid = (c.share lid).setStatus status := by
  simp [LockClientCache.share, LockClientCache.setStatus, Share.setStatus]

theorem share_setStatus_of_ne (h : l ≠ lid) : (c.setStatus lid status).share l = c.share l := by
  simp [LockClientCache.share, LockClientCache.setStatus, h]

@[simp] theorem share_setThread :
    (c.setThread t thread).share l = (c.share l).setStage t (thread.stage? l) := by
  ext1
  · rfl
  · funext t'
    by_cases ht : t' = t
    · subst ht
      simp [LockClientCache.share, LockClientCache.setThread, Share.setStage]
    · simp [LockClientCache.share, LockClientCache.setThread, Share.setStage, ht]
  · rfl

@[simp] theorem share_setHolds :
    (c.setHolds t lid held).share lid = (c.share lid).setHolds t held := by
  ext1
  · rfl
  · rfl
  · funext t'
    by_cases ht : t' = t
    · subst ht
      simp [LockClientCache.share, LockClientCache.setHolds, Share.setHolds]
    · simp [LockClientCache.share, LockClientCache.setHolds, Share.setHolds, ht]

theorem share_setHolds_of_ne (h : l ≠ lid) : (c.setHolds t lid held).share l = c.share l := by
  ext1
  · rfl
  · rfl
  · funext t'
    by_cases ht : t' = t
    · subst ht
      simp [LockClientCache.share, LockClientCache.setHolds, h]
    · simp [LockClientCache.share, LockClientCache.setHolds, ht]

theorem setStage_of_eq {share : Share} {stage : Option Stage} (h : share.stage t = stage) :
    share.setStage t stage = share := by
  unfold Share.setStage
  rw [← h, Function.update_eq_self]

end Share

/-! ## 2. The queue -/

/-- How far a request can be, by the place of its client in the queue. -/
inductive Stands (dst : Nat → String) (queue : List Nat) (c : Nat) : Stage → Prop
  | requested (h : c ∉ queue) : Stands dst queue c (.calling .requested)
  | waiting (x : Nat) (h : Follows queue x c) :
      Stands dst queue c (.calling (.revoking (dst x) .waiting))
  | releasing (x : Nat) (rest : List Nat) (h : queue = x :: c :: rest) :
      Stands dst queue c (.calling (.revoking (dst x) .releasing))
  | revoked (client : String) (h : queue.head? = some c) :
      Stands dst queue c (.calling (.revoking client (.answered .ok)))
  | answered (h : queue.head? = some c) : Stands dst queue c (.calling (.answered .ok))

section Stands

variable {dst : Nat → String} {queue : List Nat} {c : Nat} {client : String}

theorem Stands.follows (h : Stands dst queue c (.calling (.revoking client .waiting))) :
    ∃ x, client = dst x ∧ Follows queue x c := by
  cases h with
  | waiting x h => exact ⟨x, rfl, h⟩

theorem Stands.second (h : Stands dst queue c (.calling (.revoking client .releasing))) :
    ∃ x rest, client = dst x ∧ queue = x :: c :: rest := by
  cases h with
  | releasing x rest h => exact ⟨x, rest, rfl, h⟩

end Stands

structure Fits (dst : Nat → String) (queue : List Nat) (c : Nat) (share : Share) : Prop where
  alone : ∀ t t', share.stage t ≠ none → share.stage t' ≠ none → t = t'
  acquiring : ∀ t, share.stage t ≠ none → share.status = .acquiring
  stands : ∀ t stage, share.stage t = some stage → Stands dst queue c stage
  holding : ∀ t, share.holds t = true → share.status = .locked
  single : ∀ t t', share.holds t = true → share.holds t' = true → t = t'
  first : share.status = .free ∨ share.status = .locked ∨ share.status = .releasing →
    queue.head? = some c
  absent : share.status = .none → c ∉ queue

structure Queued (dst : Nat → String) (shares : Nat → Share) (list : List String)
    (queue : List Nat) : Prop where
  nodup : queue.Nodup
  list : list = (queue.getLast?.map dst).toList
  fits : ∀ c, Fits dst queue c (shares c)
  /-- While the handler is in `dorelease`, the lock is RELEASING. -/
  releasing : ∀ c t x, (shares c).stage t = some (.calling (.revoking (dst x) .releasing)) →
    (shares x).status = .releasing

section Fits

variable {dst : Nat → String} {queue : List Nat} {c t : Nat} {share : Share}

/-- A lock that no thread of the client asks for or has. -/
theorem Fits.of_idle (hstage : ∀ t, share.stage t = none) (hholds : ∀ t, share.holds t = false)
    (hfirst : share.status = .free ∨ share.status = .locked ∨ share.status = .releasing →
      queue.head? = some c)
    (habsent : share.status = .none → c ∉ queue) : Fits dst queue c share where
  alone := fun t _ h _ => absurd (hstage t) h
  acquiring := fun t h => absurd (hstage t) h
  stands := by
    intro t stage h
    rw [hstage] at h
    cases h
  holding := by
    intro t h
    rw [hholds] at h
    cases h
  single := by
    intro t t' h _
    rw [hholds] at h
    cases h
  first := hfirst
  absent := habsent

theorem Fits.initial (lid : Nat) : Fits dst [] c (LockClientCache.new.share lid) := by
  apply Fits.of_idle
  · intro t
    rfl
  · intro t
    rfl
  · rintro (h | h | h) <;> cases h
  · intro _
    exact List.not_mem_nil

theorem Fits.stage_eq_none (h : Fits dst queue c share) (hstatus : share.status ≠ .acquiring)
    (t : Nat) : share.stage t = none := by
  by_contra hstage
  exact hstatus (h.acquiring t hstage)

theorem Fits.holds_eq_false (h : Fits dst queue c share) (hstatus : share.status ≠ .locked)
    (t : Nat) : share.holds t = false := by
  rw [← Bool.not_eq_true]
  intro hholds
  exact hstatus (h.holding t hholds)

/-- A lock that is NONE is asked for. -/
theorem Fits.request (h : Fits dst queue c share) (hstatus : share.status = .none) :
    Fits dst queue c ((share.setStatus .acquiring).setStage t (some (.calling .requested))) := by
  have honly : ∀ t', ((share.setStatus .acquiring).setStage t
      (some (.calling .requested))).stage t' ≠ none → t' = t := by
    intro t' hsome
    by_contra ht
    have hnone : share.stage t' = none := h.stage_eq_none (by simp [hstatus]) t'
    apply hsome
    simpa [Share.setStage, Share.setStatus, ht] using hnone
  constructor
  · intro t₁ t₂ h₁ h₂
    rw [honly t₁ h₁, honly t₂ h₂]
  · intro _ _
    rfl
  · intro t' stage hsome
    have ht : t' = t := honly t' (by simp [hsome])
    subst ht
    have hrequested : stage = .calling .requested := by
      simpa [Share.setStage] using hsome.symm
    rw [hrequested]
    exact .requested (h.absent hstatus)
  · intro t' hholds
    have hlocked := h.holding t' hholds
    rw [hstatus] at hlocked
    cases hlocked
  · exact h.single
  · rintro (hfree | hlocked | hreleasing)
    · cases hfree
    · cases hlocked
    · cases hreleasing
  · nofun

/-- A request gets on. -/
theorem Fits.proceed {queue' : List Nat} {old new : Stage} (h : Fits dst queue c share)
    (hstage : share.stage t = some old) (hnew : Stands dst queue' c new) :
    Fits dst queue' c (share.setStage t (some new)) := by
  have hacquiring : share.status = .acquiring := h.acquiring t (by simp [hstage])
  have honly : ∀ t', (share.setStage t (some new)).stage t' ≠ none → t' = t := by
    intro t' hsome
    by_contra ht
    have hother : share.stage t' ≠ none := by simpa [Share.setStage, ht] using hsome
    exact ht (h.alone t' t hother (by simp [hstage]))
  constructor
  · intro t₁ t₂ h₁ h₂
    rw [honly t₁ h₁, honly t₂ h₂]
  · intro _ _
    exact hacquiring
  · intro t' stage hsome
    have ht : t' = t := honly t' (by simp [hsome])
    subst ht
    have hstage' : stage = new := by simpa [Share.setStage] using hsome.symm
    rw [hstage']
    exact hnew
  · exact h.holding
  · exact h.single
  · intro hstatus
    have hcases : share.status = .free ∨ share.status = .locked ∨ share.status = .releasing :=
      hstatus
    rw [hacquiring] at hcases
    rcases hcases with hfree | hlocked | hreleasing
    · cases hfree
    · cases hlocked
    · cases hreleasing
  · intro hstatus
    have hnone : share.status = .none := hstatus
    rw [hacquiring] at hnone
    cases hnone

/-- `acquire` returns to the only thread that was in it. -/
theorem Fits.grant (h : Fits dst queue c share) (hhead : queue.head? = some c)
    (hstage : ∀ t', t' ≠ t → share.stage t' = none) (hstatus : share.status ≠ .locked) :
    Fits dst queue c (((share.setStatus .locked).setStage t none).setHolds t true) := by
  have hnone : ∀ t', (((share.setStatus .locked).setStage t none).setHolds t true).stage t' =
      none := by
    intro t'
    by_cases ht : t' = t
    · simp [Share.setStage, Share.setHolds, ht]
    · simpa [Share.setStage, Share.setHolds, Share.setStatus, ht] using hstage t' ht
  have honly : ∀ t', (((share.setStatus .locked).setStage t none).setHolds t true).holds t' =
      true → t' = t := by
    intro t' hholds
    by_contra ht
    have hheld : share.holds t' = true := by
      simpa [Share.setStage, Share.setHolds, Share.setStatus, ht] using hholds
    exact hstatus (h.holding t' hheld)
  constructor
  · intro t₁ _ h₁ _
    exact absurd (hnone t₁) h₁
  · intro t₁ h₁
    exact absurd (hnone t₁) h₁
  · intro t₁ stage h₁
    rw [hnone] at h₁
    cases h₁
  · intro _ _
    rfl
  · intro t₁ t₂ h₁ h₂
    rw [honly t₁ h₁, honly t₂ h₂]
  · intro _
    exact hhead
  · nofun

theorem Fits.release (h : Fits dst queue c share) (hholds : share.holds t = true) :
    Fits dst queue c ((share.setStatus .free).setHolds t false) := by
  have hlocked : share.status = .locked := h.holding t hholds
  apply Fits.of_idle
  · exact h.stage_eq_none (by simp [hlocked])
  · intro t'
    by_cases ht : t' = t
    · simp [Share.setHolds, ht]
    · rw [← Bool.not_eq_true]
      intro hheld
      have hother : share.holds t' = true := by
        simpa [Share.setHolds, Share.setStatus, ht] using hheld
      exact ht (h.single t' t hother hholds)
  · intro _
    exact h.first (.inr (.inl hlocked))
  · nofun

/-- The first critical section of `revoke_handler`. -/
theorem Fits.releasing (h : Fits dst queue c share) (hfree : share.status = .free) :
    Fits dst queue c (share.setStatus .releasing) := by
  apply Fits.of_idle
  · exact h.stage_eq_none (by simp [hfree])
  · exact h.holds_eq_false (by simp [hfree])
  · intro _
    exact h.first (.inl hfree)
  · nofun

/-- The second one. -/
theorem Fits.left {queue' : List Nat} (h : Fits dst queue c share)
    (hreleasing : share.status = .releasing) (habsent : c ∉ queue') :
    Fits dst queue' c (share.setStatus .none) := by
  apply Fits.of_idle
  · exact h.stage_eq_none (by simp [hreleasing])
  · exact h.holds_eq_false (by simp [hreleasing])
  · rintro (hfree | hlocked | hreleasing)
    · cases hfree
    · cases hlocked
    · cases hreleasing
  · intro _
    exact habsent

/-- The place in the queue of a client is all that matters to it. -/
theorem Fits.of_queue {queue' : List Nat} (h : Fits dst queue c share)
    (hstands : ∀ stage, Stands dst queue c stage → Stands dst queue' c stage)
    (hhead : queue.head? = some c → queue'.head? = some c) (habsent : c ∉ queue → c ∉ queue') :
    Fits dst queue' c share where
  alone := h.alone
  acquiring := h.acquiring
  stands := fun t stage hstage => hstands stage (h.stands t stage hstage)
  holding := h.holding
  single := h.single
  first := fun hstatus => hhead (h.first hstatus)
  absent := fun hstatus => habsent (h.absent hstatus)

theorem Fits.join {x : Nat} (h : Fits dst queue c share) (hne : c ≠ x) :
    Fits dst (queue ++ [x]) c share := by
  have hhead : queue.head? = some c → (queue ++ [x]).head? = some c := by
    intro hhead
    rw [List.head?_append, hhead, Option.some_or]
  have habsent : c ∉ queue → c ∉ queue ++ [x] := by simp [hne]
  apply h.of_queue _ hhead habsent
  intro stage hstands
  cases hstands with
  | requested h => exact .requested (habsent h)
  | waiting y h => exact .waiting y (h.append [x])
  | releasing y rest h => exact .releasing y (rest ++ [x]) (by rw [h]; rfl)
  | revoked client h => exact .revoked client (hhead h)
  | answered h => exact .answered (hhead h)

theorem Fits.leave {x y : Nat} {rest : List Nat} (h : Fits dst (x :: y :: rest) c share)
    (hx : c ≠ x) (hy : c ≠ y) : Fits dst (y :: rest) c share := by
  have hhead : (x :: y :: rest).head? = some c → (y :: rest).head? = some c := by
    intro hhead
    exact absurd (Option.some.inj hhead).symm hx
  have habsent : c ∉ x :: y :: rest → c ∉ y :: rest := by
    intro hmem hrest
    exact hmem (List.mem_cons_of_mem x hrest)
  apply h.of_queue _ hhead habsent
  intro stage hstands
  cases hstands with
  | requested h => exact .requested (habsent h)
  | waiting z h => exact .waiting z (h.of_leave hy)
  | releasing z others h =>
      have hsecond : y = c := by injection h with _ h; injection h
      exact absurd hsecond.symm hy
  | revoked client h => exact .revoked client (hhead h)
  | answered h => exact .answered (hhead h)

end Fits

/-! ## 3. One lock -/

section Queued

variable {dst : Nat → String} {shares : Nat → Share} {list : List String} {queue : List Nat}
  {c t x : Nat} {share : Share}

theorem Queued.initial (lid : Nat) :
    Queued dst (fun _ => LockClientCache.new.share lid) [] [] where
  nodup := List.nodup_nil
  list := rfl
  fits := fun _ => Fits.initial lid
  releasing := nofun

/-- A step that changes one client, and perhaps its place. -/
theorem Queued.replace {list' : List String} {queue' : List Nat} (h : Queued dst shares list queue)
    (hnodup : queue'.Nodup) (hlist : list' = (queue'.getLast?.map dst).toList)
    (hothers : ∀ c', c' ≠ c → Fits dst queue' c' (shares c')) (hfits : Fits dst queue' c share)
    (hstatus : (shares c).status ≠ .releasing)
    (hstage : ∀ t client, share.stage t = some (.calling (.revoking client .releasing)) →
      (shares c).stage t = some (.calling (.revoking client .releasing))) :
    Queued dst (Function.update shares c share) list' queue' where
  nodup := hnodup
  list := hlist
  fits := by
    intro c'
    by_cases hc : c' = c
    · subst hc
      rw [Function.update_self]
      exact hfits
    · rw [Function.update_of_ne hc]
      exact hothers c' hc
  releasing := by
    intro c' t x hreleasing
    have hold : (shares c').stage t = some (.calling (.revoking (dst x) .releasing)) := by
      by_cases hc : c' = c
      · subst hc
        rw [Function.update_self] at hreleasing
        exact hstage t (dst x) hreleasing
      · rwa [Function.update_of_ne hc] at hreleasing
    have hx : x ≠ c := by
      rintro rfl
      exact hstatus (h.releasing c' t x hold)
    rw [Function.update_of_ne hx]
    exact h.releasing c' t x hold

theorem Queued.update (h : Queued dst shares list queue) (hfits : Fits dst queue c share)
    (hstatus : (shares c).status ≠ .releasing)
    (hstage : ∀ t client, share.stage t = some (.calling (.revoking client .releasing)) →
      (shares c).stage t = some (.calling (.revoking client .releasing))) :
    Queued dst (Function.update shares c share) list queue :=
  h.replace h.nodup h.list (fun c' _ => h.fits c') hfits hstatus hstage

theorem Queued.status_ne_releasing (h : Queued dst shares list queue)
    {stage : Stage} (hstage : (shares c).stage t = some stage) :
    (shares c).status ≠ .releasing := by
  simp [(h.fits c).acquiring t (by simp [hstage])]

/-- The handler that is in `dorelease` is the one of the second request. -/
theorem Queued.second (h : Queued dst shares list queue) (hdst : Function.Injective dst)
    (hstage : (shares c).stage t = some (.calling (.revoking (dst x) .releasing))) :
    ∃ rest, queue = x :: c :: rest := by
  obtain ⟨x', rest, hx, hqueue⟩ := ((h.fits c).stands t _ hstage).second
  rw [← hdst hx] at hqueue
  exact ⟨rest, hqueue⟩

theorem Queued.request (h : Queued dst shares list queue) (hstatus : (shares c).status = .none) :
    Queued dst (Function.update shares c
      (((shares c).setStatus .acquiring).setStage t (some (.calling .requested)))) list queue := by
  apply h.update ((h.fits c).request hstatus)
  · simp [hstatus]
  · intro t' client hstage
    by_cases ht : t' = t
    · subst ht
      simp [Share.setStage] at hstage
    · simpa [Share.setStage, Share.setStatus, ht] using hstage

theorem Queued.grant (h : Queued dst shares list queue) (hhead : queue.head? = some c)
    (hothers : ∀ t', t' ≠ t → (shares c).stage t' = none)
    (hstatus : (shares c).status = .free ∨ (shares c).status = .acquiring) :
    Queued dst (Function.update shares c
      ((((shares c).setStatus .locked).setStage t none).setHolds t true)) list queue := by
  apply h.update ((h.fits c).grant hhead hothers _)
  · rcases hstatus with hstatus | hstatus <;> simp [hstatus]
  · intro t' client hstage
    by_cases ht : t' = t
    · subst ht
      simp [Share.setStage, Share.setHolds] at hstage
    · simpa [Share.setStage, Share.setHolds, Share.setStatus, ht] using hstage
  · rcases hstatus with hstatus | hstatus <;> simp [hstatus]

theorem Queued.release (h : Queued dst shares list queue) (hholds : (shares c).holds t = true) :
    Queued dst (Function.update shares c (((shares c).setStatus .free).setHolds t false)) list
      queue := by
  apply h.update ((h.fits c).release hholds)
  · simp [(h.fits c).holding t hholds]
  · intro t' client hstage
    exact hstage

/-- The answer to a revoke has arrived. -/
theorem Queued.answered {client : String} (h : Queued dst shares list queue)
    (hstage : (shares c).stage t = some (.calling (.revoking client (.answered .ok)))) :
    Queued dst (Function.update shares c
      ((shares c).setStage t (some (.calling (.answered .ok))))) list queue := by
  have hhead : queue.head? = some c := by
    cases (h.fits c).stands t _ hstage with
    | revoked client hhead => exact hhead
  apply h.update ((h.fits c).proceed hstage (.answered hhead))
  · exact h.status_ne_releasing hstage
  · intro t' client hreleasing
    by_cases ht : t' = t
    · subst ht
      simp [Share.setStage] at hreleasing
    · simpa [Share.setStage, ht] using hreleasing

/-- The server executes a request: the client joins the queue. -/
theorem Queued.join {call : Call} (h : Queued dst shares list queue)
    (hstage : (shares c).stage t = some (.calling .requested))
    (hstands : Stands dst (queue ++ [c]) c (.calling call))
    (hcall : ∀ client, call ≠ .revoking client .releasing) :
    Queued dst (Function.update shares c ((shares c).setStage t (some (.calling call)))) [dst c]
      (queue ++ [c]) := by
  have habsent : c ∉ queue := by
    cases (h.fits c).stands t _ hstage with
    | requested habsent => exact habsent
  apply h.replace
  · exact (Advances.join habsent).nodup h.nodup
  · simp
  · intro c' hc
    exact (h.fits c').join hc
  · exact (h.fits c).proceed hstage hstands
  · exact h.status_ne_releasing hstage
  · intro t' client hreleasing
    by_cases ht : t' = t
    · subst ht
      have hcall' : call = .revoking client .releasing := by
        simpa [Share.setStage] using hreleasing
      exact absurd hcall' (hcall client)
    · simpa [Share.setStage, ht] using hreleasing

/-- A step of `revoke_handler` changes the status at the client and the stage of the one request
    that it is called for. -/
theorem stage_handled {c' t' : Nat} (shares : Nat → Share) (x : Nat) (status : LockStatus)
    (stage : Option Stage) (hne : ¬ (c' = c ∧ t' = t)) :
    (Function.update (Function.update shares x ((shares x).setStatus status)) c
      ((shares c).setStage t stage) c').stage t' = (shares c').stage t' := by
  by_cases hc : c' = c
  · subst hc
    have ht : t' ≠ t := fun ht => hne ⟨rfl, ht⟩
    simp [Share.setStage, ht]
  · rw [Function.update_of_ne hc]
    by_cases hx : c' = x
    · subst hx
      rw [Function.update_self]
      rfl
    · rw [Function.update_of_ne hx]

/-- `revoke_handler` finds the lock FREE. -/
theorem Queued.releases (h : Queued dst shares list queue) (hdst : Function.Injective dst)
    (hstage : (shares c).stage t = some (.calling (.revoking (dst x) .waiting)))
    (hfree : (shares x).status = .free) :
    x ≠ c ∧ Queued dst
      (Function.update (Function.update shares x ((shares x).setStatus .releasing)) c
        ((shares c).setStage t (some (.calling (.revoking (dst x) .releasing))))) list queue := by
  have hacquiring : (shares c).status = .acquiring :=
    (h.fits c).acquiring t (by simp [hstage])
  have hx : x ≠ c := by
    rintro rfl
    rw [hfree] at hacquiring
    cases hacquiring
  have hsecond : ∃ rest, queue = x :: c :: rest := by
    obtain ⟨x', hx', hfollows⟩ := ((h.fits c).stands t _ hstage).follows
    rw [← hdst hx'] at hfollows
    exact hfollows.of_head h.nodup ((h.fits x).first (.inl hfree))
  refine ⟨hx, h.nodup, h.list, ?_, ?_⟩
  · intro c'
    by_cases hc : c' = c
    · subst hc
      rw [Function.update_self]
      obtain ⟨rest, hqueue⟩ := hsecond
      exact (h.fits c').proceed hstage (.releasing x rest hqueue)
    · rw [Function.update_of_ne hc]
      by_cases hx' : c' = x
      · subst hx'
        rw [Function.update_self]
        exact (h.fits c').releasing hfree
      · rw [Function.update_of_ne hx']
        exact h.fits c'
  · intro c' t' z hreleasing
    by_cases hct : c' = c ∧ t' = t
    · obtain ⟨rfl, rfl⟩ := hct
      have hz : x = z := hdst (by simpa [Share.setStage] using hreleasing)
      rw [← hz, Function.update_of_ne hx, Function.update_self]
      rfl
    · -- No other request can be this far: it would be the second one and revoke the first.
      rw [stage_handled shares x _ _ hct] at hreleasing
      obtain ⟨rest, hqueue⟩ := hsecond
      obtain ⟨rest', hqueue'⟩ := h.second hdst hreleasing
      have hz : x = z := by
        rw [hqueue] at hqueue'
        injection hqueue'
      have hstatus := h.releasing c' t' z hreleasing
      rw [← hz, hfree] at hstatus
      cases hstatus

/-- `revoke_handler` is done: the client leaves the queue. -/
theorem Queued.leaves (h : Queued dst shares list queue) (hdst : Function.Injective dst)
    (hstage : (shares c).stage t = some (.calling (.revoking (dst x) .releasing))) :
    ∃ rest, queue = x :: c :: rest ∧ Queued dst
      (Function.update (Function.update shares x ((shares x).setStatus .none)) c
        ((shares c).setStage t (some (.calling (.revoking (dst x) (.answered .ok)))))) list
      (c :: rest) := by
  obtain ⟨rest, rfl⟩ := h.second hdst hstage
  have hnodup := List.nodup_cons.mp h.nodup
  refine ⟨rest, rfl, hnodup.2, ?_, ?_, ?_⟩
  · rw [h.list, List.getLast?_cons_cons]
  · intro c'
    by_cases hc : c' = c
    · subst hc
      rw [Function.update_self]
      exact (h.fits c').proceed hstage (.revoked (dst x) rfl)
    · rw [Function.update_of_ne hc]
      by_cases hx' : c' = x
      · subst hx'
        rw [Function.update_self]
        exact (h.fits c').left (h.releasing c t c' hstage) hnodup.1
      · rw [Function.update_of_ne hx']
        exact (h.fits c').leave hx' hc
  · intro c' t' z hreleasing
    by_cases hct : c' = c ∧ t' = t
    · obtain ⟨rfl, rfl⟩ := hct
      simp [Share.setStage] at hreleasing
    · rw [stage_handled shares x _ _ hct] at hreleasing
      obtain ⟨rest', hqueue'⟩ := h.second hdst hreleasing
      have hc : c = c' := by
        injection hqueue' with _ hqueue'
        injection hqueue'
      subst hc
      have ht : t' = t :=
        (h.fits c).alone t' t (by simp [hreleasing]) (by simp [hstage])
      exact absurd ⟨rfl, ht⟩ hct

end Queued

end DistributedLab.LockCache
