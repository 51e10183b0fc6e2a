import DistributedLab.LockInvariant

/-!
# Mutual exclusion

Every step keeps the invariant as long as the xids do not wrap, so no two threads have
the same lock.

`xid_t` has 64 bits.  After 2^64 - 1 requests `++xid` is 0, which is the entry of
`client_lock_id` for a lock that the client has never returned.  The server takes the
request for a repetition and answers OK, whoever has the lock.
-/

namespace DistributedLab.Lock

open Transition

/-! ## 1. Steps of the server

A request that is executed for the first time may be the one that a thread waits for;
every other execution is a repetition.  The server tells them apart by the xid. -/

section Server

variable {dst : Nat → String} {s : LockSystem} {req : LockRequest}

theorem LockSystem.mem_replies {discard : Bool} {out : LockServer × Status}
    {reply : LockRequest × Status} (h : reply ∈ (s.onServer req discard out).replies) :
    reply = (req, out.2) ∨ reply ∈ s.replies := by
  cases discard with
  | true => exact .inr h
  | false => exact List.mem_cons.mp h

/-- The client does not move, and the server does not move with respect to the lock. -/
theorem Sound.serve {addr : String} {c lid : Nat} {client : LockClient}
    {server server' : LockServer} {requests : List LockRequest}
    {replies replies' : List (LockRequest × Status)}
    (h : Sound addr c lid client server requests replies)
    (hlast : server'.clientLockId c lid = server.clientLockId c lid)
    (hgranted : server.Granted addr lid → server'.Granted addr lid)
    (habsent : client.status lid = .none ∨
        client.releaser = .calling lid (server.clientLockId c lid) →
      addr ∉ server.lockClientList lid → addr ∉ server'.lockClientList lid)
    (hok : ∀ req, (req, .ok) ∈ replies' → req.Is .acquire c lid →
      ∀ t, client.thread t = .calling lid req.xid →
        (req, .ok) ∈ replies ∨ server'.Granted addr lid)
    (hdone : ∀ req status, (req, status) ∈ replies' → req.Is .release c lid →
      (req, status) ∈ replies ∨ req.xid ≤ server.clientLockId c lid) :
    Sound addr c lid client server' requests replies' :=
  h.same le_rfl rfl (fun _ ht => ht) (fun _ _ ht => ht) (fun _ => rfl) (fun _ => rfl) hlast
    hgranted habsent (fun _ hreq _ _ => hreq) hok hdone

/-- The request is about another lock or from another client. -/
theorem Sound.serve_other {addr : String} {c lid : Nat} {client : LockClient}
    {server server' : LockServer} {requests : List LockRequest}
    {replies replies' : List (LockRequest × Status)} {status : Status}
    (h : Sound addr c lid client server requests replies)
    (hother : ¬ (c = req.clt ∧ lid = req.lid))
    (hreplies : ∀ reply ∈ replies', reply = (req, status) ∨ reply ∈ replies)
    (hlast : server'.clientLockId c lid = server.clientLockId c lid)
    (hgranted : server.Granted addr lid → server'.Granted addr lid)
    (habsent : addr ∉ server.lockClientList lid → addr ∉ server'.lockClientList lid) :
    Sound addr c lid client server' requests replies' := by
  have hold : ∀ op req' status', (req', status') ∈ replies' → req'.Is op c lid →
      (req', status') ∈ replies := by
    intro op req' status' hreply his
    rcases hreplies _ hreply with heq | hmem
    · cases heq
      exact absurd ⟨his.2.1.symm, his.2.2.symm⟩ hother
    · exact hmem
  apply h.serve hlast hgranted (fun _ => habsent)
  · exact fun req' hreply his _ _ => .inl (hold _ req' .ok hreply his)
  · exact fun req' status' hreply his => .inl (hold _ req' status' hreply his)

theorem LockSystem.Consistent.server (h : s.Consistent dst) (hreq : req ∈ s.requests)
    {discard : Bool} {out : LockServer × Status}
    (hnodup : ∀ lid, (out.1.lockClientList lid).Nodup)
    (hsound : ∀ c lid, Sound (dst c) c lid (s.client c) out.1 s.requests
      (s.onServer req discard out).replies) :
    (s.onServer req discard out).Consistent dst := by
  refine ⟨hnodup, h.issued, ?_, hsound⟩
  intro reply hreply
  rcases LockSystem.mem_replies hreply with rfl | hold
  · exact h.issued req hreq
  · exact h.replied reply hold

/-- A request that is put into the queue does not take the lock from the client at the front. -/
theorem LockServer.Granted.queued {s t : LockServer} {lid l : Nat} {addr client : String}
    (hlist : t.lockClientList =
      Function.update s.lockClientList l (enlist (s.lockClientList l) client))
    (hlocks : t.locks = s.locks ∨ t.locks = Function.update s.locks l (some true))
    (h : s.Granted addr lid) : t.Granted addr lid := by
  obtain ⟨hfront, htrue⟩ := h
  by_cases hlid : lid = l
  · subst hlid
    constructor
    · rw [hlist, Function.update_self]
      exact head?_enlist hfront
    · rcases hlocks with heq | heq
      · rw [heq, htrue]
      · rw [heq, Function.update_self]
  · constructor
    · rw [hlist, Function.update_of_ne hlid, hfront]
    · rcases hlocks with heq | heq
      · rw [heq, htrue]
      · rw [heq, Function.update_of_ne hlid, htrue]

/-- `acquire` at the server. -/
theorem LockSystem.Consistent.acquire (h : s.Consistent dst) (hdst : Function.Injective dst)
    (hreq : req ∈ s.requests) (hop : req.op = .acquire) {discard : Bool}
    {out : LockServer × Status}
    (hout : s.server.Acquired req.clt req.lid (dst req.clt) req.xid out) :
    (s.onServer req discard out).Consistent dst := by
  have hdone : ∀ c lid req' status, (req', status) ∈ (s.onServer req discard out).replies →
      req'.Is .release c lid → (req', status) ∈ s.replies := by
    intro c lid req' status hreply his
    rcases LockSystem.mem_replies hreply with heq | hold
    · cases heq
      cases hop.symm.trans his.1
    · exact hold
  cases hout with
  | stale hle =>
      apply h.server hreq h.nodup
      intro c lid
      apply (h.sound c lid).serve rfl (fun hgranted => hgranted) (fun _ hnot => hnot)
      · intro req' hreply his t ht
        left
        rcases LockSystem.mem_replies hreply with heq | hold
        · -- the call that a thread waits for is not a repetition
          cases heq
          obtain ⟨-, rfl, rfl⟩ := his
          exact absurd hle (Nat.not_le.mpr ((h.sound _ _).live t _ ht))
        · exact hold
      · exact fun req' status hreply his => .inl (hdone c lid req' status hreply his)
  | queued server status hlt hlist hid hlocks hok =>
      apply h.server hreq
      · intro lid
        change (server.lockClientList lid).Nodup
        rw [hlist]
        by_cases hlid : lid = req.lid
        · subst hlid
          rw [Function.update_self]
          exact nodup_enlist (h.nodup _)
        · rw [Function.update_of_ne hlid]
          exact h.nodup lid
      · intro c lid
        have hlast : server.clientLockId c lid = s.server.clientLockId c lid := by
          rw [hid]
        by_cases hown : c = req.clt ∧ lid = req.lid
        · obtain ⟨rfl, rfl⟩ := hown
          apply (h.sound req.clt req.lid).serve hlast (LockServer.Granted.queued hlist hlocks)
          · -- a client that does not want the lock has no new request
            obtain ⟨hnone, hcalling⟩ := (h.sound _ _).acquires req hreq ⟨hop, rfl, rfl⟩ hlt
            rintro (hstatus | hreleaser)
            · exact absurd hstatus hnone
            · exact absurd hreleaser hcalling
          · intro req' hreply _ _ _
            rcases LockSystem.mem_replies hreply with heq | hold
            · cases heq
              exact .inr (hok rfl)
            · exact .inl hold
          · exact fun req' status' hreply his => .inl (hdone _ _ req' status' hreply his)
        · apply (h.sound c lid).serve_other hown (fun _ => LockSystem.mem_replies) hlast
            (LockServer.Granted.queued hlist hlocks)
          intro hnot
          rw [hlist]
          by_cases hlid : lid = req.lid
          · subst hlid
            rw [Function.update_self, mem_enlist]
            rintro (hmem | heq)
            · exact hnot hmem
            · exact hown ⟨hdst heq, rfl⟩
          · rw [Function.update_of_ne hlid]
            exact hnot

theorem not_mem_tail_of_head? {list : List String} {addr : String} (h : list.Nodup)
    (hfront : list.head? = some addr) : addr ∉ list.tail := by
  cases list with
  | nil => cases hfront
  | cons first rest =>
      obtain rfl : first = addr := Option.some_injective _ hfront
      exact (List.nodup_cons.mp h).1

/-- The client whose `release` takes it out of the queue. -/
theorem Sound.popped {addr : String} {c lid y : Nat} {client : LockClient}
    {server server' : LockServer} {requests : List LockRequest}
    {replies replies' : List (LockRequest × Status)}
    (h : Sound addr c lid client server requests replies)
    (hreleaser : client.releaser = .calling lid y) (hxid : y ≤ client.xid)
    (hlt : server.clientLockId c lid < y)
    (hlast : server'.clientLockId c lid = y) (hnot : addr ∉ server'.lockClientList lid)
    (hdone : ∀ req status, (req, status) ∈ replies' → req.Is .release c lid →
      (req, status) ∈ replies ∨ req.xid ≤ y) :
    Sound addr c lid client server' requests replies' := by
  have hreleasing := h.releasing.mpr (releases_of_calling hreleaser)
  have hthreads := h.not_acquires (by simp [hreleasing])
  constructor
  · exact h.acquiring
  · exact h.alone
  · exact h.holding
  · exact h.single
  · exact h.releasing
  · simp [hreleasing]
  · exact fun _ => hnot
  · rw [hreleaser]
    exact nofun
  · intro y' hy'
    rw [hreleaser] at hy'
    cases hy'
    exact .inr ⟨hlast, hnot⟩
  · rw [hlast]
    exact hxid
  · exact fun t x ht => absurd ht (Thread.ne_calling (hthreads t) x)
  · intro req hreq his hafter
    rw [hlast] at hafter
    exact absurd (h.older y hreleaser req hreq his) (Nat.not_le.mpr hafter)
  · intro req hreq his
    rw [hlast]
    rcases h.releases req hreq his with hle | heq
    · exact .inl (hle.trans hlt.le)
    · exact .inr heq
  · exact h.older
  · exact fun req _ _ t ht => absurd ht (Thread.ne_calling (hthreads t) req.xid)
  · intro req status hreply his
    rw [hlast]
    rcases hdone req status hreply his with hold | hle
    · exact (h.done req status hold his).trans hlt.le
    · exact hle

/-- A `release` that is not a repetition comes from a releaser that waits for it, and the client
    has the lock. -/
theorem LockSystem.Consistent.releaser_of_release (h : s.Consistent dst)
    (hreq : req ∈ s.requests) (hop : req.op = .release)
    (hlt : s.server.clientLockId req.clt req.lid < req.xid) :
    (s.client req.clt).releaser = .calling req.lid req.xid ∧
      s.server.Granted (dst req.clt) req.lid := by
  have hsound := h.sound req.clt req.lid
  rcases hsound.releases req hreq ⟨hop, rfl, rfl⟩ with hle | hreleaser
  · exact absurd hle (Nat.not_le.mpr hlt)
  · refine ⟨hreleaser, ?_⟩
    rcases hsound.sent req.xid hreleaser with ⟨-, hgranted⟩ | ⟨heq, -⟩
    · exact hgranted
    · exact absurd heq hlt.ne

/-- `release` at the server. -/
theorem LockSystem.Consistent.release (h : s.Consistent dst) (hdst : Function.Injective dst)
    (hreq : req ∈ s.requests) (hop : req.op = .release) {discard : Bool}
    {out : LockServer × Status} (hout : s.server.Released req.clt req.lid req.xid out) :
    (s.onServer req discard out).Consistent dst := by
  cases hout with
  | stale hle =>
      apply h.server hreq h.nodup
      intro c lid
      apply (h.sound c lid).serve rfl (fun hgranted => hgranted) (fun _ hnot => hnot)
      · intro req' hreply his _ _
        rcases LockSystem.mem_replies hreply with heq | hmem
        · cases heq
          cases hop.symm.trans his.1
        · exact .inl hmem
      · intro req' status hreply his
        rcases LockSystem.mem_replies hreply with heq | hmem
        · cases heq
          obtain ⟨-, rfl, rfl⟩ := his
          exact .inr hle
        · exact .inl hmem
  | popped server hlt hlist hid hlocks =>
      obtain ⟨hreleaser, hfront, -⟩ := h.releaser_of_release hreq hop hlt
      have htail : server.lockClientList req.lid = (s.server.lockClientList req.lid).tail := by
        rw [hlist, Function.update_self]
      have hlists : ∀ lid, lid ≠ req.lid →
          server.lockClientList lid = s.server.lockClientList lid := by
        intro lid hlid
        rw [hlist, Function.update_of_ne hlid]
      apply h.server hreq
      · intro lid
        change (server.lockClientList lid).Nodup
        by_cases hlid : lid = req.lid
        · rw [hlid, htail]
          exact (h.nodup _).tail
        · rw [hlists lid hlid]
          exact h.nodup lid
      · intro c lid
        by_cases hown : c = req.clt ∧ lid = req.lid
        · obtain ⟨rfl, rfl⟩ := hown
          apply (h.sound req.clt req.lid).popped hreleaser (h.issued req hreq) hlt
          · rw [hid, Function.update_self, Function.update_self]
          · rw [htail]
            exact not_mem_tail_of_head? (h.nodup req.lid) hfront
          · intro req' status hreply his
            rcases LockSystem.mem_replies hreply with heq | hmem
            · cases heq
              exact .inr le_rfl
            · exact .inl hmem
        · apply (h.sound c lid).serve_other hown (fun _ => LockSystem.mem_replies)
          · rw [hid]
            by_cases hc : c = req.clt
            · rw [hc, Function.update_self, Function.update_of_ne (fun hlid => hown ⟨hc, hlid⟩)]
            · rw [Function.update_of_ne hc]
          · rintro ⟨hhead, htrue⟩
            by_cases hlid : lid = req.lid
            · -- another client is at the front
              rw [hlid, hfront] at hhead
              exact absurd ⟨hdst (Option.some_injective _ hhead).symm, hlid⟩ hown
            · constructor
              · rw [hlists lid hlid, hhead]
              · rw [hlocks, Function.update_of_ne hlid, htrue]
          · intro hnot
            by_cases hlid : lid = req.lid
            · rw [hlid, htail]
              exact fun hmem => hnot (hlid ▸ List.mem_of_mem_tail hmem)
            · rw [hlists lid hlid]
              exact hnot

end Server

/-! ## 2. Whole runs -/

/-- The next `++xid` does not wrap. -/
def LockSystem.unwrapped (s : LockSystem) : LockSystem.Action → Bool
  | .send c _ => decide ((s.client c).xid + 1 < xidBound)
  | .sendRelease c => decide ((s.client c).xid + 1 < xidBound)
  | _ => true

section Steps

variable {dst : Nat → String} {s : LockSystem} {c t lid : Nat} {next : LockClient}

theorem LockClient.nextXid_of_lt {client : LockClient} (h : client.xid + 1 < xidBound) :
    client.nextXid = client.xid + 1 :=
  Nat.mod_eq_of_lt h

theorem LockSystem.Consistent.enter (h : s.Consistent dst)
    (hnext : (s.client c).enter t lid = some next) : (s.onClient c next []).Consistent dst := by
  unfold LockClient.enter at hnext
  split_ifs at hnext
  cases hnext
  apply h.quiet
  · exact le_rfl
  · intro l
    apply (LockClient.keeps_setThread _ t _ _).trans (LockClient.keeps_fields _ _ _)
    · exact nofun
    · exact nofun

theorem LockSystem.Consistent.test (h : s.Consistent dst)
    (hnext : (s.client c).test t = some next) : (s.onClient c next []).Consistent dst := by
  unfold LockClient.test at hnext
  split at hnext
  case h_1 lid hthread =>
    split at hnext
    case h_1 hnone =>
      cases hnext
      apply h.client
      · exact le_rfl
      · intro other hne
        apply (LockClient.keeps_setStatus _ hne _).trans (LockClient.keeps_setThread _ t _ _)
        · exact fun hacquires => absurd (beq_iff_eq.mp hacquires).symm hne
        · exact nofun
      · exact nofun
      · exact (h.sound c lid).test hnone t
    case h_2 hfree =>
      cases hnext
      have hsound := h.sound c lid
      apply h.client
      · exact le_rfl
      · exact fun other hne => LockClient.keeps_granted _ t hne
      · exact nofun
      · apply hsound.grant t
        · simp [hfree]
        · exact fun t' _ => hsound.not_acquires (by simp [hfree]) t'
        · exact hsound.granted (.inl hfree)
    case h_3 => cases hnext
  case h_2 => cases hnext

theorem LockSystem.Consistent.send (h : s.Consistent dst) {x : Nat}
    (hxid : (s.client c).xid + 1 < xidBound) (hnext : (s.client c).send t = some (next, lid, x)) :
    (s.onClient c next [⟨.acquire, c, lid, x⟩]).Consistent dst := by
  unfold LockClient.send at hnext
  split at hnext
  case h_1 l hthread =>
    rw [LockClient.nextXid_of_lt hxid] at hnext
    cases hnext
    apply h.client
    · exact Nat.le_succ _
    · intro other hne
      apply (LockClient.keeps_setThread _ t _ _).trans (LockClient.keeps_fields _ _ _)
      · exact fun hacquires => absurd (beq_iff_eq.mp hacquires).symm hne
      · intro x hx
        cases hx
        exact hne rfl
    · intro req hreq
      obtain rfl := List.mem_singleton.mp hreq
      exact ⟨rfl, rfl, le_rfl⟩
    · apply (h.sound c lid).send hthread (Nat.lt_succ_self _)
      rintro req status hreply rfl
      exact h.replied (req, status) hreply
  case h_2 => cases hnext

theorem LockSystem.Consistent.answered (h : s.Consistent dst) {reply : LockRequest × Status}
    (hreply : reply ∈ s.replies) (hop : reply.1.op = .acquire) (hclt : reply.1.clt = c)
    (hnext : (s.client c).answered t reply.1.lid reply.1.xid (reply.2 == .retry) = some next) :
    (s.onClient c next []).Consistent dst := by
  unfold LockClient.answered at hnext
  split_ifs at hnext with hcalling hretry
  · cases hnext
    apply h.quiet
    · exact le_rfl
    · intro l
      apply LockClient.keeps_setThread
      · intro hacquires
        rw [hcalling]
        exact hacquires
      · exact nofun
  · cases hnext
    obtain ⟨req, status⟩ := reply
    obtain rfl : status = .ok := by
      cases status with
      | ok => rfl
      | retry => exact absurd rfl hretry
    have hsound := h.sound c req.lid
    have hacquires := acquires_of_calling hcalling
    apply h.client
    · exact le_rfl
    · exact fun other hne => LockClient.keeps_granted _ t hne
    · exact nofun
    · apply hsound.grant t
      · rcases hsound.acquiring t hacquires with heq | heq <;> simp [heq]
      · intro t' hne
        rw [← Bool.not_eq_true]
        exact fun hother => hne (hsound.alone t' t hother hacquires)
      · exact hsound.ok req hreply ⟨hop, hclt, rfl⟩ t hcalling

theorem LockSystem.Consistent.again (h : s.Consistent dst)
    (hnext : (s.client c).again t = some next) : (s.onClient c next []).Consistent dst := by
  unfold LockClient.again at hnext
  split at hnext
  case h_1 lid hthread =>
    split_ifs at hnext
    cases hnext
    apply h.quiet
    · exact le_rfl
    · intro l
      apply LockClient.keeps_setThread
      · intro hacquires
        rw [hthread]
        exact hacquires
      · exact nofun
  case h_2 => cases hnext

theorem LockSystem.Consistent.free (h : s.Consistent dst)
    (hnext : (s.client c).release t lid = some next) : (s.onClient c next []).Consistent dst := by
  unfold LockClient.release at hnext
  split_ifs at hnext with hholds
  cases hnext
  apply h.client
  · exact le_rfl
  · exact fun other hne => (LockClient.keeps_setStatus _ hne _).trans
      (LockClient.keeps_setHolds _ t hne _)
  · exact nofun
  · exact (h.sound c lid).release hholds.2

theorem LockSystem.Consistent.wake (h : s.Consistent dst) (c : Nat) :
    (s.onClient c (s.client c).wake []).Consistent dst := by
  unfold LockClient.wake
  split
  case h_1 key hresting hkey =>
    apply h.quiet
    · exact le_rfl
    · intro l
      apply LockClient.keeps_releaser
      · rw [hresting]
        rfl
      · rfl
  case h_2 =>
    apply h.quiet
    · exact le_rfl
    · exact fun l => LockClient.keeps_fields _ _ _

theorem LockClient.releases_visitAfter (client : LockClient) (lid l : Nat) :
    (client.visitAfter lid).releases l = false := by
  unfold LockClient.visitAfter
  split <;> rfl

theorem LockSystem.Consistent.visit (h : s.Consistent dst)
    (hnext : (s.client c).visit = some next) : (s.onClient c next []).Consistent dst := by
  unfold LockClient.visit at hnext
  split at hnext
  case h_1 lid hvisiting =>
    have hbefore : ∀ l, (s.client c).releaser.releases l = false := by
      intro l
      rw [hvisiting]
      rfl
    split at hnext
    case h_1 hfree =>
      cases hnext
      apply h.client
      · exact le_rfl
      · intro other hne
        apply (LockClient.keeps_setStatus _ hne _).trans (LockClient.keeps_releaser _ _ _)
        · exact hbefore other
        · exact beq_false_of_ne hne.symm
      · exact nofun
      · exact (h.sound c lid).visit hfree
    case h_2 =>
      cases hnext
      apply h.quiet
      · exact le_rfl
      · exact fun l => LockClient.keeps_releaser _ (hbefore l)
          (LockClient.releases_visitAfter _ lid l)
    case h_3 => cases hnext
  case h_2 => cases hnext

theorem LockSystem.Consistent.sendRelease (h : s.Consistent dst) {y : Nat}
    (hxid : (s.client c).xid + 1 < xidBound)
    (hnext : (s.client c).sendRelease = some (next, lid, y)) :
    (s.onClient c next [⟨.release, c, lid, y⟩]).Consistent dst := by
  unfold LockClient.sendRelease at hnext
  split at hnext
  case h_1 l hsending =>
    rw [LockClient.nextXid_of_lt hxid] at hnext
    cases hnext
    apply h.client
    · exact Nat.le_succ _
    · intro other hne
      apply (LockClient.keeps_fields _ _ _).trans (LockClient.keeps_releaser _ _ _)
      · rw [hsending]
        exact beq_false_of_ne hne.symm
      · exact beq_false_of_ne hne.symm
    · intro req hreq
      obtain rfl := List.mem_singleton.mp hreq
      exact ⟨rfl, rfl, le_rfl⟩
    · apply (h.sound c lid).sendRelease hsending (Nat.lt_succ_self _)
      rintro req hreq rfl
      exact h.issued req hreq
  case h_2 => cases hnext

theorem LockSystem.Consistent.released (h : s.Consistent dst) {reply : LockRequest × Status}
    (hreply : reply ∈ s.replies) (hop : reply.1.op = .release) (hclt : reply.1.clt = c)
    (hnext : (s.client c).released reply.1.lid reply.1.xid = some next) :
    (s.onClient c next []).Consistent dst := by
  unfold LockClient.released at hnext
  split_ifs at hnext with hcalling
  cases hnext
  have hsound := h.sound c reply.1.lid
  have hafter := (s.client c).releases_visitAfter reply.1.lid
  apply h.client
  · exact le_rfl
  · intro other hne
    apply (LockClient.keeps_setStatus _ hne _).trans (LockClient.keeps_releaser _ _ (hafter other))
    change (s.client c).releaser.releases other = false
    rw [hcalling]
    exact beq_false_of_ne hne.symm
  · exact nofun
  · exact hsound.released hcalling (hsound.done reply.1 reply.2 hreply ⟨hop, hclt, rfl⟩)
      (hafter reply.1.lid)

theorem LockSystem.Consistent.retry (h : s.Consistent dst)
    (hretries : s.server.retries lid = some (dst c)) :
    (s.onClient c ((s.client c).retryHandler lid) []).Consistent dst := by
  unfold LockServer.retries at hretries
  split_ifs at hretries with hlocks
  have hasking := (h.sound c lid).asking hretries hlocks
  apply h.client
  · exact le_rfl
  · exact fun other hne => (LockClient.keeps_setStatus _ hne _).trans
      (LockClient.keeps_fields _ _ _)
  · exact nofun
  · exact (h.sound c lid).retryHandler hasking

theorem LockSystem.Consistent.serve (h : s.Consistent dst) (hdst : Function.Injective dst)
    {req : LockRequest} (hreq : req ∈ s.requests) (discard : Bool) :
    (s.onServer req discard (s.server.execute dst req)).Consistent dst := by
  unfold LockServer.execute
  cases hop : req.op with
  | acquire => exact h.acquire hdst hreq hop (s.server.acquired _ _ _ _)
  | release =>
      apply h.release hdst hreq hop
      apply LockServer.released
      exact fun hlt => (h.releaser_of_release hreq hop hlt).2.1

end Steps

theorem LockSystem.Consistent.initial (dst : Nat → String) :
    LockSystem.Consistent dst ⟨fun _ => LockClient.new, LockServer.new, [], []⟩ :=
  ⟨fun _ => List.nodup_nil, nofun, nofun, fun _ _ => Sound.initial⟩

theorem LockSystem.Consistent.step {dst : Nat → String} {s s' : LockSystem}
    {action : LockSystem.Action} (h : s.Consistent dst) (hdst : Function.Injective dst)
    (hguard : s.unwrapped action = true) (hstep : (lockSystem dst).step s action = some s') :
    s'.Consistent dst := by
  cases action with
  | enter c t lid =>
      obtain ⟨next, hnext, rfl⟩ := Option.map_eq_some_iff.mp hstep
      exact h.enter hnext
  | test c t =>
      obtain ⟨next, hnext, rfl⟩ := Option.map_eq_some_iff.mp hstep
      exact h.test hnext
  | send c t =>
      obtain ⟨⟨next, lid, x⟩, hnext, rfl⟩ := Option.map_eq_some_iff.mp hstep
      exact h.send (of_decide_eq_true hguard) hnext
  | answered c t reply =>
      simp only [lockSystem, LockSystem.step] at hstep
      split_ifs at hstep with hreply
      obtain ⟨next, hnext, rfl⟩ := Option.map_eq_some_iff.mp hstep
      exact h.answered hreply.1 hreply.2.1 hreply.2.2 hnext
  | again c t =>
      obtain ⟨next, hnext, rfl⟩ := Option.map_eq_some_iff.mp hstep
      exact h.again hnext
  | release c t lid =>
      obtain ⟨next, hnext, rfl⟩ := Option.map_eq_some_iff.mp hstep
      exact h.free hnext
  | wake c =>
      cases hstep
      exact h.wake c
  | visit c =>
      obtain ⟨next, hnext, rfl⟩ := Option.map_eq_some_iff.mp hstep
      exact h.visit hnext
  | sendRelease c =>
      obtain ⟨⟨next, lid, y⟩, hnext, rfl⟩ := Option.map_eq_some_iff.mp hstep
      exact h.sendRelease (of_decide_eq_true hguard) hnext
  | released c reply =>
      simp only [lockSystem, LockSystem.step] at hstep
      split_ifs at hstep with hreply
      obtain ⟨next, hnext, rfl⟩ := Option.map_eq_some_iff.mp hstep
      exact h.released hreply.1 hreply.2.1 hreply.2.2 hnext
  | serve req discard =>
      simp only [lockSystem, LockSystem.step] at hstep
      split_ifs at hstep with hreq
      cases hstep
      exact h.serve hdst hreq discard
  | revoke lid c =>
      simp only [lockSystem, LockSystem.step] at hstep
      split_ifs at hstep
      cases hstep
      exact h.wake c
  | retry lid c =>
      simp only [lockSystem, LockSystem.step] at hstep
      split_ifs at hstep with hretries
      cases hstep
      exact h.retry hretries

theorem LockSystem.Consistent.mutualExclusion {dst : Nat → String} {s : LockSystem}
    (h : s.Consistent dst) (hdst : Function.Injective dst) : s.MutualExclusion := by
  have hfront : ∀ lid c t, (s.client c).holds t lid = true →
      (s.server.lockClientList lid).head? = some (dst c) := by
    intro lid c t hholds
    have hsound := h.sound c lid
    exact (hsound.granted (.inr (hsound.holding t hholds))).1
  intro lid c t c' t' hholds hholds'
  have hsame : dst c = dst c' := by
    apply Option.some_injective
    rw [← hfront lid c t hholds, ← hfront lid c' t' hholds']
  obtain rfl := hdst hsame
  exact ⟨rfl, (h.sound c lid).single t t' hholds hholds'⟩

/-- **Mutual exclusion.**  While no client has issued 2^64 requests, at most one thread of one
    client has a lock. -/
theorem mutualExclusion_of_unwrapped (dst : Nat → String) (hdst : Function.Injective dst)
    {s : LockSystem} (h : (lockSystem dst).Reach (fun s action => s.unwrapped action = true) s) :
    s.MutualExclusion := by
  have hconsistent : s.Consistent dst := by
    apply h.invariant
    · rintro start rfl
      exact LockSystem.Consistent.initial dst
    · intro state next action hstate hguard hstep
      exact hstate.step hdst hguard hstep
  exact hconsistent.mutualExclusion hdst

def address (c : Nat) : String := String.ofList (List.replicate c 'c')

theorem address_injective : Function.Injective address := by
  intro c c' h
  have hlists := String.ofList_injective h
  simpa using congrArg List.length hlists

/-- Client 0 has the lock and returns it when client 1 asks for it. -/
def handover : List LockSystem.Action :=
  [.enter 0 0 5, .test 0 0, .send 0 0, .serve ⟨.acquire, 0, 5, 1⟩ false,
    .answered 0 0 (⟨.acquire, 0, 5, 1⟩, .ok),
    .enter 1 0 5, .test 1 0, .send 1 0, .serve ⟨.acquire, 1, 5, 1⟩ false,
    .answered 1 0 (⟨.acquire, 1, 5, 1⟩, .retry),
    .release 0 0 5, .revoke 5 0, .visit 0, .sendRelease 0, .serve ⟨.release, 0, 5, 2⟩ false,
    .released 0 (⟨.release, 0, 5, 2⟩, .ok),
    .retry 5 1, .again 1 0, .send 1 0, .serve ⟨.acquire, 1, 5, 2⟩ false,
    .answered 1 0 (⟨.acquire, 1, 5, 2⟩, .ok)]

theorem mutualExclusion_handover :
    ∃ s, (lockSystem address).Reach (fun s action => s.unwrapped action = true) s ∧
      (s.client 1).holds 0 5 = true ∧ s.MutualExclusion := by
  obtain ⟨s, hreach, hholds⟩ : ∃ s, (lockSystem address).Reach
      (fun s action => s.unwrapped action = true) s ∧ (s.client 1).holds 0 5 = true :=
    System.Reach.of_exec LockSystem.unwrapped handover rfl (fun _ _ hguard => hguard)
      (by decide +kernel)
  exact ⟨s, hreach, hholds, mutualExclusion_of_unwrapped address address_injective hreach⟩

/-! ## 3. After the wrap

Client 0 asks for the locks 1, 2, 3 and so on and keeps them.  Its 2^64th request is
for lock 0, which client 1 has. -/

section Wrap

variable {dst : Nat → String} {s : LockSystem} {c t lid : Nat}

/-- A thread asks for a lock, and the server answers OK. -/
theorem LockSystem.reach_holds (hreach : (lockSystem dst).Reach anyStep s)
    (hthread : (s.client c).thread t = .outside) (hstatus : (s.client c).status lid = .none)
    (hok : (s.server.acquire c lid (dst c) (s.client c).nextXid).2 = .ok) :
    ∃ s' next, (lockSystem dst).Reach anyStep s' ∧
      s'.server = (s.server.acquire c lid (dst c) (s.client c).nextXid).1 ∧
      s'.client = Function.update s.client c next ∧ next.xid = (s.client c).nextXid ∧
      next.thread t = .outside ∧ next.holds t lid = true ∧
      ∀ l, l ≠ lid → next.status l = (s.client c).status l := by
  let first : LockClient :=
    { (s.client c).setThread t (.entering lid) with keys := (s.client c).keys.insert lid }
  let second := (first.setStatus lid .acquiring).setThread t (.sending lid)
  let third : LockClient :=
    { second.setThread t (.calling lid second.nextXid) with xid := second.nextXid }
  let req : LockRequest := ⟨.acquire, c, lid, second.nextXid⟩
  let out := s.server.acquire c lid (dst c) second.nextXid
  let sent := s.onClient c third [req]
  have henter : (lockSystem dst).step s (.enter c t lid) = some (s.onClient c first []) := by
    simp [lockSystem, LockSystem.step, LockClient.enter, hthread, first]
  have htest : (lockSystem dst).step (s.onClient c first []) (.test c t) =
      some (s.onClient c second []) := by
    simp [lockSystem, LockSystem.step, LockClient.test, LockSystem.onClient,
      LockClient.setThread, hstatus, first, second]
  have hsend : (lockSystem dst).step (s.onClient c second []) (.send c t) = some sent := by
    simp [lockSystem, LockSystem.step, LockClient.send, LockSystem.onClient,
      LockClient.setThread, second, third, req, sent]
  have hserve : (lockSystem dst).step sent (.serve req false) =
      some (sent.onServer req false out) := by
    simp [lockSystem, LockSystem.step, LockSystem.onClient, LockServer.execute, req, out, sent]
  have hanswered : (lockSystem dst).step (sent.onServer req false out)
      (.answered c t (req, .ok)) =
        some ((sent.onServer req false out).onClient c (third.granted t lid) []) := by
    have hout : out.2 = .ok := hok
    simp [lockSystem, LockSystem.step, LockSystem.onClient, LockSystem.onServer,
      LockClient.answered, LockClient.setThread, hout, third, req, sent]
  refine ⟨_, third.granted t lid, ((((hreach.step trivial henter).step trivial htest).step
    trivial hsend).step trivial hserve).step trivial hanswered, rfl, ?_, rfl, ?_, ?_, ?_⟩
  · simp [LockSystem.onClient, LockSystem.onServer, sent]
  · simp [LockClient.granted, LockClient.setHolds, LockClient.setThread]
  · simp [LockClient.granted, LockClient.setHolds]
  · intro l hl
    simp [LockClient.granted, LockClient.setHolds, LockClient.setThread, LockClient.setStatus, hl,
      first, second, third]

theorem LockServer.acquire_empty {s : LockServer} {clt lid xid : Nat} (addr : String)
    (hid : s.clientLockId clt lid < xid) (hlist : s.lockClientList lid = []) :
    (s.acquire clt lid addr xid).2 = .ok ∧
      (s.acquire clt lid addr xid).1.lockClientList =
        Function.update s.lockClientList lid [addr] ∧
      (s.acquire clt lid addr xid).1.clientLockId = s.clientLockId := by
  simp [LockServer.acquire, enlist, hlist, hid.ne', Nat.not_lt.mpr hid.le]

/-- Client 0 has asked for the locks 1 to `n`, and nobody has asked for any other. -/
structure LockSystem.Collected (n : Nat) (s : LockSystem) : Prop where
  reach : (lockSystem address).Reach anyStep s
  xid : (s.client 0).xid = n
  thread : (s.client 0).thread 0 = .outside
  status : ∀ lid, lid = 0 ∨ n < lid → (s.client 0).status lid = .none
  empty : ∀ lid, lid = 0 ∨ n < lid → s.server.lockClientList lid = []
  unreleased : ∀ c lid, s.server.clientLockId c lid = 0
  other : s.client 1 = LockClient.new

theorem LockSystem.collected (n : Nat) (hn : n < xidBound) : ∃ s, LockSystem.Collected n s := by
  induction n with
  | zero =>
      refine ⟨⟨fun _ => LockClient.new, LockServer.new, [], []⟩, .init rfl, rfl, rfl, ?_, ?_, ?_,
        rfl⟩
      · exact fun _ _ => rfl
      · exact fun _ _ => rfl
      · exact fun _ _ => rfl
  | succ n ih =>
      obtain ⟨s, h⟩ := ih (Nat.lt_of_succ_lt hn)
      have hxid : (s.client 0).nextXid = n + 1 := by
        rw [LockClient.nextXid_of_lt (by rw [h.xid]; exact hn), h.xid]
      have hlt : s.server.clientLockId 0 (n + 1) < (s.client 0).nextXid := by
        rw [h.unreleased, hxid]
        exact Nat.succ_pos n
      obtain ⟨hok, hlist, hid⟩ := LockServer.acquire_empty (address 0) hlt
        (h.empty (n + 1) (.inr (Nat.lt_succ_self n)))
      obtain ⟨s', next, hreach, hserver, hclient, hnext, hthread, -, hstatus⟩ :=
        LockSystem.reach_holds h.reach h.thread (h.status _ (.inr (Nat.lt_succ_self n))) hok
      have hself : s'.client 0 = next := by
        rw [hclient, Function.update_self]
      refine ⟨s', hreach, ?_, ?_, ?_, ?_, ?_, ?_⟩
      · rw [hself, hnext, hxid]
      · rw [hself, hthread]
      · intro lid hlid
        rw [hself, hstatus lid (by omega)]
        exact h.status lid (by omega)
      · intro lid hlid
        rw [hserver, hlist, Function.update_of_ne (by omega)]
        exact h.empty lid (by omega)
      · intro c lid
        rw [hserver, hid]
        exact h.unreleased c lid
      · rw [hclient, Function.update_of_ne Nat.one_ne_zero]
        exact h.other

/-- The 2^64th request has the xid 0 and is answered OK like a repetition. -/
theorem wrapped_xid_breaks_exclusion :
    ¬ ∀ dst : Nat → String, Function.Injective dst →
      ∀ s, (lockSystem dst).Reach anyStep s → s.MutualExclusion := by
  intro hclaim
  obtain ⟨s, h⟩ := LockSystem.collected (xidBound - 1) (Nat.sub_lt (Nat.two_pow_pos 64) Nat.one_pos)
  have hfirst : s.server.clientLockId 1 0 < (s.client 1).nextXid := by
    rw [h.unreleased, h.other]
    exact Nat.succ_pos 0
  obtain ⟨hok, -, hid⟩ := LockServer.acquire_empty (address 1) hfirst
    (h.empty 0 (.inl rfl))
  obtain ⟨s', next, hreach, hserver, hclient, -, -, hholds, -⟩ :=
    LockSystem.reach_holds h.reach (t := 0) (by rw [h.other]; rfl) (by rw [h.other]; rfl) hok
  have hsame : s'.client 0 = s.client 0 := by
    rw [hclient, Function.update_of_ne Nat.zero_ne_one]
  have hxid : (s'.client 0).nextXid = 0 := by
    unfold LockClient.nextXid
    rw [hsame, h.xid]
    rfl
  have hstale : (s'.server.acquire 0 0 (address 0) (s'.client 0).nextXid).2 = .ok := by
    rw [hxid]
    unfold LockServer.acquire
    rw [hserver, hid, h.unreleased]
    rfl
  obtain ⟨s'', next', hreach', -, hclient', -, -, hholds', -⟩ :=
    LockSystem.reach_holds hreach (by rw [hsame]; exact h.thread)
      (by rw [hsame]; exact h.status 0 (.inl rfl)) hstale
  have hzero : (s''.client 0).holds 0 0 = true := by
    rw [hclient', Function.update_self]
    exact hholds'
  have hone : (s''.client 1).holds 0 0 = true := by
    rw [hclient', Function.update_of_ne Nat.one_ne_zero, hclient, Function.update_self]
    exact hholds
  exact Nat.zero_ne_one (hclaim address address_injective s'' hreach' 0 0 0 1 0 hzero hone).1

end Wrap

end DistributedLab.Lock
