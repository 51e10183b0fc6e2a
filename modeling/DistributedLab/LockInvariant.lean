import DistributedLab.LockSystem

/-!
# The invariant of the lock service

A client that has a lock, or keeps it FREE, is at the front of the server's queue, and
the flag in `locks` is set.  It leaves the queue only through its own `release`, so two
clients cannot be in this position.

The server answers a request with an xid up to the one of the client's last `release`
OK without looking at the queue.  Such a request is a repetition.  The xid of a call
that a thread still waits for is above the xid of the last `release`, since a client
does not ask for a lock while it returns it, and the other way round.

`retry_handler` overwrites the status whatever it is.  The retryer calls it only for
the client at the front when the flag is not set, and then a thread of this client is
in `acquire`.

All of this rests on xids that grow.  `xid_t` has 64 bits, and after the wrap a client
that asks for a lock is answered OK while another client has it.
-/

namespace DistributedLab.Lock

open Transition

/-! ## 1. The invariant

`Sound` is about one client and one lock.  The status says which threads can be
anywhere near the lock, and whether the server has granted it. -/

/-- The thread is in `acquire` past the first loop. -/
def Thread.acquires (lid : Nat) : Thread → Bool
  | .sending l => l == lid
  | .calling l _ => l == lid
  | .retrying l => l == lid
  | _ => false

def Releaser.releases (lid : Nat) : Releaser → Bool
  | .sending l => l == lid
  | .calling l _ => l == lid
  | _ => false

def LockServer.Granted (s : LockServer) (addr : String) (lid : Nat) : Prop :=
  (s.lockClientList lid).head? = some addr ∧ s.locks lid = some true

def LockRequest.Is (req : LockRequest) (op : LockOp) (c lid : Nat) : Prop :=
  req.op = op ∧ req.clt = c ∧ req.lid = lid

structure Sound (addr : String) (c lid : Nat) (client : LockClient) (server : LockServer)
    (requests : List LockRequest) (replies : List (LockRequest × Status)) : Prop where
  /-- At most one thread is in `acquire`, at most one has the lock. -/
  acquiring : ∀ t, (client.thread t).acquires lid = true →
    client.status lid = .acquiring ∨ client.status lid = .retry
  alone : ∀ t t', (client.thread t).acquires lid = true →
    (client.thread t').acquires lid = true → t = t'
  holding : ∀ t, client.holds t lid = true → client.status lid = .locked
  single : ∀ t t', client.holds t lid = true → client.holds t' lid = true → t = t'
  releasing : client.status lid = .releasing ↔ client.releaser.releases lid = true
  /-- What the status says about the queue. -/
  granted : client.status lid = .free ∨ client.status lid = .locked → server.Granted addr lid
  absent : client.status lid = .none → addr ∉ server.lockClientList lid
  unsent : client.releaser = .sending lid → server.Granted addr lid
  sent : ∀ y, client.releaser = .calling lid y →
    (server.clientLockId c lid < y ∧ server.Granted addr lid) ∨
      (server.clientLockId c lid = y ∧ addr ∉ server.lockClientList lid)
  /-- Which requests are repetitions. -/
  last : server.clientLockId c lid ≤ client.xid
  live : ∀ t x, client.thread t = .calling lid x → server.clientLockId c lid < x
  acquires : ∀ req ∈ requests, req.Is .acquire c lid → server.clientLockId c lid < req.xid →
    client.status lid ≠ .none ∧ client.releaser ≠ .calling lid (server.clientLockId c lid)
  releases : ∀ req ∈ requests, req.Is .release c lid →
    req.xid ≤ server.clientLockId c lid ∨ client.releaser = .calling lid req.xid
  older : ∀ y, client.releaser = .calling lid y →
    ∀ req ∈ requests, req.Is .acquire c lid → req.xid ≤ y
  /-- Which answers can be in flight. -/
  ok : ∀ req, (req, .ok) ∈ replies → req.Is .acquire c lid →
    ∀ t, client.thread t = .calling lid req.xid → server.Granted addr lid
  done : ∀ req status, (req, status) ∈ replies → req.Is .release c lid →
    req.xid ≤ server.clientLockId c lid

structure LockSystem.Consistent (dst : Nat → String) (s : LockSystem) : Prop where
  nodup : ∀ lid, (s.server.lockClientList lid).Nodup
  issued : ∀ req ∈ s.requests, req.xid ≤ (s.client req.clt).xid
  replied : ∀ reply ∈ s.replies, reply.1.xid ≤ (s.client reply.1.clt).xid
  sound : ∀ c lid, Sound (dst c) c lid (s.client c) s.server s.requests s.replies

theorem acquires_of_calling {thread : Thread} {lid x : Nat} (h : thread = .calling lid x) :
    thread.acquires lid = true := by
  rw [h]
  exact beq_self_eq_true lid

theorem releases_of_calling {releaser : Releaser} {lid y : Nat} (h : releaser = .calling lid y) :
    releaser.releases lid = true := by
  rw [h]
  exact beq_self_eq_true lid

theorem releases_of_sending {releaser : Releaser} {lid : Nat} (h : releaser = .sending lid) :
    releaser.releases lid = true := by
  rw [h]
  exact beq_self_eq_true lid

section Sound

variable {addr : String} {c lid : Nat} {client next : LockClient} {server server' : LockServer}
variable {requests requests' : List LockRequest} {replies replies' : List (LockRequest × Status)}

theorem Sound.initial : Sound addr c lid LockClient.new LockServer.new [] [] where
  acquiring := nofun
  alone := nofun
  holding := nofun
  single := nofun
  releasing := ⟨nofun, nofun⟩
  granted := by rintro (h | h) <;> cases h
  absent := fun _ => List.not_mem_nil
  unsent := nofun
  sent := nofun
  last := le_rfl
  live := nofun
  acquires := nofun
  releases := nofun
  older := nofun
  ok := nofun
  done := nofun

/-- While the lock is in one of the other states, no thread is in `acquire`. -/
theorem Sound.not_acquires (h : Sound addr c lid client server requests replies)
    (hstatus : ¬ (client.status lid = .acquiring ∨ client.status lid = .retry)) (t : Nat) :
    (client.thread t).acquires lid = false := by
  rw [← Bool.not_eq_true]
  intro hacquires
  exact hstatus (h.acquiring t hacquires)

theorem Sound.not_holds (h : Sound addr c lid client server requests replies)
    (hstatus : client.status lid ≠ .locked) (t : Nat) : client.holds t lid = false := by
  rw [← Bool.not_eq_true]
  intro hholds
  exact hstatus (h.holding t hholds)

theorem Sound.not_releases (h : Sound addr c lid client server requests replies)
    (hstatus : client.status lid ≠ .releasing) : client.releaser.releases lid = false := by
  rw [← Bool.not_eq_true]
  intro hreleases
  exact hstatus (h.releasing.mpr hreleases)

/-- A step that does not change the state of the lock. -/
theorem Sound.same (h : Sound addr c lid client server requests replies)
    (hxid : client.xid ≤ next.xid) (hstatus : next.status lid = client.status lid)
    (hacquires : ∀ t, (next.thread t).acquires lid = true → (client.thread t).acquires lid = true)
    (hcalling : ∀ t x, next.thread t = .calling lid x → client.thread t = .calling lid x)
    (hholds : ∀ t, next.holds t lid = client.holds t lid)
    (hreleaser : client.releaser.releases lid = true ∨ next.releaser.releases lid = true →
      next.releaser = client.releaser)
    (hlast : server'.clientLockId c lid = server.clientLockId c lid)
    (hgranted : server.Granted addr lid → server'.Granted addr lid)
    (habsent : client.status lid = .none ∨
        client.releaser = .calling lid (server.clientLockId c lid) →
      addr ∉ server.lockClientList lid → addr ∉ server'.lockClientList lid)
    (hrequests : ∀ req ∈ requests', req.clt = c → req.lid = lid → req ∈ requests)
    (hok : ∀ req, (req, .ok) ∈ replies' → req.Is .acquire c lid →
      ∀ t, client.thread t = .calling lid req.xid →
        (req, .ok) ∈ replies ∨ server'.Granted addr lid)
    (hdone : ∀ req status, (req, status) ∈ replies' → req.Is .release c lid →
      (req, status) ∈ replies ∨ req.xid ≤ server.clientLockId c lid) :
    Sound addr c lid next server' requests' replies' := by
  have hcall : ∀ y, next.releaser = .calling lid y → client.releaser = .calling lid y := by
    intro y hy
    rw [← hreleaser (.inr (releases_of_calling hy)), hy]
  constructor
  · intro t ht
    rw [hstatus]
    exact h.acquiring t (hacquires t ht)
  · intro t t' ht ht'
    exact h.alone t t' (hacquires t ht) (hacquires t' ht')
  · intro t ht
    rw [hstatus]
    exact h.holding t (hholds t ▸ ht)
  · intro t t' ht ht'
    exact h.single t t' (hholds t ▸ ht) (hholds t' ▸ ht')
  · rw [hstatus, h.releasing]
    constructor
    · intro hrel
      rw [hreleaser (.inl hrel)]
      exact hrel
    · intro hrel
      rw [← hreleaser (.inr hrel)]
      exact hrel
  · rw [hstatus]
    exact fun hs => hgranted (h.granted hs)
  · rw [hstatus]
    exact fun hs => habsent (.inl hs) (h.absent hs)
  · intro hsending
    rw [hreleaser (.inr (releases_of_sending hsending))] at hsending
    exact hgranted (h.unsent hsending)
  · intro y hy
    rw [hlast]
    rcases h.sent y (hcall y hy) with ⟨hlt, hg⟩ | ⟨heq, hnot⟩
    · exact .inl ⟨hlt, hgranted hg⟩
    · exact .inr ⟨heq, habsent (.inr (heq ▸ hcall y hy)) hnot⟩
  · rw [hlast]
    exact h.last.trans hxid
  · intro t x ht
    rw [hlast]
    exact h.live t x (hcalling t x ht)
  · intro req hreq his hlt
    rw [hlast] at hlt ⊢
    obtain ⟨hnone, hnot⟩ := h.acquires req (hrequests req hreq his.2.1 his.2.2) his hlt
    rw [hstatus]
    exact ⟨hnone, fun hy => hnot (hcall _ hy)⟩
  · intro req hreq his
    rw [hlast]
    rcases h.releases req (hrequests req hreq his.2.1 his.2.2) his with hle | hy
    · exact .inl hle
    · exact .inr ((hreleaser (.inl (releases_of_calling hy))).trans hy)
  · intro y hy req hreq his
    exact h.older y (hcall y hy) req (hrequests req hreq his.2.1 his.2.2) his
  · intro req hreply his t ht
    rcases hok req hreply his t (hcalling t _ ht) with hold | hnew
    · exact hgranted (h.ok req hold his t (hcalling t _ ht))
    · exact hnew
  · intro req status hreply his
    rw [hlast]
    rcases hdone req status hreply his with hold | hnew
    · exact h.done req status hold his
    · exact hnew

end Sound

/-! ## 2. Steps of a client -/

/-- A step leaves a lock alone. -/
structure LockClient.Keeps (lid : Nat) (client next : LockClient) : Prop where
  status : next.status lid = client.status lid
  acquires : ∀ t, (next.thread t).acquires lid = true → (client.thread t).acquires lid = true
  calling : ∀ t x, next.thread t = .calling lid x → client.thread t = .calling lid x
  holds : ∀ t, next.holds t lid = client.holds t lid
  releaser : client.releaser.releases lid = true ∨ next.releaser.releases lid = true →
    next.releaser = client.releaser

section Keeps

variable {lid : Nat} {client next third : LockClient}

theorem LockClient.Keeps.trans (h : client.Keeps lid next) (h' : next.Keeps lid third) :
    client.Keeps lid third := by
  constructor
  · rw [h'.status, h.status]
  · intro t ht
    exact h.acquires t (h'.acquires t ht)
  · intro t x ht
    exact h.calling t x (h'.calling t x ht)
  · intro t
    rw [h'.holds, h.holds]
  · rintro (hreleases | hreleases)
    · have heq := h.releaser (.inl hreleases)
      rw [h'.releaser (.inl (heq ▸ hreleases)), heq]
    · have heq := h'.releaser (.inr hreleases)
      rw [heq, h.releaser (.inr (heq ▸ hreleases))]

theorem LockClient.keeps_setStatus (client : LockClient) {other : Nat} (hne : lid ≠ other)
    (status : LockStatus) : client.Keeps lid (client.setStatus other status) := by
  constructor
  · exact Function.update_of_ne hne status client.status
  · exact fun _ h => h
  · exact fun _ _ h => h
  · exact fun _ => rfl
  · exact fun _ => rfl

theorem LockClient.keeps_setThread (client : LockClient) (t : Nat) {thread : Thread}
    (h : thread.acquires lid = true → (client.thread t).acquires lid = true)
    (hcalling : ∀ x, thread ≠ .calling lid x) : client.Keeps lid (client.setThread t thread) := by
  constructor
  · rfl
  · intro t' ht'
    by_cases heq : t' = t
    · subst heq
      apply h
      simpa [LockClient.setThread] using ht'
    · simpa [LockClient.setThread, heq] using ht'
  · intro t' x ht'
    by_cases heq : t' = t
    · subst heq
      exact absurd (by simpa [LockClient.setThread] using ht') (hcalling x)
    · simpa [LockClient.setThread, heq] using ht'
  · exact fun _ => rfl
  · exact fun _ => rfl

theorem LockClient.keeps_setHolds (client : LockClient) (t : Nat) {other : Nat}
    (hne : lid ≠ other) (held : Bool) : client.Keeps lid (client.setHolds t other held) := by
  constructor
  · rfl
  · exact fun _ h => h
  · exact fun _ _ h => h
  · intro t'
    by_cases heq : t' = t
    · subst heq
      simp [LockClient.setHolds, hne]
    · simp [LockClient.setHolds, heq]
  · exact fun _ => rfl

/-- The fields of the record that no lock depends on. -/
theorem LockClient.keeps_fields (client : LockClient) (xid : Nat) (keys : List Nat) :
    client.Keeps lid { client with xid := xid, keys := keys } :=
  ⟨rfl, fun _ h => h, fun _ _ h => h, fun _ => rfl, fun _ => rfl⟩

theorem LockClient.keeps_releaser (client : LockClient) {releaser : Releaser}
    (h : client.releaser.releases lid = false) (h' : releaser.releases lid = false) :
    client.Keeps lid { client with releaser := releaser } := by
  refine ⟨rfl, fun _ ht => ht, fun _ _ ht => ht, fun _ => rfl, ?_⟩
  rintro (hreleases | hreleases)
  · rw [h] at hreleases
    cases hreleases
  · rw [h'] at hreleases
    cases hreleases

theorem LockClient.keeps_granted (client : LockClient) (t : Nat) {other : Nat}
    (hne : lid ≠ other) : client.Keeps lid (client.granted t other) := by
  apply (client.keeps_setStatus hne .locked).trans
  apply (LockClient.keeps_setThread _ t _ _).trans (LockClient.keeps_setHolds _ t hne true)
  · exact nofun
  · exact nofun

end Keeps

theorem Sound.keeps {addr : String} {c lid : Nat} {client next : LockClient}
    {server : LockServer} {requests requests' : List LockRequest}
    {replies : List (LockRequest × Status)}
    (h : Sound addr c lid client server requests replies) (hkeeps : client.Keeps lid next)
    (hxid : client.xid ≤ next.xid)
    (hrequests : ∀ req ∈ requests', req.clt = c → req.lid = lid → req ∈ requests) :
    Sound addr c lid next server requests' replies :=
  h.same hxid hkeeps.status hkeeps.acquires hkeeps.calling hkeeps.holds hkeeps.releaser rfl
    (fun hg => hg) (fun _ hnot => hnot) hrequests (fun _ hmem _ _ _ => .inl hmem)
    (fun _ _ hmem _ => .inl hmem)

section Client

variable {dst : Nat → String} {s : LockSystem} {c lid : Nat} {next : LockClient}
variable {issued : List LockRequest}

/-- A step of client `c` that concerns the lock `lid`, where it has to be shown that the client
    is sound; everything else follows. -/
theorem LockSystem.Consistent.client (h : s.Consistent dst) (hxid : (s.client c).xid ≤ next.xid)
    (hkeeps : ∀ other, other ≠ lid → (s.client c).Keeps other next)
    (hissued : ∀ req ∈ issued, req.clt = c ∧ req.lid = lid ∧ req.xid ≤ next.xid)
    (hself : Sound (dst c) c lid next s.server (issued ++ s.requests) s.replies) :
    (s.onClient c next issued).Consistent dst := by
  have hmono : ∀ other, (s.client other).xid ≤ ((s.onClient c next issued).client other).xid := by
    intro other
    by_cases heq : other = c
    · subst heq
      simpa [LockSystem.onClient] using hxid
    · simp [LockSystem.onClient, heq]
  constructor
  · exact h.nodup
  · intro req hreq
    rcases List.mem_append.mp hreq with hnew | hold
    · obtain ⟨rfl, -, hle⟩ := hissued req hnew
      simpa [LockSystem.onClient] using hle
    · exact (h.issued req hold).trans (hmono req.clt)
  · intro reply hreply
    exact (h.replied reply hreply).trans (hmono reply.1.clt)
  · intro other l
    by_cases heq : other = c
    · subst heq
      simp only [LockSystem.onClient, Function.update_self]
      by_cases hl : l = lid
      · subst hl
        exact hself
      · apply (h.sound other l).keeps (hkeeps l hl) hxid
        intro req hreq _ hreql
        rcases List.mem_append.mp hreq with hnew | hold
        · exact absurd (hreql.symm.trans (hissued req hnew).2.1) hl
        · exact hold
    · simp only [LockSystem.onClient, Function.update_of_ne heq]
      refine (h.sound other l).keeps ⟨rfl, fun _ ht => ht, fun _ _ ht => ht, fun _ => rfl,
        fun _ => rfl⟩ le_rfl ?_
      intro req hreq hclt _
      rcases List.mem_append.mp hreq with hnew | hold
      · exact absurd (hclt.symm.trans (hissued req hnew).1) heq
      · exact hold

/-- A step that leaves all locks alone. -/
theorem LockSystem.Consistent.quiet (h : s.Consistent dst)
    (hxid : (s.client c).xid ≤ next.xid) (hkeeps : ∀ l, (s.client c).Keeps l next) :
    (s.onClient c next []).Consistent dst := by
  have hself := (h.sound c 0).keeps (hkeeps 0) hxid (fun _ hreq _ _ => hreq)
  exact h.client hxid (fun l _ => hkeeps l) nofun hself

end Client

/-! ## 3. The lock that a step is about

The lock is being acquired or in the hands of the client in the first group, and it is
being returned or not wanted in the second. -/

section Changed

variable {addr : String} {c lid : Nat} {client next : LockClient} {server : LockServer}
variable {requests requests' : List LockRequest} {replies : List (LockRequest × Status)}

theorem Releaser.ne_calling {releaser : Releaser} (h : releaser.releases lid = false) (y : Nat) :
    releaser ≠ .calling lid y := by
  intro hcalling
  rw [releases_of_calling hcalling] at h
  cases h

theorem Releaser.ne_sending {releaser : Releaser} (h : releaser.releases lid = false) :
    releaser ≠ .sending lid := by
  intro hsending
  rw [releases_of_sending hsending] at h
  cases h

theorem Thread.ne_calling {thread : Thread} (h : thread.acquires lid = false) (x : Nat) :
    thread ≠ .calling lid x := by
  intro hcalling
  rw [acquires_of_calling hcalling] at h
  cases h

theorem Sound.unreleased (h : Sound addr c lid client server requests replies)
    (hxid : client.xid ≤ next.xid) (hbefore : client.releaser.releases lid = false)
    (hafter : next.releaser.releases lid = false)
    (hstatus : next.status lid ≠ .none ∧ next.status lid ≠ .releasing)
    (hrequests : ∀ req ∈ requests', req.Is .release c lid → req ∈ requests)
    (hacquiring : ∀ t, (next.thread t).acquires lid = true →
      next.status lid = .acquiring ∨ next.status lid = .retry)
    (halone : ∀ t t', (next.thread t).acquires lid = true →
      (next.thread t').acquires lid = true → t = t')
    (hholding : ∀ t, next.holds t lid = true → next.status lid = .locked)
    (hsingle : ∀ t t', next.holds t lid = true → next.holds t' lid = true → t = t')
    (hgranted : next.status lid = .free ∨ next.status lid = .locked → server.Granted addr lid)
    (hlive : ∀ t x, next.thread t = .calling lid x → server.clientLockId c lid < x)
    (hok : ∀ req, (req, .ok) ∈ replies → req.Is .acquire c lid →
      ∀ t, next.thread t = .calling lid req.xid → server.Granted addr lid) :
    Sound addr c lid next server requests' replies := by
  refine ⟨hacquiring, halone, hholding, hsingle, ?_, hgranted, ?_, ?_, ?_, h.last.trans hxid,
    hlive, ?_, ?_, ?_, hok, h.done⟩
  · rw [hafter]
    exact ⟨fun heq => absurd heq hstatus.2, nofun⟩
  · exact fun heq => absurd heq hstatus.1
  · exact fun heq => absurd heq (Releaser.ne_sending hafter)
  · exact fun y heq => absurd heq (Releaser.ne_calling hafter y)
  · exact fun _ _ _ _ => ⟨hstatus.1, Releaser.ne_calling hafter _⟩
  · intro req hreq his
    rcases h.releases req (hrequests req hreq his) his with hle | heq
    · exact .inl hle
    · exact absurd heq (Releaser.ne_calling hbefore _)
  · exact fun y heq => absurd heq (Releaser.ne_calling hafter y)

/-- A thread finds NONE. -/
theorem Sound.test (h : Sound addr c lid client server requests replies)
    (hstatus : client.status lid = .none) (t : Nat) :
    Sound addr c lid ((client.setStatus lid .acquiring).setThread t (.sending lid)) server
      requests replies := by
  have hreleases := h.not_releases (by simp [hstatus])
  have hholds := h.not_holds (by simp [hstatus])
  have hothers := h.not_acquires (by simp [hstatus])
  have hacquiring : ((client.setStatus lid .acquiring).setThread t (.sending lid)).status lid =
      .acquiring := Function.update_self lid _ client.status
  have honly : ∀ t', (((client.setStatus lid .acquiring).setThread t (.sending lid)).thread
      t').acquires lid = true → t' = t := by
    intro t' ht'
    by_contra hne
    simp [LockClient.setThread, LockClient.setStatus, hne, hothers] at ht'
  have hcalling : ∀ t' x, ((client.setStatus lid .acquiring).setThread t (.sending lid)).thread
      t' ≠ .calling lid x := by
    intro t' x ht'
    obtain rfl := honly t' (acquires_of_calling ht')
    simp [LockClient.setThread] at ht'
  apply h.unreleased
  · exact le_rfl
  · exact hreleases
  · exact hreleases
  · simp [hacquiring]
  · exact fun _ hreq _ => hreq
  · exact fun _ _ => .inl hacquiring
  · exact fun t' t'' ht' ht'' => (honly t' ht').trans (honly t'' ht'').symm
  · exact fun t' ht' => absurd ht' (Bool.eq_false_iff.mp (hholds t'))
  · exact fun t' _ ht' => absurd ht' (Bool.eq_false_iff.mp (hholds t'))
  · simp [hacquiring]
  · exact fun t' x ht' => absurd ht' (hcalling t' x)
  · exact fun req _ _ t' ht' => absurd ht' (hcalling t' req.xid)

/-- `++xid` and the call of `acquire`. -/
theorem Sound.send (h : Sound addr c lid client server requests replies) {t x : Nat}
    (hthread : client.thread t = .sending lid) (hx : client.xid < x)
    (hreplied : ∀ req status, (req, status) ∈ replies → req.clt = c → req.xid ≤ client.xid) :
    Sound addr c lid { client.setThread t (.calling lid x) with xid := x } server
      ([⟨.acquire, c, lid, x⟩] ++ requests) replies := by
  have hacquires : (client.thread t).acquires lid = true := by
    rw [hthread]
    exact beq_self_eq_true lid
  have hstatus := h.acquiring t hacquires
  have hreleases := h.not_releases (by rcases hstatus with heq | heq <;> simp [heq])
  have hmono : ∀ t', ((client.setThread t (.calling lid x)).thread t').acquires lid = true →
      (client.thread t').acquires lid = true := by
    intro t' ht'
    by_cases heq : t' = t
    · rw [heq]
      exact hacquires
    · simpa [LockClient.setThread, heq] using ht'
  have hcalls : ∀ t' x', (client.setThread t (.calling lid x)).thread t' = .calling lid x' →
      x' = x ∨ client.thread t' = .calling lid x' := by
    intro t' x' ht'
    by_cases heq : t' = t
    · subst heq
      left
      simpa [LockClient.setThread, eq_comm] using ht'
    · right
      simpa [LockClient.setThread, heq] using ht'
  apply h.unreleased
  · exact hx.le
  · exact hreleases
  · exact hreleases
  · change client.status lid ≠ .none ∧ client.status lid ≠ .releasing
    rcases hstatus with heq | heq <;> simp [heq]
  · intro req hreq his
    rcases List.mem_cons.mp hreq with rfl | hold
    · cases his.1
    · exact hold
  · exact fun _ _ => hstatus
  · exact fun t' t'' ht' ht'' => h.alone t' t'' (hmono t' ht') (hmono t'' ht'')
  · exact h.holding
  · exact h.single
  · exact h.granted
  · intro t' x' ht'
    rcases hcalls t' x' ht' with rfl | hcalling
    · exact h.last.trans_lt hx
    · exact h.live t' x' hcalling
  · intro req hreq his t' ht'
    rcases hcalls t' req.xid ht' with heq | hcalling
    · exact absurd (hreplied req .ok hreq his.2.1) (by omega)
    · exact h.ok req hreq his t' hcalling

/-- `acquire` returns to the thread, which is the only one that may still have been in it. -/
theorem Sound.grant (h : Sound addr c lid client server requests replies) (t : Nat)
    (hstatus : client.status lid ≠ .releasing ∧ client.status lid ≠ .locked)
    (hothers : ∀ t', t' ≠ t → (client.thread t').acquires lid = false)
    (hgranted : server.Granted addr lid) :
    Sound addr c lid (client.granted t lid) server requests replies := by
  have hreleases := h.not_releases hstatus.1
  have hlocked : (client.granted t lid).status lid = .locked :=
    Function.update_self lid _ client.status
  have hnone : ∀ t', ((client.granted t lid).thread t').acquires lid = false := by
    intro t'
    by_cases heq : t' = t
    · subst heq
      simp [LockClient.granted, LockClient.setHolds, LockClient.setThread, Thread.acquires]
    · simpa [LockClient.granted, LockClient.setHolds, LockClient.setThread, LockClient.setStatus,
        heq] using hothers t' heq
  have honly : ∀ t', (client.granted t lid).holds t' lid = true → t' = t := by
    intro t' ht'
    by_contra hne
    have hholds := h.not_holds hstatus.2 t'
    simp [LockClient.granted, LockClient.setHolds, LockClient.setThread, LockClient.setStatus,
      hne, hholds] at ht'
  apply h.unreleased
  · exact le_rfl
  · exact hreleases
  · exact hreleases
  · simp [hlocked]
  · exact fun _ hreq _ => hreq
  · exact fun t' ht' => absurd ht' (Bool.eq_false_iff.mp (hnone t'))
  · exact fun t' _ ht' => absurd ht' (Bool.eq_false_iff.mp (hnone t'))
  · exact fun _ _ => hlocked
  · exact fun t' t'' ht' ht'' => (honly t' ht').trans (honly t'' ht'').symm
  · exact fun _ => hgranted
  · exact fun t' x ht' => absurd ht' (Thread.ne_calling (hnone t') x)
  · exact fun req _ _ t' ht' => absurd ht' (Thread.ne_calling (hnone t') req.xid)

/-- `release` by the thread that has the lock. -/
theorem Sound.release (h : Sound addr c lid client server requests replies) {t : Nat}
    (ht : client.holds t lid = true) :
    Sound addr c lid ((client.setStatus lid .free).setHolds t lid false) server requests
      replies := by
  have hlocked := h.holding t ht
  have hreleases := h.not_releases (by simp [hlocked])
  have hthreads := h.not_acquires (by simp [hlocked])
  have hfree : ((client.setStatus lid .free).setHolds t lid false).status lid = .free :=
    Function.update_self lid _ client.status
  have hnone : ∀ t', ((client.setStatus lid .free).setHolds t lid false).holds t' lid ≠ true := by
    intro t' ht'
    by_cases heq : t' = t
    · subst heq
      simp [LockClient.setHolds] at ht'
    · have hholds : client.holds t' lid = true := by
        simpa [LockClient.setHolds, LockClient.setStatus, heq] using ht'
      exact heq (h.single t' t hholds ht)
  apply h.unreleased
  · exact le_rfl
  · exact hreleases
  · exact hreleases
  · simp [hfree]
  · exact fun _ hreq _ => hreq
  · exact fun t' ht' => absurd ht' (Bool.eq_false_iff.mp (hthreads t'))
  · exact fun t' _ ht' => absurd ht' (Bool.eq_false_iff.mp (hthreads t'))
  · exact fun t' ht' => absurd ht' (hnone t')
  · exact fun t' _ ht' => absurd ht' (hnone t')
  · exact fun _ => h.granted (.inr hlocked)
  · exact fun t' x ht' => absurd ht' (Thread.ne_calling (hthreads t') x)
  · exact fun req _ _ t' ht' => absurd ht' (Thread.ne_calling (hthreads t') req.xid)

/-- The client at the front that does not have the lock is asking for it. -/
theorem Sound.asking (h : Sound addr c lid client server requests replies)
    (hfront : (server.lockClientList lid).head? = some addr)
    (hlocks : server.locks lid = some false) :
    client.status lid = .acquiring ∨ client.status lid = .retry := by
  have hmem : addr ∈ server.lockClientList lid := List.mem_of_head? hfront
  have hnot : ¬ server.Granted addr lid := by
    intro hgranted
    rw [hgranted.2] at hlocks
    cases hlocks
  cases hstatus : client.status lid with
  | none => exact absurd hmem (h.absent hstatus)
  | free => exact absurd (h.granted (.inl hstatus)) hnot
  | locked => exact absurd (h.granted (.inr hstatus)) hnot
  | acquiring => exact .inl rfl
  | retry => exact .inr rfl
  | releasing =>
      have hreleases := h.releasing.mp hstatus
      cases hreleaser : client.releaser with
      | resting =>
          rw [hreleaser] at hreleases
          cases hreleases
      | visiting l =>
          rw [hreleaser] at hreleases
          cases hreleases
      | sending l =>
          rw [hreleaser] at hreleases
          obtain rfl : l = lid := beq_iff_eq.mp hreleases
          exact absurd (h.unsent hreleaser) hnot
      | calling l y =>
          rw [hreleaser] at hreleases
          obtain rfl : l = lid := beq_iff_eq.mp hreleases
          rcases h.sent y hreleaser with ⟨-, hgranted⟩ | ⟨-, habsent⟩
          · exact absurd hgranted hnot
          · exact absurd hmem habsent

/-- `retry_handler` runs while the lock is being acquired. -/
theorem Sound.retryHandler (h : Sound addr c lid client server requests replies)
    (hasking : client.status lid = .acquiring ∨ client.status lid = .retry) :
    Sound addr c lid (client.retryHandler lid) server requests replies := by
  have hreleases := h.not_releases (by rcases hasking with heq | heq <;> simp [heq])
  have hholds := h.not_holds (by rcases hasking with heq | heq <;> simp [heq])
  have hretry : (client.retryHandler lid).status lid = .retry :=
    Function.update_self lid _ client.status
  apply h.unreleased
  · exact le_rfl
  · exact hreleases
  · exact hreleases
  · simp [hretry]
  · exact fun _ hreq _ => hreq
  · exact fun _ _ => .inr hretry
  · exact h.alone
  · exact fun t' ht' => absurd ht' (Bool.eq_false_iff.mp (hholds t'))
  · exact h.single
  · simp [hretry]
  · exact h.live
  · exact h.ok

/-- The releaser finds FREE. -/
theorem Sound.visit (h : Sound addr c lid client server requests replies)
    (hfree : client.status lid = .free) :
    Sound addr c lid { client.setStatus lid .releasing with releaser := .sending lid } server
      requests replies := by
  have hreleases := h.not_releases (by simp [hfree])
  have hthreads := h.not_acquires (by simp [hfree])
  have hholds := h.not_holds (by simp [hfree])
  have hreleasing : (client.setStatus lid .releasing).status lid = .releasing :=
    Function.update_self lid _ client.status
  constructor
  · exact fun t ht => absurd ht (Bool.eq_false_iff.mp (hthreads t))
  · exact fun t _ ht => absurd ht (Bool.eq_false_iff.mp (hthreads t))
  · exact fun t ht => absurd ht (Bool.eq_false_iff.mp (hholds t))
  · exact h.single
  · exact ⟨fun _ => beq_self_eq_true lid, fun _ => hreleasing⟩
  · simp [hreleasing]
  · rw [hreleasing]
    exact nofun
  · exact fun _ => h.granted (.inl hfree)
  · exact nofun
  · exact h.last
  · exact h.live
  · rw [hreleasing]
    exact fun _ _ _ _ => ⟨nofun, nofun⟩
  · intro req hreq his
    rcases h.releases req hreq his with hle | heq
    · exact .inl hle
    · exact absurd heq (Releaser.ne_calling hreleases _)
  · exact nofun
  · exact h.ok
  · exact h.done

/-- `++xid` and the call of `release`. -/
theorem Sound.sendRelease (h : Sound addr c lid client server requests replies) {y : Nat}
    (hreleaser : client.releaser = .sending lid) (hy : client.xid < y)
    (hissued : ∀ req ∈ requests, req.clt = c → req.xid ≤ client.xid) :
    Sound addr c lid { client with xid := y, releaser := .calling lid y } server
      ([⟨.release, c, lid, y⟩] ++ requests) replies := by
  have hreleasing := h.releasing.mpr (releases_of_sending hreleaser)
  have hlast : server.clientLockId c lid < y := h.last.trans_lt hy
  constructor
  · exact h.acquiring
  · exact h.alone
  · exact h.holding
  · exact h.single
  · exact ⟨fun _ => beq_self_eq_true lid, fun _ => hreleasing⟩
  · exact h.granted
  · exact h.absent
  · exact nofun
  · intro y' hy'
    cases hy'
    exact .inl ⟨hlast, h.unsent hreleaser⟩
  · exact hlast.le
  · exact h.live
  · intro req hreq his hlt
    rcases List.mem_cons.mp hreq with rfl | hold
    · cases his.1
    · refine ⟨(h.acquires req hold his hlt).1, ?_⟩
      intro heq
      cases heq
      exact lt_irrefl _ hlast
  · intro req hreq his
    rcases List.mem_cons.mp hreq with rfl | hold
    · exact .inr rfl
    · rcases h.releases req hold his with hle | heq
      · exact .inl hle
      · rw [hreleaser] at heq
        cases heq
  · intro y' hy' req hreq his
    cases hy'
    rcases List.mem_cons.mp hreq with rfl | hold
    · cases his.1
    · exact (hissued req hold his.2.1).trans hy.le
  · exact h.ok
  · exact h.done

/-- The call of `release` returns after the server has executed it. -/
theorem Sound.released (h : Sound addr c lid client server requests replies) {y : Nat}
    {releaser : Releaser} (hreleaser : client.releaser = .calling lid y)
    (hdone : y ≤ server.clientLockId c lid) (hafter : releaser.releases lid = false) :
    Sound addr c lid { client.setStatus lid .none with releaser := releaser } server requests
      replies := by
  have hreleasing := h.releasing.mpr (releases_of_calling hreleaser)
  have hthreads := h.not_acquires (by simp [hreleasing])
  have hholds := h.not_holds (by simp [hreleasing])
  obtain ⟨hlast, habsent⟩ : server.clientLockId c lid = y ∧
      addr ∉ server.lockClientList lid := by
    rcases h.sent y hreleaser with ⟨hlt, -⟩ | hboth
    · exact absurd hdone (Nat.not_le.mpr hlt)
    · exact hboth
  have hnone : (client.setStatus lid .none).status lid = .none :=
    Function.update_self lid _ client.status
  constructor
  · exact fun t ht => absurd ht (Bool.eq_false_iff.mp (hthreads t))
  · exact h.alone
  · exact fun t ht => absurd ht (Bool.eq_false_iff.mp (hholds t))
  · exact h.single
  · rw [hnone, hafter]
    exact ⟨nofun, nofun⟩
  · simp [hnone]
  · exact fun _ => habsent
  · exact fun heq => absurd heq (Releaser.ne_sending hafter)
  · exact fun y' heq => absurd heq (Releaser.ne_calling hafter y')
  · exact h.last
  · exact h.live
  · intro req hreq his hlt
    have hle := h.older y hreleaser req hreq his
    exact absurd hle (Nat.not_le.mpr (hlast ▸ hlt))
  · intro req hreq his
    rcases h.releases req hreq his with hle | heq
    · exact .inl hle
    · rw [hreleaser] at heq
      cases heq
      exact .inl hdone
  · exact fun y' heq => absurd heq (Releaser.ne_calling hafter y')
  · exact h.ok
  · exact h.done

end Changed

end DistributedLab.Lock
