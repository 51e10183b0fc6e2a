import DistributedLab.ExtentCache
import DistributedLab.LockCacheExclusion

/-!
# Coherence of the extent caches

Nothing that a process writes reaches the server, since nobody calls `flush`, and
nothing that another process has cached is forgotten.  What `get` returns is what the
process itself has put last, or what the server had from the start.

So `get` is right if the process itself made the most recent `put` or `remove`.  While
a thread accesses an extent it has the lock, so nobody else writes it in between.
-/

namespace DistributedLab.Extent

open Transition LockCache Relay
open Lock (address address_injective)

/-! ## 1. Locks that are held -/

/-- The thread stays where it is and keeps its locks. -/
def Keeps (t : Nat) (client client' : LockClientCache) : Prop :=
  client'.thread t = client.thread t ∧
    ∀ lid, client.holds t lid = true → client'.holds t lid = true

section Keeps

variable {client : LockClientCache} {t t' lid : Nat}

theorem Keeps.refl : Keeps t client client := ⟨rfl, fun _ h => h⟩

theorem Keeps.trans {client' client'' : LockClientCache} (h : Keeps t client client')
    (h' : Keeps t client' client'') : Keeps t client client'' :=
  ⟨h'.1.trans h.1, fun lid hlid => h'.2 lid (h.2 lid hlid)⟩

theorem keeps_revokeHandler {handler : Handler} {out : LockClientCache × Handler}
    (h : client.revokeHandler lid handler = some out) : Keeps t client out.1 := by
  cases handler with
  | waiting =>
      simp only [LockClientCache.revokeHandler] at h
      split at h
      · obtain rfl := Option.some.inj h
        exact Keeps.refl
      · obtain rfl := Option.some.inj h
        exact Keeps.refl
      · cases h
  | releasing =>
      simp only [LockClientCache.revokeHandler] at h
      split at h
      · cases h
      · obtain rfl := Option.some.inj h
        exact Keeps.refl
  | answered status => cases h

theorem keeps_setThread {thread : Thread} (ht : t ≠ t') :
    Keeps t client (client.setThread t' thread) :=
  ⟨Function.update_of_ne ht _ _, fun _ h => h⟩

theorem keeps_granted (ht : t ≠ t') : Keeps t client (client.granted t' lid) := by
  refine ⟨Function.update_of_ne ht _ _, ?_⟩
  intro l hl
  simpa [LockClientCache.granted, LockClientCache.setHolds, LockClientCache.setThread,
    LockClientCache.setStatus, ht] using hl

theorem keeps_onClient {s : LockCacheSystem} {c c' : Nat}
    (h : c' = c → Keeps t (s.client c') client) :
    Keeps t (s.client c) ((s.onClient c' client).client c) := by
  by_cases hc : c = c'
  · subst hc
    simpa [LockCacheSystem.onClient] using h rfl
  · simpa [LockCacheSystem.onClient, hc] using Keeps.refl

/-- A thread that is not in `acquire` is not concerned by the calls of the others. -/
theorem keeps_setCall {s : LockCacheSystem} {c c' : Nat} {call call' : Call}
    (hthread : (s.client c).thread t = .outside)
    (h : (s.client c').thread t' = .acquiring lid (.calling call)) :
    Keeps t (s.client c) ((s.setCall c' t' call').client c) := by
  apply keeps_onClient
  rintro rfl
  apply keeps_setThread
  rintro rfl
  rw [hthread] at h
  cases h

/-- Nothing but its own `acquire` and `release` concerns a thread that is not in `acquire`. -/
theorem keeps_step {dst : Nat → String} {s s' : LockCacheSystem} {queue : Nat → List Nat}
    {action : LockCacheSystem.Action} {c : Nat} (h : s.Relayed dst queue)
    (hstep : s.step dst action = some s') (hthread : (s.client c).thread t = .outside)
    (henter : ∀ lid, action ≠ .enter c t lid) (hrelease : ∀ lid, action ≠ .release c t lid) :
    Keeps t (s.client c) (s'.client c) := by
  cases action with
  | enter c' t' lid =>
      obtain ⟨client, hclient, rfl⟩ := Option.map_eq_some_iff.mp hstep
      apply keeps_onClient
      rintro rfl
      unfold LockClientCache.enter at hclient
      split at hclient
      · obtain rfl := Option.some.inj hclient
        apply keeps_setThread
        rintro rfl
        exact henter lid rfl
      · cases hclient
  | test c' t' =>
      obtain ⟨client, hclient, rfl⟩ := Option.map_eq_some_iff.mp hstep
      apply keeps_onClient
      rintro rfl
      obtain ⟨lid, hentering, hcases⟩ := LockClientCache.test_cases hclient
      have ht : t ≠ t' := by
        rintro rfl
        rw [hthread] at hentering
        cases hentering
      rcases hcases with ⟨-, rfl⟩ | ⟨-, rfl⟩
      · exact keeps_setThread ht
      · exact keeps_granted ht
  | answered c' t' =>
      obtain ⟨client, hclient, rfl⟩ := Option.map_eq_some_iff.mp hstep
      apply keeps_onClient
      rintro rfl
      obtain ⟨lid, stage, hacquiring, hcases⟩ := LockClientCache.answered_cases hclient
      have hstands := ((h.queued lid).fits c').stands t' stage (stage_shares hacquiring)
      have ht : t ≠ t' := by
        rintro rfl
        rw [hthread] at hacquiring
        cases hacquiring
      rcases hcases with ⟨-, rfl⟩ | rfl | ⟨call, rfl⟩
      · exact keeps_granted ht
      · cases hstands
      · cases hstands
  | again c' t' =>
      obtain ⟨client, hclient, rfl⟩ := Option.map_eq_some_iff.mp hstep
      obtain ⟨lid, hacquiring⟩ := LockClientCache.again_cases hclient
      have hstands := ((h.queued lid).fits c').stands t' _ (stage_shares hacquiring)
      cases hstands
  | release c' t' lid =>
      obtain ⟨client, hclient, rfl⟩ := Option.map_eq_some_iff.mp hstep
      apply keeps_onClient
      rintro rfl
      unfold LockClientCache.release at hclient
      split at hclient
      · obtain rfl := Option.some.inj hclient
        refine ⟨rfl, ?_⟩
        intro l hl
        have ht : t ≠ t' := by
          rintro rfl
          exact hrelease lid rfl
        simpa [LockClientCache.setHolds, LockClientCache.setStatus, ht] using hl
      · cases hclient
  | serve c' t' =>
      obtain ⟨lid, hcall, rfl⟩ := LockCacheSystem.serve_cases hstep
      exact keeps_setCall hthread (h.calling hcall)
  | revoke c' t' target =>
      obtain ⟨lid, client, handler, out, hcall, -, hout, rfl⟩ :=
        LockCacheSystem.revoke_cases hstep
      have hhandled : ∀ c t, Keeps t (s.client c) ((s.onClient target out.1).client c) := by
        intro c t
        apply keeps_onClient
        rintro rfl
        exact keeps_revokeHandler hout
      have houtside : ((s.onClient target out.1).client c).thread t = .outside := by
        rw [(hhandled c t).1]
        exact hthread
      have hcalling : ((s.onClient target out.1).client c').thread t' =
          .acquiring lid (.calling (.revoking client handler)) := by
        rw [(hhandled c' t').1]
        exact h.calling hcall
      exact (hhandled c t).trans (keeps_setCall houtside hcalling)
  | revoked c' t' =>
      obtain ⟨lid, client, status, hcall, rfl⟩ := LockCacheSystem.revoked_cases hstep
      exact keeps_setCall hthread (h.calling hcall)
  | retry c' t' target =>
      obtain ⟨lid, client, hcall⟩ := LockCacheSystem.retry_cases hstep
      have hstands := ((h.queued lid).fits c').stands t' _ (h.stage hcall)
      cases hstands

end Keeps

/-! ## 2. What an access does to a cache -/

/-- The extent that a thread accesses. -/
def Access.eid? : Access → Option Nat
  | .idle => none
  | .fetching eid _ => some eid
  | .fetched eid _ _ _ => some eid
  | .reading eid => some eid
  | .read eid _ _ => some eid
  | .got eid _ _ => some eid
  | .gotattr eid _ _ => some eid

/-- The caches differ at one extent at most. -/
def SameOff (eid : Nat) (e e' : ExtentClient) : Prop :=
  ∀ other, other ≠ eid → e'.contents other = e.contents other ∧
    e'.attributes other = e.attributes other

section Access

variable {e : ExtentClient} {eid : Nat} {now : UInt32} {status : Status} {buf : Buf} {attr : Attr}

theorem SameOff.refl : SameOff eid e e := fun _ _ => ⟨rfl, rfl⟩

theorem SameOff.trans {e' e'' : ExtentClient} (h : SameOff eid e e') (h' : SameOff eid e' e'') :
    SameOff eid e e'' := by
  intro other hother
  rw [(h' other hother).1, (h' other hother).2]
  exact h other hother

theorem sameOff_setAttr : SameOff eid e (e.setAttr eid attr) := by
  intro other hother
  exact ⟨rfl, Function.update_of_ne hother _ _⟩

theorem sameOff_setContent : SameOff eid e (e.setContent eid buf) := by
  intro other hother
  exact ⟨Function.update_of_ne hother _ _, rfl⟩

theorem sameOff_erase : SameOff eid e (e.erase eid) := by
  intro other hother
  exact ⟨Function.update_of_ne hother _ _, Function.update_of_ne hother _ _⟩

theorem sameOff_conclude : SameOff eid e (e.conclude eid status buf).1 := by
  unfold ExtentClient.conclude
  dsimp only
  split
  · exact SameOff.refl
  · exact sameOff_erase

theorem sameOff_readContent : SameOff eid e (e.readContent eid status now).1 := by
  unfold ExtentClient.readContent
  split
  · exact sameOff_setAttr
  · exact sameOff_setAttr.trans sameOff_conclude

theorem sameOff_get : SameOff eid e (e.get eid now).1 := by
  unfold ExtentClient.get
  split
  · exact SameOff.refl
  · exact sameOff_readContent

theorem readContent_of_some (h : e.contents eid = some buf) :
    e.readContent eid .ok now = (e.touch eid now, .got eid .ok buf) := by
  unfold ExtentClient.readContent
  rw [h]
  rfl

theorem readContent_of_none (h : e.contents eid = none) :
    e.readContent eid status now = (e.touch eid now, .reading eid) := by
  unfold ExtentClient.readContent
  rw [h]

/-- The two calls. -/
theorem ExtentServer.answer_cases {server : ExtentServer} {access : Access}
    {out : ExtentServer × Access} (h : server.answer now attr access = some out) :
    (∃ eid op, access = .fetching eid op ∧
      out = (server, .fetched eid op (server.getattr eid attr).1 (server.getattr eid attr).2)) ∨
    ∃ eid, access = .reading eid ∧
      out = ((server.get eid now).1,
        .read eid (server.get eid now).2.1 (server.get eid now).2.2) := by
  cases access with
  | fetching eid op => exact .inl ⟨eid, op, rfl, (Option.some.inj h).symm⟩
  | reading eid => exact .inr ⟨eid, rfl, (Option.some.inj h).symm⟩
  | _ => cases h

theorem ExtentClient.resume_cases {access : Access} {out : ExtentClient × Access}
    (h : e.resume now access = some out) :
    (∃ eid status attr, access = .fetched eid .get status attr ∧
      out = (e.setAttr eid attr).readContent eid status now) ∨
    (∃ eid status attr, access = .fetched eid .getattr status attr ∧
      out = (if status = .ok then e.setAttr eid attr else e.erase eid,
        .gotattr eid status attr)) ∨
    ∃ eid status buf, access = .read eid status buf ∧
      out = (e.setContent eid buf).conclude eid status buf := by
  cases access with
  | fetched eid op status attr =>
      cases op with
      | get => exact .inl ⟨eid, status, attr, rfl, (Option.some.inj h).symm⟩
      | getattr => exact .inr (.inl ⟨eid, status, attr, rfl, (Option.some.inj h).symm⟩)
  | read eid status buf => exact .inr (.inr ⟨eid, status, buf, rfl, (Option.some.inj h).symm⟩)
  | _ => cases h

theorem eid?_readContent : (e.readContent eid status now).2.eid? = some eid := by
  unfold ExtentClient.readContent
  split
  · rfl
  · rfl

theorem eid?_get : (e.get eid now).2.eid? = some eid := by
  unfold ExtentClient.get
  split
  · rfl
  · exact eid?_readContent

end Access

/-! ## 3. The invariant -/

/-- What the process of the most recent write has in its cache. -/
def Write.Cached (w : Write) (e : ExtentClient) (eid : Nat) : Prop :=
  match w.content with
  | some content => e.contents eid = some content ∧ e.attributes eid ≠ none
  | none => eid ≠ 1 → e.contents eid = none

/-- What the most recent write can be while a thread of the process `c` is in an access. -/
def Access.Sound (c : Nat) (last : Nat → Option Write) : Access → Prop
  | .idle => True
  | .fetching eid .get => ∀ w, last eid = some w → w = ⟨c, none⟩ ∧ eid ≠ 1
  | .fetched eid .get _ _ => ∀ w, last eid = some w → w = ⟨c, none⟩ ∧ eid ≠ 1
  | .fetching eid .getattr => ∀ w, last eid = some w → w.process = c → w.content = none
  | .fetched eid .getattr _ _ => ∀ w, last eid = some w → w.process = c → w.content = none
  | .reading eid => ∀ w, last eid = some w → w = ⟨c, none⟩ ∧ eid ≠ 1
  | .read eid status _ => ∀ w, last eid = some w → w = ⟨c, none⟩ ∧ eid ≠ 1 ∧ status ≠ .ok
  | .got eid status buf => ∀ w, last eid = some w → w.Agrees status buf
  | .gotattr _ _ _ => True

structure FileSystem.Tracked (dst : Nat → String) (s : FileSystem) : Prop where
  relayed : ∃ queue, s.locks.Relayed dst queue
  accessing : ∀ c t eid, (s.access c t).eid? = some eid →
    (s.locks.client c).holds t eid = true ∧ (s.locks.client c).thread t = .outside
  absent : ∀ eid, eid ≠ 1 → s.server.contents eid = none
  cached : ∀ eid w, s.last eid = some w → w.Cached (s.client w.process) eid
  sound : ∀ c t, (s.access c t).Sound c s.last

theorem Access.Sound.congr {c : Nat} {last last' : Nat → Option Write} {access : Access}
    (h : access.Sound c last) (hlast : ∀ eid, access.eid? = some eid → last' eid = last eid) :
    access.Sound c last' := by
  cases access with
  | idle => trivial
  | fetching eid op => cases op <;> simpa only [Access.Sound, hlast eid rfl] using h
  | fetched eid op status attr => cases op <;> simpa only [Access.Sound, hlast eid rfl] using h
  | reading eid => simpa only [Access.Sound, hlast eid rfl] using h
  | read eid status buf => simpa only [Access.Sound, hlast eid rfl] using h
  | got eid status buf => simpa only [Access.Sound, hlast eid rfl] using h
  | gotattr eid status attr => trivial

/-- Nothing is said about an extent that nobody has written. -/
theorem Access.Sound.of_unwritten {c eid : Nat} {last : Nat → Option Write} {access : Access}
    (heid : ∀ eid', access.eid? = some eid' → eid' = eid) (hlast : last eid = none) :
    access.Sound c last := by
  have hfalse : ∀ eid' w, access.eid? = some eid' → last eid' ≠ some w := by
    intro eid' w heid' hw
    rw [heid eid' heid', hlast] at hw
    cases hw
  cases access with
  | idle => trivial
  | fetching eid op => cases op <;> exact fun w hw => absurd hw (hfalse eid w rfl)
  | fetched eid op status attr => cases op <;> exact fun w hw => absurd hw (hfalse eid w rfl)
  | reading eid => exact fun w hw => absurd hw (hfalse eid w rfl)
  | read eid status buf => exact fun w hw => absurd hw (hfalse eid w rfl)
  | got eid status buf => exact fun w hw => absurd hw (hfalse eid w rfl)
  | gotattr eid status attr => trivial

section Cached

variable {e : ExtentClient} {c eid : Nat} {w : Write} {last : Nat → Option Write} {now : UInt32}

theorem Write.Cached.of_contents {e' : ExtentClient} (hw : w.content = none)
    (h : e'.contents eid = none) : w.Cached e' eid := by
  unfold Write.Cached
  rw [hw]
  exact fun _ => h

/-- `get` by the process of the most recent write. -/
theorem Write.Cached.get (h : w.Cached e eid) (hlast : last eid = some w) (hprocess : w.process = c)
    (hroot : w.content = none → eid ≠ 1) :
    w.Cached (e.get eid now).1 eid ∧ (e.get eid now).2.Sound c last := by
  obtain ⟨process, content⟩ := w
  obtain rfl : process = c := hprocess
  cases content with
  | some content =>
      obtain ⟨hcontents, hattributes⟩ : e.contents eid = some content ∧ e.attributes eid ≠ none := h
      obtain ⟨attr, hattr⟩ := Option.ne_none_iff_exists'.mp hattributes
      have hget : e.get eid now = (e.touch eid now, .got eid .ok content) := by
        unfold ExtentClient.get
        rw [hattr]
        exact readContent_of_some hcontents
      rw [hget]
      refine ⟨⟨hcontents, ?_⟩, ?_⟩
      · simp [ExtentClient.touch, ExtentClient.setAttr]
      · intro w hw
        rw [hlast] at hw
        obtain rfl := Option.some.inj hw
        exact ⟨rfl, rfl⟩
  | none =>
      have heid : eid ≠ 1 := hroot rfl
      have hcontents : e.contents eid = none := h heid
      have hwrite : ∀ w, last eid = some w → w = ⟨process, none⟩ ∧ eid ≠ 1 := by
        intro w hw
        rw [hlast] at hw
        exact ⟨(Option.some.inj hw).symm, heid⟩
      unfold ExtentClient.get
      split
      · exact ⟨h, hwrite⟩
      · rw [readContent_of_none hcontents]
        exact ⟨.of_contents rfl hcontents, hwrite⟩

end Cached

section Tracked

variable {dst : Nat → String} {s s' : FileSystem} {c t eid : Nat}

theorem FileSystem.Tracked.initial : ∀ s, (fileSystem dst).init s → s.Tracked dst := by
  rintro s rfl
  refine ⟨⟨_, LockCacheSystem.Relayed.initial⟩, nofun, ?_, nofun, fun _ _ => trivial⟩
  intro eid heid
  simp [ExtentServer.new, heid]

theorem access_onClient {out : ExtentClient × Access} (c' t' : Nat) :
    (s.onClient c t out).access c' t' = if c' = c ∧ t' = t then out.2 else s.access c' t' := by
  unfold FileSystem.onClient
  dsimp only
  by_cases hc : c' = c
  · subst hc
    by_cases ht : t' = t
    · simp [ht]
    · simp [ht]
  · simp [hc]

/-- A step of a thread in an access. -/
theorem FileSystem.Tracked.onClient {out : ExtentClient × Access} {server : ExtentServer}
    (h : s.Tracked dst)
    (hholds : (s.locks.client c).holds t eid = true ∧ (s.locks.client c).thread t = .outside)
    (heid : ∀ eid', out.2.eid? = some eid' → eid' = eid)
    (hoff : SameOff eid (s.client c) out.1)
    (hcached : ∀ w, s.last eid = some w → w.process = c → w.Cached out.1 eid)
    (hsound : out.2.Sound c s.last)
    (hserver : ∀ eid, eid ≠ 1 → server.contents eid = none) :
    FileSystem.Tracked dst { s.onClient c t out with server := server } where
  relayed := h.relayed
  accessing := by
    intro c' t' eid' haccess
    have haccess' : (if c' = c ∧ t' = t then out.2 else s.access c' t').eid? = some eid' := by
      rw [← access_onClient]
      exact haccess
    split at haccess'
    · rename_i hct
      obtain ⟨rfl, rfl⟩ := hct
      rw [heid eid' haccess']
      exact hholds
    · exact h.accessing c' t' eid' haccess'
  absent := hserver
  cached := by
    intro eid' w hw
    have hold := h.cached eid' w hw
    show w.Cached (Function.update s.client c out.1 w.process) eid'
    by_cases hc : w.process = c
    · rw [hc, Function.update_self]
      by_cases heq : eid' = eid
      · subst heq
        exact hcached w hw hc
      · unfold Write.Cached at hold ⊢
        rw [(hoff eid' heq).1, (hoff eid' heq).2, ← hc]
        exact hold
    · rw [Function.update_of_ne hc]
      exact hold
  sound := by
    intro c' t'
    show Access.Sound c' s.last ((s.onClient c t out).access c' t')
    rw [access_onClient]
    split
    · rename_i hct
      obtain ⟨rfl, rfl⟩ := hct
      exact hsound
    · exact h.sound c' t'

theorem FileSystem.locked_iff : s.locked c t eid = true ↔
    ((s.locks.client c).holds t eid = true ∧ (s.locks.client c).thread t = .outside) ∧
      s.access c t = .idle := by
  unfold FileSystem.locked
  rw [Bool.and_eq_true, Bool.and_eq_true, decide_eq_true_iff, decide_eq_true_iff]

theorem FileSystem.Tracked.get {now : UInt32} (h : s.Tracked dst)
    (hlocked : s.locked c t eid = true)
    (hown : ∀ w, s.last eid = some w → w.process = c ∧ (w.content = none → eid ≠ 1)) :
    (s.onClient c t ((s.client c).get eid now)).Tracked dst := by
  have heid : ∀ eid', ((s.client c).get eid now).2.eid? = some eid' → eid' = eid := by
    intro eid' heid'
    rw [eid?_get] at heid'
    exact (Option.some.inj heid').symm
  have hwritten : ∀ w, s.last eid = some w →
      w.Cached ((s.client c).get eid now).1 eid ∧
        ((s.client c).get eid now).2.Sound c s.last := by
    intro w hw
    obtain ⟨hprocess, hroot⟩ := hown w hw
    have hcached := h.cached eid w hw
    rw [hprocess] at hcached
    exact hcached.get hw hprocess hroot
  refine h.onClient (FileSystem.locked_iff.mp hlocked).1 heid sameOff_get ?_ ?_ h.absent
  · intro w hw _
    exact (hwritten w hw).1
  · rcases hlast : s.last eid with _ | w
    · exact .of_unwritten heid hlast
    · exact (hwritten w hlast).2

theorem FileSystem.Tracked.getattr (h : s.Tracked dst) (hlocked : s.locked c t eid = true) :
    (s.onClient c t ((s.client c).getattr eid)).Tracked dst := by
  have hholds := (FileSystem.locked_iff.mp hlocked).1
  unfold ExtentClient.getattr
  split
  · rename_i hattributes
    refine h.onClient hholds ?_ SameOff.refl ?_ ?_ h.absent
    · rintro eid' heid'
      exact (Option.some.inj heid').symm
    · rintro w hw rfl
      exact h.cached eid w hw
    · -- The process has not put the extent, or it would have the attributes.
      rintro ⟨process, content⟩ hw hprocess
      obtain rfl : process = c := hprocess
      cases content with
      | none => rfl
      | some content => exact absurd hattributes (h.cached eid _ hw).2
  · refine h.onClient hholds ?_ SameOff.refl ?_ trivial h.absent
    · rintro eid' heid'
      exact (Option.some.inj heid').symm
    · rintro w hw rfl
      exact h.cached eid w hw

theorem contents_get (server : ExtentServer) (eid : Nat) (now : UInt32) :
    (server.get eid now).1.contents = server.contents := by
  unfold ExtentServer.get
  split
  · rfl
  · rfl

theorem FileSystem.Tracked.answer {now : UInt32} {junk : Attr} {out : ExtentServer × Access}
    (h : s.Tracked dst) (hanswer : s.server.answer now junk (s.access c t) = some out) :
    FileSystem.Tracked dst { s.onClient c t (s.client c, out.2) with server := out.1 } := by
  have hsound := h.sound c t
  rcases ExtentServer.answer_cases hanswer with ⟨eid, op, haccess, rfl⟩ | ⟨eid, haccess, rfl⟩
  · rw [haccess] at hsound
    refine h.onClient (h.accessing c t eid (by rw [haccess]; rfl)) ?_ SameOff.refl ?_ ?_ h.absent
    · intro eid' heid'
      exact (Option.some.inj heid').symm
    · rintro w hw rfl
      exact h.cached eid w hw
    · cases op with
      | get => exact hsound
      | getattr => exact hsound
  · rw [haccess] at hsound
    refine h.onClient (h.accessing c t eid (by rw [haccess]; rfl)) ?_ SameOff.refl ?_ ?_ ?_
    · intro eid' heid'
      exact (Option.some.inj heid').symm
    · rintro w hw rfl
      exact h.cached eid w hw
    · intro w hw
      obtain ⟨rfl, heid⟩ := hsound w hw
      refine ⟨rfl, heid, ?_⟩
      unfold ExtentServer.get
      simp [h.absent eid heid]
    · intro eid' heid'
      rw [contents_get]
      exact h.absent eid' heid'

theorem FileSystem.Tracked.resume {now : UInt32} {out : ExtentClient × Access}
    (h : s.Tracked dst) (hresume : (s.client c).resume now (s.access c t) = some out) :
    (s.onClient c t out).Tracked dst := by
  have hsound := h.sound c t
  have haccessing := h.accessing c t
  rcases ExtentClient.resume_cases hresume with ⟨eid, status, attr, haccess, rfl⟩ |
    ⟨eid, status, attr, haccess, rfl⟩ | ⟨eid, status, buf, haccess, rfl⟩
  · -- `get` with the attributes.
    rw [haccess] at hsound haccessing
    have hwrite : ∀ w, s.last eid = some w → w = ⟨c, none⟩ ∧ eid ≠ 1 := hsound
    have hcontents : ∀ w, s.last eid = some w →
        ((s.client c).setAttr eid attr).contents eid = none := by
      intro w hw
      obtain ⟨rfl, heid⟩ := hwrite w hw
      exact h.cached eid _ hw heid
    have heid : ∀ eid', (((s.client c).setAttr eid attr).readContent eid status now).2.eid? =
        some eid' → eid' = eid := by
      intro eid' heid'
      rw [eid?_readContent] at heid'
      exact (Option.some.inj heid').symm
    refine h.onClient (haccessing eid rfl) heid (sameOff_setAttr.trans sameOff_readContent) ?_ ?_
      h.absent
    · intro w hw _
      rw [readContent_of_none (hcontents w hw)]
      exact .of_contents (by rw [(hwrite w hw).1]) (hcontents w hw)
    · rcases hlast : s.last eid with _ | w
      · exact .of_unwritten heid hlast
      · rw [readContent_of_none (hcontents w hlast)]
        exact hwrite
  · -- `getattr` with the attributes, or without.
    rw [haccess] at hsound haccessing
    refine h.onClient (haccessing eid rfl) ?_ ?_ ?_ trivial h.absent
    · intro eid' heid'
      exact (Option.some.inj heid').symm
    · dsimp only
      split
      · exact sameOff_setAttr
      · exact sameOff_erase
    · rintro w hw rfl
      have hcontent : w.content = none := hsound w hw rfl
      have hcached := h.cached eid w hw
      dsimp only
      unfold Write.Cached at hcached ⊢
      rw [hcontent] at hcached ⊢
      intro heid
      split
      · exact hcached heid
      · simp [ExtentClient.erase]
  · -- `get` with the content, or without.
    rw [haccess] at hsound haccessing
    have hwrite : ∀ w, s.last eid = some w → w = ⟨c, none⟩ ∧ eid ≠ 1 ∧ status ≠ .ok := hsound
    refine h.onClient (haccessing eid rfl) ?_ (sameOff_setContent.trans sameOff_conclude) ?_ ?_
      h.absent
    · intro eid' heid'
      exact (Option.some.inj heid').symm
    · intro w hw _
      obtain ⟨rfl, -, hstatus⟩ := hwrite w hw
      apply Write.Cached.of_contents rfl
      simp [ExtentClient.conclude, hstatus, ExtentClient.erase]
    · intro w hw
      obtain ⟨rfl, -, hstatus⟩ := hwrite w hw
      exact hstatus

theorem FileSystem.Tracked.finish (h : s.Tracked dst)
    (hstep : s.step dst (.finish c t) = some s') : s'.Tracked dst := by
  have hidle : ∀ eid, (s.access c t).eid? = some eid →
      (s.onClient c t (s.client c, .idle)).Tracked dst := by
    intro eid heid
    refine h.onClient (h.accessing c t eid heid) nofun SameOff.refl ?_ trivial h.absent
    rintro w hw rfl
    exact h.cached eid w hw
  simp only [FileSystem.step] at hstep
  split at hstep
  · rename_i eid status buf haccess
    obtain rfl := Option.some.inj hstep
    exact hidle eid (by rw [haccess]; rfl)
  · rename_i eid status attr haccess
    obtain rfl := Option.some.inj hstep
    exact hidle eid (by rw [haccess]; rfl)
  · cases hstep

/-- A `put` or `remove`.  No other thread is in an access to the extent. -/
theorem FileSystem.Tracked.written {client : ExtentClient} {content : Option Buf}
    (h : s.Tracked dst) (hlocked : s.locked c t eid = true)
    (hoff : SameOff eid (s.client c) client) (hcached : Write.Cached ⟨c, content⟩ client eid) :
    (s.written c eid client content).Tracked dst where
  relayed := h.relayed
  accessing := h.accessing
  absent := h.absent
  cached := by
    intro eid' w hw
    show w.Cached (Function.update s.client c client w.process) eid'
    by_cases heid : eid' = eid
    · subst heid
      have hw' : some (⟨c, content⟩ : Write) = some w := by
        simpa [FileSystem.written] using hw
      obtain rfl := Option.some.inj hw'
      rw [Function.update_self]
      exact hcached
    · have hw' : s.last eid' = some w := by simpa [FileSystem.written, heid] using hw
      have hold := h.cached eid' w hw'
      by_cases hc : w.process = c
      · rw [hc, Function.update_self]
        unfold Write.Cached at hold ⊢
        rw [(hoff eid' heid).1, (hoff eid' heid).2, ← hc]
        exact hold
      · rw [Function.update_of_ne hc]
        exact hold
  sound := by
    intro c' t'
    apply (h.sound c' t').congr
    intro eid' heid'
    have hne : eid' ≠ eid := by
      rintro rfl
      obtain ⟨queue, hrelayed⟩ := h.relayed
      obtain ⟨⟨hholds, -⟩, hidle⟩ := FileSystem.locked_iff.mp hlocked
      obtain ⟨rfl, rfl⟩ :=
        hrelayed.mutualExclusion eid' c' t' c t (h.accessing c' t' eid' heid').1 hholds
      rw [hidle] at heid'
      cases heid'
    exact Function.update_of_ne hne _ _

theorem FileSystem.dorelease_eq (s : FileSystem) (action : LockCacheSystem.Action) :
    s.dorelease action = s := by
  unfold FileSystem.dorelease
  split
  · split
    · unfold ExtentClient.dorelease
      rw [Function.update_eq_self]
    · rfl
  · rfl

theorem FileSystem.Tracked.lock {action : LockCacheSystem.Action} {locks : LockCacheSystem}
    (h : s.Tracked dst) (hdst : Function.Injective dst) (hmay : s.mayLock action = true)
    (hlocks : s.locks.step dst action = some locks) :
    FileSystem.Tracked dst { s.dorelease action with locks := locks } := by
  rw [FileSystem.dorelease_eq]
  obtain ⟨queue, hrelayed⟩ := h.relayed
  obtain ⟨queue', -, hrelayed'⟩ := hrelayed.step hdst hlocks
  refine ⟨⟨queue', hrelayed'⟩, ?_, h.absent, h.cached, h.sound⟩
  intro c t eid heid
  obtain ⟨hholds, hthread⟩ := h.accessing c t eid heid
  have hbusy : s.access c t ≠ .idle := by
    intro hidle
    have heid' : (s.access c t).eid? = some eid := heid
    rw [hidle] at heid'
    cases heid'
  have hkeeps : Keeps t (s.locks.client c) (locks.client c) := by
    apply keeps_step hrelayed hlocks hthread
    · rintro lid rfl
      exact hbusy (of_decide_eq_true hmay)
    · rintro lid rfl
      exact hbusy (of_decide_eq_true hmay)
  exact ⟨hkeeps.2 eid hholds, hkeeps.1.trans hthread⟩

theorem FileSystem.Tracked.step {action : FileSystem.Action} (h : s.Tracked dst)
    (hdst : Function.Injective dst) (hown : s.own action)
    (hstep : s.step dst action = some s') : s'.Tracked dst := by
  cases action with
  | lock action =>
      simp only [FileSystem.step] at hstep
      split at hstep
      · rename_i hmay
        obtain ⟨locks, hlocks, rfl⟩ := Option.map_eq_some_iff.mp hstep
        exact h.lock hdst hmay hlocks
      · cases hstep
  | get c t eid now =>
      simp only [FileSystem.step] at hstep
      split at hstep
      · rename_i hlocked
        obtain rfl := Option.some.inj hstep
        exact h.get hlocked hown
      · cases hstep
  | getattr c t eid =>
      simp only [FileSystem.step] at hstep
      split at hstep
      · rename_i hlocked
        obtain rfl := Option.some.inj hstep
        exact h.getattr hlocked
      · cases hstep
  | put c t eid buf now later =>
      simp only [FileSystem.step] at hstep
      split at hstep
      · rename_i hlocked
        obtain rfl := Option.some.inj hstep
        refine h.written hlocked (sameOff_setAttr.trans sameOff_setContent) ⟨?_, ?_⟩
        · simp [ExtentClient.put, ExtentClient.setContent]
        · simp [ExtentClient.put, ExtentClient.setContent, ExtentClient.setAttr]
      · cases hstep
  | remove c t eid =>
      simp only [FileSystem.step] at hstep
      split at hstep
      · rename_i hlocked
        obtain rfl := Option.some.inj hstep
        refine h.written hlocked sameOff_erase (.of_contents rfl ?_)
        simp [ExtentClient.remove, ExtentClient.erase]
      · cases hstep
  | answer c t now junk =>
      obtain ⟨out, hout, rfl⟩ := Option.map_eq_some_iff.mp hstep
      exact h.answer hout
  | resume c t now =>
      obtain ⟨out, hout, rfl⟩ := Option.map_eq_some_iff.mp hstep
      exact h.resume hout
  | finish c t => exact h.finish hstep

theorem FileSystem.Tracked.coherent (h : s.Tracked dst) : s.Coherent := by
  intro c t eid status buf haccess
  have hsound := h.sound c t
  rw [haccess] at hsound
  exact hsound

end Tracked

/-- **Coherence without sharing.**  If every `get` is made by the process of the most recent write,
    and not of the removed root directory, then it returns what that write has left. -/
theorem coherent_of_own (dst : Nat → String) (hdst : Function.Injective dst) {s : FileSystem}
    (h : (fileSystem dst).Reach FileSystem.own s) : s.Coherent := by
  have htracked : s.Tracked dst := by
    apply h.invariant
    · exact FileSystem.Tracked.initial
    · intro state next action hstate hown hstep
      exact hstate.step hdst hown hstep
  exact htracked.coherent

instance (s : FileSystem) : (action : FileSystem.Action) → Decidable (s.own action)
  | .get c _ eid _ => inferInstanceAs (Decidable (∀ w ∈ s.last eid,
      w.process = c ∧ (w.content = none → eid ≠ 1)))
  | .lock _ => .isTrue trivial
  | .getattr _ _ _ => .isTrue trivial
  | .put _ _ _ _ _ _ => .isTrue trivial
  | .remove _ _ _ => .isTrue trivial
  | .answer _ _ _ _ => .isTrue trivial
  | .resume _ _ _ => .isTrue trivial
  | .finish _ _ => .isTrue trivial

/-- The bytes of "aaa". -/
def aaa : Buf := [97, 97, 97]

/-- Process 0 takes the lock of an extent from the server. -/
def takeFirst (eid : Nat) : List FileSystem.Action :=
  [.lock (.enter 0 0 eid), .lock (.test 0 0), .lock (.serve 0 0), .lock (.answered 0 0)]

/-- Process 1 takes the lock that process 0 has released. -/
def takeNext (eid : Nat) : List FileSystem.Action :=
  [.lock (.release 0 0 eid), .lock (.enter 1 0 eid), .lock (.test 1 0), .lock (.serve 1 0),
    .lock (.revoke 1 0 0), .lock (.revoke 1 0 0), .lock (.revoked 1 0), .lock (.answered 1 0)]

/-- A thread gets an extent that its process does not have. -/
def getMissing (c eid : Nat) : List FileSystem.Action :=
  [.get c 0 eid 7, .answer c 0 7 Attr.zero, .resume c 0 7, .answer c 0 7 Attr.zero, .resume c 0 7]

theorem coherent_ownPut :
    ∃ s, (fileSystem address).Reach FileSystem.own s ∧ s.access 0 0 = .got 2 .ok aaa ∧
      s.last 2 = some ⟨0, some aaa⟩ ∧ s.Coherent := by
  obtain ⟨s, hreach, hview⟩ : ∃ s, (fileSystem address).Reach FileSystem.own s ∧
      (s.access 0 0, s.last 2) = (.got 2 .ok aaa, some ⟨0, some aaa⟩) :=
    System.Reach.of_exec (fun s action => decide (s.own action))
      (takeFirst 2 ++ [.put 0 0 2 aaa 7 7, .get 0 0 2 7]) rfl
      (fun _ _ hown => of_decide_eq_true hown) (by decide +kernel)
  obtain ⟨haccess, hlast⟩ := Prod.mk.inj hview
  exact ⟨s, hreach, haccess, hlast, coherent_of_own address address_injective hreach⟩

/-- Process 0 puts an extent and process 1 gets it afterwards: the server does not know the extent.
    A process that removes the root directory gets it back from the server. -/
theorem incoherent_create_then_read :
    (∃ s, (fileSystem address).Reach anyStep s ∧ s.access 1 0 = .got 2 .ioerr [] ∧
      s.last 2 = some ⟨0, some aaa⟩ ∧ ¬ s.Coherent) ∧
    ∃ s, (fileSystem address).Reach anyStep s ∧ s.access 0 0 = .got 1 .ok [] ∧
      s.last 1 = some ⟨0, none⟩ ∧ ¬ s.Coherent := by
  constructor
  · obtain ⟨s, hreach, hview⟩ : ∃ s, (fileSystem address).Reach anyStep s ∧
        (s.access 1 0, s.last 2) = (.got 2 .ioerr [], some ⟨0, some aaa⟩) :=
      System.Reach.of_exec (fun _ _ => true)
        (takeFirst 2 ++ [.put 0 0 2 aaa 7 7] ++ takeNext 2 ++ getMissing 1 2) rfl
        (fun _ _ _ => trivial) (by decide +kernel)
    obtain ⟨haccess, hlast⟩ := Prod.mk.inj hview
    refine ⟨s, hreach, haccess, hlast, ?_⟩
    intro hcoherent
    cases (hcoherent 1 0 2 _ _ haccess _ hlast).1
  · obtain ⟨s, hreach, hview⟩ : ∃ s, (fileSystem address).Reach anyStep s ∧
        (s.access 0 0, s.last 1) = (.got 1 .ok [], some ⟨0, none⟩) :=
      System.Reach.of_exec (fun _ _ => true)
        (takeFirst 1 ++ [.remove 0 0 1] ++ getMissing 0 1) rfl
        (fun _ _ _ => trivial) (by decide +kernel)
    obtain ⟨haccess, hlast⟩ := Prod.mk.inj hview
    refine ⟨s, hreach, haccess, hlast, ?_⟩
    intro hcoherent
    exact hcoherent 0 0 1 _ _ haccess _ hlast rfl

end DistributedLab.Extent
