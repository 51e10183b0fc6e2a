import DistributedLab.LockTransfer
import DistributedLab.Transition

/-!
# Repeated requests at the lock server

A client of the replicated lock server repeats a request until it gets an answer, and a
request that was forwarded to some replicas only comes again as well.  So a replica may
execute a request several times, and should not be changed by the repetitions.

A `release` records its xid, and a repetition finds a recorded xid that is not below its own.
An `acquire` makes the same test but records nothing: it is recognised only once the client
has released the lock.  Until then a repetition finds the client in the queue, where it stays
as it is, and marks the lock as taken if the client is the first one.

A replica that no state is transferred to is the server of the lock protocol: it answers as the
one that has executed the same requests.
-/

namespace DistributedLab.Lock

open Transition

/-! ### Requests -/

/-- A request.  The address of the client goes with its number. -/
structure LockCall where
  isAcquire : Bool
  clt : Int32
  lid : Lid
  xid : Xid
deriving DecidableEq, Repr

section Calls

variable (addr : Int32 → List UInt8)

def LockTables.serve (s : LockTables) (call : LockCall) (r : Int32) : LockTables :=
  if call.isAcquire then (s.acquire call.clt call.lid (addr call.clt) call.xid r).1
  else (s.release call.clt call.lid (addr call.clt) call.xid).1

/-- What requests and state transfers are about, `nacquire` left aside. -/
def LockTables.SameMaps (s t : LockTables) : Prop :=
  t.locks = s.locks ∧ t.lockClientList = s.lockClientList ∧ t.clientLockId = s.clientLockId

/-- A replica and the requests it has executed. -/
structure Replica where
  tables : LockTables
  executed : List LockCall

inductive Replica.Action where
  | serve (call : LockCall) (r : Int32)
  | visit (held : Bool)
deriving DecidableEq, Repr

def replica : System Replica Replica.Action where
  init s := s = ⟨.new, []⟩
  step s
    | .serve call r => some ⟨s.tables.serve addr call r, call :: s.executed⟩
    | .visit held => some ⟨s.tables.visit held, s.executed⟩

end Calls

/-- A request is a repetition, or its xid is above those of all requests of the client for the
    lock. -/
def Replica.Ascending (s : Replica) : Replica.Action → Prop
  | .serve call _ => call ∈ s.executed ∨
      ∀ earlier ∈ s.executed, earlier.clt = call.clt → earlier.lid = call.lid →
        earlier.xid < call.xid
  | .visit _ => True

instance (s : Replica) : (action : Replica.Action) → Decidable (s.Ascending action)
  | .serve _ _ => inferInstanceAs (Decidable (_ ∨ _))
  | .visit _ => inferInstanceAs (Decidable True)

/-- An `acquire` that the client has not followed by a `release` yet, of a client that is first in
    the queue of a lock that is not marked as taken. -/
def LockTables.Retakes (addr : Int32 → List UInt8) (s : LockTables) (call : LockCall) : Prop :=
  call.isAcquire = true ∧ s.lastXid call.clt call.lid < call.xid ∧
    (s.listOf call.lid).head? = some (addr call.clt) ∧ s.locks.find? call.lid ≠ some true

/-! ### What a request leaves -/

namespace LockTables

/-- The server has an entry for the client and the lock. -/
def Knows (s : LockTables) (clt : Int32) (lid : Lid) : Prop :=
  s.clientLockId.Has clt ∧ (s.idsOf clt).Has lid

variable {s : LockTables} {clt : Int32} {lid : Lid} {dst : List UInt8} {xid : Xid} {r : Int32}

theorem Knows.congr {t : LockTables} (h : s.Knows clt lid)
    (hids : t.clientLockId = s.clientLockId) : t.Knows clt lid := by
  unfold Knows idsOf
  rw [hids]
  exact h

theorem lastXid_congr {t : LockTables} (hids : t.clientLockId = s.clientLockId) (clt : Int32)
    (lid : Lid) : t.lastXid clt lid = s.lastXid clt lid := by
  unfold lastXid idsOf
  rw [hids]

theorem knows_setXid (s : LockTables) (clt : Int32) (lid : Lid) (xid : Xid) :
    (s.setXid clt lid xid).Knows clt lid := by
  simp [Knows, setXid, idsOf, OrderedMap.Has]

theorem Knows.setXid {other : Int32} {lid' : Lid} (h : s.Knows other lid') (clt : Int32) (lid : Lid)
    (xid : Xid) : (s.setXid clt lid xid).Knows other lid' := by
  by_cases hclt : other = clt
  · subst hclt
    by_cases hlid : lid' = lid
    · subst hlid
      exact knows_setXid s other lid' xid
    · refine ⟨by simp [LockTables.setXid, OrderedMap.Has], ?_⟩
      have hids := h.2
      unfold OrderedMap.Has at hids ⊢
      rwa [LockTables.setXid, idsOf, OrderedMap.getD_insert_self,
        OrderedMap.find?_insert_of_ne _ _ hlid]
  · unfold Knows idsOf LockTables.setXid OrderedMap.Has
    dsimp only
    rw [OrderedMap.find?_insert_of_ne _ _ hclt, OrderedMap.getD_insert_of_ne _ _ _ hclt]
    exact h

/-- Writing the xid that is there changes nothing. -/
theorem Knows.setXid_lastXid (h : s.Knows clt lid) : s.setXid clt lid (s.lastXid clt lid) = s := by
  obtain ⟨ids, hids⟩ := Option.isSome_iff_exists.mp h.1
  have hidsOf : s.idsOf clt = ids := by simp [idsOf, OrderedMap.getD, hids]
  have hlid := h.2
  rw [hidsOf] at hlid
  obtain ⟨x, hx⟩ := Option.isSome_iff_exists.mp hlid
  have hlast : s.lastXid clt lid = x := by simp [lastXid, hidsOf, OrderedMap.getD, hx]
  rw [LockTables.setXid, hidsOf, hlast, (ids.insert_eq_self_iff lid x).mpr hx,
    (s.clientLockId.insert_eq_self_iff clt ids).mpr hids]

theorem Knows.register_eq (h : s.Knows clt lid) : s.register clt lid = s := if_pos h

theorem knows_register (s : LockTables) (clt : Int32) (lid : Lid) :
    (s.register clt lid).Knows clt lid := by
  unfold register
  split_ifs with h
  · exact h
  · exact knows_setXid s clt lid 0

theorem Knows.register {other : Int32} {lid' : Lid} (h : s.Knows other lid') (clt : Int32)
    (lid : Lid) : (s.register clt lid).Knows other lid' := by
  unfold LockTables.register
  split_ifs
  · exact h
  · exact h.setXid clt lid 0

theorem listOf_register (s : LockTables) (clt : Int32) (lid lid' : Lid) :
    (s.register clt lid).listOf lid' = s.listOf lid' := by
  unfold register
  split_ifs <;> rfl

theorem mem_queue (s : LockTables) (lid : Lid) (dst : List UInt8) : dst ∈ s.queue lid dst := by
  unfold queue
  split_ifs with h
  · exact h
  · simp

theorem mem_queue_of_mem {other : List UInt8} (h : other ∈ s.listOf lid) (dst : List UInt8) :
    other ∈ s.queue lid dst := by
  unfold queue
  split_ifs
  · exact h
  · exact List.mem_append_left _ h

/-- What an `acquire` does: it makes the server know the client, keeps the recorded xids, and puts
    the client into the queue unless it is outdated. -/
structure Acquiring (s t : LockTables) (clt : Int32) (lid : Lid) (dst : List UInt8) (xid : Xid) :
    Prop where
  knows : t.Knows clt lid
  known : ∀ {other lid'}, s.Knows other lid' → t.Knows other lid'
  lastXid : ∀ other lid', t.lastXid other lid' = s.lastXid other lid'
  kept : ∀ {lid' other}, other ∈ s.listOf lid' → other ∈ t.listOf lid'
  queued : s.lastXid clt lid < xid → dst ∈ t.listOf lid

theorem acquiring_stale (s : LockTables) (clt : Int32) (lid : Lid) (dst : List UInt8)
    (h : xid ≤ s.lastXid clt lid) : s.Acquiring (s.register clt lid) clt lid dst xid where
  knows := s.knows_register clt lid
  known hother := hother.register clt lid
  lastXid other lid' := s.lastXid_register clt other lid lid'
  kept hmem := by rwa [listOf_register]
  queued hlt := absurd hlt (UInt64.not_lt.mpr h)

theorem acquiring_queued (s : LockTables) (clt : Int32) (lid : Lid) (dst : List UInt8)
    (xid : Xid) {t : LockTables} (hids : t.clientLockId = (s.register clt lid).clientLockId)
    (hlists : t.lockClientList = (s.register clt lid).lockClientList.insert lid
      ((s.register clt lid).queue lid dst)) : s.Acquiring t clt lid dst xid := by
  have hlist : ∀ lid', t.listOf lid' =
      if lid' = lid then (s.register clt lid).queue lid dst else s.listOf lid' := by
    intro lid'
    have hinsert := (s.register clt lid).listOf_insert lid lid' ((s.register clt lid).queue lid dst)
    rw [listOf_register] at hinsert
    rw [← hinsert]
    simp only [listOf, hlists]
  constructor
  · exact (s.knows_register clt lid).congr hids
  · intro other lid' hknown
    exact (hknown.register clt lid).congr hids
  · intro other lid'
    exact (lastXid_congr hids other lid').trans (s.lastXid_register clt other lid lid')
  · intro lid' other hmem
    rw [hlist]
    split_ifs with hlid
    · rw [hlid, ← s.listOf_register clt lid lid] at hmem
      exact mem_queue_of_mem hmem dst
    · exact hmem
  · intro _
    rw [hlist, if_pos rfl]
    exact mem_queue _ lid dst

theorem acquiring (s : LockTables) (clt : Int32) (lid : Lid) (dst : List UInt8) (xid : Xid)
    (r : Int32) : s.Acquiring (s.acquire clt lid dst xid r).1 clt lid dst xid := by
  simp only [acquire, lastXid_register]
  split_ifs with hold hsame hfirst
  · exact s.acquiring_stale clt lid dst (UInt64.le_of_lt hold)
  · exact s.acquiring_stale clt lid dst (UInt64.le_of_eq hsame)
  · exact s.acquiring_queued clt lid dst xid rfl rfl
  · exact s.acquiring_queued clt lid dst xid rfl rfl

/-- What a `release` does: it records its xid unless it is outdated, and takes at most its own
    client out of the queue. -/
structure Releasing (s t : LockTables) (clt : Int32) (lid : Lid) (dst : List UInt8) (xid : Xid) :
    Prop where
  knows : t.Knows clt lid
  known : ∀ {other lid'}, s.Knows other lid' → t.Knows other lid'
  lastXid : ∀ {other lid'}, ¬ (other = clt ∧ lid' = lid) → t.lastXid other lid' = s.lastXid other lid'
  le_lastXid : s.lastXid clt lid ≤ t.lastXid clt lid
  recorded : xid ≤ t.lastXid clt lid
  kept : ∀ {lid' other}, other ∈ s.listOf lid' → (lid' = lid → other ≠ dst) → other ∈ t.listOf lid'
  stale : xid ≤ s.lastXid clt lid → ∀ lid', t.listOf lid' = s.listOf lid'

theorem releasing_stale (s : LockTables) (clt : Int32) (lid : Lid) (dst : List UInt8)
    (h : xid ≤ s.lastXid clt lid) :
    s.Releasing (s.setXid clt lid (s.lastXid clt lid)) clt lid dst xid where
  knows := s.knows_setXid clt lid _
  known hother := hother.setXid clt lid _
  lastXid _ := s.lastXid_setXid_lastXid clt _ lid _
  le_lastXid := by rw [lastXid_setXid_self]; exact UInt64.le_refl _
  recorded := by rwa [lastXid_setXid_self]
  kept hmem _ := hmem
  stale _ _ := rfl

theorem releasing_recorded (s : LockTables) (clt : Int32) (lid : Lid) (dst : List UInt8)
    (hlt : s.lastXid clt lid < xid) {t : LockTables} {list : List (List UInt8)}
    (hids : t.clientLockId =
      ((s.setXid clt lid (s.lastXid clt lid)).setXid clt lid xid).clientLockId)
    (hlists : t.lockClientList = s.lockClientList.insert lid list)
    (hlist : ∀ other ∈ s.listOf lid, other ≠ dst → other ∈ list) :
    s.Releasing t clt lid dst xid := by
  have hlast := lastXid_congr hids
  have hself : t.lastXid clt lid = xid := by rw [hlast, lastXid_setXid_self]
  constructor
  · exact (knows_setXid _ clt lid xid).congr hids
  · intro other lid' hknown
    exact ((hknown.setXid clt lid _).setXid clt lid xid).congr hids
  · intro other lid' hne
    rw [hlast, lastXid_setXid_of_ne _ _ hne, lastXid_setXid_of_ne _ _ hne]
  · rw [hself]
    exact UInt64.le_of_lt hlt
  · rw [hself]
    exact UInt64.le_refl xid
  · intro lid' other hmem hother
    have hinsert := s.listOf_insert lid lid' list
    unfold listOf at hinsert ⊢
    rw [hlists, hinsert]
    split_ifs with hlid
    · rw [hlid] at hmem
      exact hlist other hmem (hother hlid)
    · exact hmem
  · intro hle
    exact absurd hlt (UInt64.not_lt.mpr hle)

theorem releasing (s : LockTables) (clt : Int32) (lid : Lid) (dst : List UInt8) (xid : Xid) :
    s.Releasing (s.release clt lid dst xid).1 clt lid dst xid := by
  simp only [release, lastXid_setXid_self]
  split_ifs with hold hsame hfront
  · exact s.releasing_stale clt lid dst (UInt64.le_of_lt hold)
  · exact s.releasing_stale clt lid dst (UInt64.le_of_eq hsame)
  · have hlt : s.lastXid clt lid < xid :=
      UInt64.lt_of_le_of_ne (UInt64.not_lt.mp hold) fun heq => hsame heq.symm
    refine s.releasing_recorded clt lid dst hlt rfl rfl ?_
    intro other hmem hne
    -- only the front is taken out
    have hfront' : (s.listOf lid).head? = some dst := hfront
    obtain ⟨rest, hrest⟩ := List.head?_eq_some_iff.mp hfront'
    rw [hrest] at hmem
    show other ∈ (s.listOf lid).tail
    rw [hrest, List.tail_cons]
    exact (List.mem_cons.mp hmem).resolve_left hne
  · have hlt : s.lastXid clt lid < xid :=
      UInt64.lt_of_le_of_ne (UInt64.not_lt.mp hold) fun heq => hsame heq.symm
    exact s.releasing_recorded clt lid dst hlt rfl rfl fun other hmem _ => hmem

/-! ### Repetitions -/

theorem serve_of_stale {addr : Int32 → List UInt8} {call : LockCall}
    (hknows : s.Knows call.clt call.lid) (hstale : call.xid ≤ s.lastXid call.clt call.lid)
    (r : Int32) : s.serve addr call r = s := by
  have hcases : call.xid < s.lastXid call.clt call.lid ∨ call.xid = s.lastXid call.clt call.lid :=
    UInt64.lt_or_eq_of_le hstale
  unfold serve
  split_ifs
  · simp only [acquire, hknows.register_eq]
    rcases hcases with hlt | heq
    · rw [if_pos hlt]
    · rw [← heq, if_neg (UInt64.lt_irrefl _), if_pos rfl]
  · simp only [release, hknows.setXid_lastXid]
    rcases hcases with hlt | heq
    · rw [if_pos hlt]
    · rw [← heq, if_neg (UInt64.lt_irrefl _), if_pos rfl]

theorem find?_of_mem_listOf (h : dst ∈ s.listOf lid) :
    s.lockClientList.find? lid = some (s.listOf lid) := by
  unfold listOf OrderedMap.getD at h ⊢
  cases hfind : s.lockClientList.find? lid with
  | none =>
      rw [hfind] at h
      cases h
  | some list => rfl

theorem idxOf_eq_zero_iff {list : List (List UInt8)} (h : dst ∈ list) :
    list.idxOf dst = 0 ↔ list.head? = some dst := by
  cases list with
  | nil => cases h
  | cons first rest =>
      by_cases hfirst : first = dst
      · simp [hfirst]
      · simp [hfirst]

/-- An `acquire` of a client that is in the queue: nothing but the mark of the lock can change. -/
theorem sameMaps_acquire_iff {addr : Int32 → List UInt8} {call : LockCall}
    (hacquire : call.isAcquire = true) (hknows : s.Knows call.clt call.lid)
    (hlt : s.lastXid call.clt call.lid < call.xid) (hmem : addr call.clt ∈ s.listOf call.lid)
    (r : Int32) : s.SameMaps (s.serve addr call r) ↔ ¬ s.Retakes addr call := by
  have hqueue : s.queue call.lid (addr call.clt) = s.listOf call.lid := if_pos hmem
  have hlists : s.lockClientList.insert call.lid (s.listOf call.lid) = s.lockClientList :=
    (s.lockClientList.insert_eq_self_iff _ _).mpr (find?_of_mem_listOf hmem)
  have hne : ¬ call.xid = s.lastXid call.clt call.lid := fun heq =>
    UInt64.lt_irrefl _ (heq ▸ hlt)
  unfold SameMaps Retakes
  simp only [serve, hacquire, if_true, acquire, hknows.register_eq, hqueue, hlists,
    idxOf_eq_zero_iff hmem, if_neg (UInt64.lt_asymm hlt), if_neg hne, hlt, true_and]
  split_ifs with hfront
  · simp [hfront, OrderedMap.insert_eq_self_iff]
  · simp [hfront]

end LockTables

/-! ### Runs -/

/-- What the server knows about the requests it has executed. -/
structure Replica.Recorded (addr : Int32 → List UInt8) (s : Replica) : Prop where
  knows : ∀ call ∈ s.executed, s.tables.Knows call.clt call.lid
  released : ∀ call ∈ s.executed, call.isAcquire = false →
    call.xid ≤ s.tables.lastXid call.clt call.lid
  queued : ∀ call ∈ s.executed, call.isAcquire = true →
    s.tables.lastXid call.clt call.lid < call.xid → addr call.clt ∈ s.tables.listOf call.lid

namespace Replica

variable {addr : Int32 → List UInt8} {s : Replica} {call : LockCall}

theorem Recorded.acquire (h : s.Recorded addr) (hacquire : call.isAcquire = true) (r : Int32) :
    (⟨s.tables.serve addr call r, call :: s.executed⟩ : Replica).Recorded addr := by
  have hafter := s.tables.acquiring call.clt call.lid (addr call.clt) call.xid r
  have hserve : s.tables.serve addr call r =
      (s.tables.acquire call.clt call.lid (addr call.clt) call.xid r).1 := if_pos hacquire
  rw [hserve]
  constructor
  · intro other hother
    rcases List.mem_cons.mp hother with rfl | hother
    · exact hafter.knows
    · exact hafter.known (h.knows other hother)
  · intro other hother hrelease
    dsimp only
    rw [hafter.lastXid]
    rcases List.mem_cons.mp hother with rfl | hother
    · rw [hacquire] at hrelease
      cases hrelease
    · exact h.released other hother hrelease
  · intro other hother hacq hlt
    dsimp only at hlt
    rw [hafter.lastXid] at hlt
    rcases List.mem_cons.mp hother with rfl | hother
    · exact hafter.queued hlt
    · exact hafter.kept (h.queued other hother hacq hlt)

/-- The requests of the client for the lock are all outdated after a `release` that is not a
    repetition; those of other clients stay in the queue. -/
theorem Recorded.release {r : Int32} (haddr : Function.Injective addr) (h : s.Recorded addr)
    (hrelease : call.isAcquire = false) (hguard : s.Ascending (.serve call r)) :
    (⟨s.tables.serve addr call r, call :: s.executed⟩ : Replica).Recorded addr := by
  have hafter := s.tables.releasing call.clt call.lid (addr call.clt) call.xid
  have hserve : s.tables.serve addr call r =
      (s.tables.release call.clt call.lid (addr call.clt) call.xid).1 :=
    if_neg (by simp [hrelease])
  rw [hserve]
  generalize (s.tables.release call.clt call.lid (addr call.clt) call.xid).1 = t at hafter
  have hmono : ∀ clt lid, s.tables.lastXid clt lid ≤ t.lastXid clt lid := by
    intro clt lid
    by_cases hsame : clt = call.clt ∧ lid = call.lid
    · rw [hsame.1, hsame.2]
      exact hafter.le_lastXid
    · rw [hafter.lastXid hsame]
      exact UInt64.le_refl _
  constructor
  · intro other hother
    rcases List.mem_cons.mp hother with rfl | hother
    · exact hafter.knows
    · exact hafter.known (h.knows other hother)
  · intro other hother hrel
    rcases List.mem_cons.mp hother with rfl | hother
    · exact hafter.recorded
    · exact UInt64.le_trans (h.released other hother hrel) (hmono _ _)
  · intro other hother hacq hlt
    rcases List.mem_cons.mp hother with rfl | hother
    · rw [hrelease] at hacq
      cases hacq
    · have hold := h.queued other hother hacq (UInt64.lt_of_le_of_lt (hmono _ _) hlt)
      by_cases hsame : other.clt = call.clt ∧ other.lid = call.lid
      · rcases hguard with hagain | hfresh
        · -- a repetition takes nobody out
          have hstale := hafter.stale (h.released call hagain hrelease)
          dsimp only
          rw [hstale]
          exact hold
        · have hbelow := hfresh other hother hsame.1 hsame.2
          dsimp only at hlt
          rw [hsame.1, hsame.2] at hlt
          exact absurd (UInt64.lt_of_lt_of_le hbelow hafter.recorded) (UInt64.lt_asymm hlt)
      · apply hafter.kept hold
        intro hlid heq
        exact hsame ⟨haddr heq, hlid⟩

theorem Recorded.visit (h : s.Recorded addr) (held : Bool) :
    (⟨s.tables.visit held, s.executed⟩ : Replica).Recorded addr := by
  have hsame : (s.tables.visit held).clientLockId = s.tables.clientLockId ∧
      ∀ lid, (s.tables.visit held).listOf lid = s.tables.listOf lid := by
    apply LockTables.visit_of_touch (P := fun t => t.clientLockId = s.tables.clientLockId ∧
      ∀ lid, t.listOf lid = s.tables.listOf lid) held ⟨rfl, fun _ => rfl⟩
    rintro t lid ⟨hids, hlists⟩
    refine ⟨hids, fun lid' => ?_⟩
    rw [LockTables.listOf_insert]
    split_ifs with hlid
    · rw [hlid]
      exact hlists lid
    · exact hlists lid'
  have hlast := LockTables.lastXid_congr hsame.1
  constructor
  · intro call hcall
    exact (h.knows call hcall).congr hsame.1
  · intro call hcall hrelease
    rw [hlast]
    exact h.released call hcall hrelease
  · intro call hcall hacquire hlt
    rw [hlast] at hlt
    dsimp only
    rw [hsame.2]
    exact h.queued call hcall hacquire hlt

theorem recorded_of_reach (haddr : Function.Injective addr)
    (h : (replica addr).Reach Replica.Ascending s) : s.Recorded addr := by
  apply h.invariant (P := Recorded addr)
  · rintro start rfl
    exact ⟨by simp, by simp, by simp⟩
  · intro state next action hstate hguard hstep
    cases action with
    | serve call r =>
        cases hstep
        cases hacquire : call.isAcquire with
        | true => exact hstate.acquire hacquire r
        | false => exact hstate.release haddr hacquire hguard
    | visit held =>
        cases hstep
        exact hstate.visit held

end Replica

/-- **Repeated requests.**  After any run in which the requests of a client for a lock are executed
    with growing xids and repeated at will, repeating a request changes none of the three maps,
    unless it is an `acquire` of a client that waits to be told that it is its turn. -/
theorem repetition_harmless_iff {addr : Int32 → List UInt8} (haddr : Function.Injective addr)
    {s : Replica} (h : (replica addr).Reach Replica.Ascending s) {call : LockCall}
    (hcall : call ∈ s.executed) (r : Int32) :
    s.tables.SameMaps (s.tables.serve addr call r) ↔ ¬ s.tables.Retakes addr call := by
  have hrecorded := Replica.recorded_of_reach haddr h
  have hknows := hrecorded.knows call hcall
  by_cases hlt : s.tables.lastXid call.clt call.lid < call.xid
  · cases hacquire : call.isAcquire with
    | true =>
        exact LockTables.sameMaps_acquire_iff hacquire hknows hlt
          (hrecorded.queued call hcall hacquire hlt) r
    | false =>
        exact absurd hlt (UInt64.not_lt.mpr (hrecorded.released call hcall hacquire))
  · rw [LockTables.serve_of_stale hknows (UInt64.not_lt.mp hlt)]
    constructor
    · intro _ hretakes
      exact hlt hretakes.2.1
    · intro _
      exact ⟨rfl, rfl, rfl⟩

/-! ### The server of the lock protocol -/

section Protocol

variable (name : List UInt8 → String) (addr : Int32 → List UInt8)

def LockTables.status (s : LockTables) (call : LockCall) (r : Int32) : Status :=
  if call.isAcquire then (s.acquire call.clt call.lid (addr call.clt) call.xid r).2.1
  else (s.release call.clt call.lid (addr call.clt) call.xid).2.1

/-- The request at the server that serves the caching clients. -/
def LockServer.serve (a : LockServer) (call : LockCall) : LockServer × Status :=
  let serve := if call.isAcquire then a.acquire else a.release
  serve (clientNo call.clt) call.lid.toNat (name (addr call.clt)) call.xid.toNat

/-- The server that has executed the same requests. -/
def Replica.server (s : Replica) : LockServer :=
  s.executed.foldr (fun call a => (a.serve name addr call).1) LockServer.new

variable {name addr}

theorem LockTables.Represents.serve (hname : Function.Injective name) {s : LockTables}
    {a : LockServer} (h : s.Represents name a) (call : LockCall) (r : Int32) :
    (s.serve addr call r).Represents name (a.serve name addr call).1 ∧
      s.status addr call r = (a.serve name addr call).2 := by
  unfold LockTables.serve status LockServer.serve
  split_ifs
  · exact h.acquire hname call.clt call.lid (addr call.clt) call.xid r
  · exact h.release hname call.clt call.lid (addr call.clt) call.xid

/-- **The maps are the server of the lock protocol.**  After any run a replica represents the server
    that has executed the same requests, and answers every request as that one does. -/
theorem replica_simulates (hname : Function.Injective name) {s : Replica}
    (h : (replica addr).Reach anyStep s) :
    s.tables.Represents name (s.server name addr) ∧ ∀ call r,
      s.tables.status addr call r = ((s.server name addr).serve name addr call).2 := by
  have htables : s.tables.Represents name (s.server name addr) := by
    apply h.invariant (P := fun s => s.tables.Represents name (s.server name addr))
    · rintro start rfl
      exact LockTables.represents_new name
    · intro state next action hstate _ hstep
      cases action with
      | serve call r =>
          cases hstep
          exact (hstate.serve hname call r).1
      | visit held =>
          cases hstep
          exact hstate.visit held
  exact ⟨htables, fun call r => (htables.serve hname call r).2⟩

end Protocol

/-! ### Two clients and a lock -/

/-- An address for each client. -/
def plainAddr (clt : Int32) : List UInt8 := List.replicate (clientNo clt) 0

theorem plainAddr_injective : Function.Injective plainAddr := by
  intro a b h
  apply clientNo_injective
  simpa [plainAddr] using congrArg List.length h

/-- The second client has to wait until the first one has released the lock. -/
def waitForTurn : List Replica.Action :=
  [.serve ⟨true, 1, 7, 1⟩ 0, .serve ⟨true, 2, 7, 1⟩ 0, .serve ⟨false, 1, 7, 2⟩ 0]

/-- The lock is free, and it is the turn of the second client. -/
def turnTables : LockTables where
  nacquire := 1
  locks := OrderedMap.empty.insert 7 false
  lockClientList := OrderedMap.empty.insert 7 [plainAddr 2]
  clientLockId := (OrderedMap.empty.insert 1 (OrderedMap.empty.insert 7 2)).insert 2
    (OrderedMap.empty.insert 7 0)

theorem reach_waitForTurn : ∃ s, (replica plainAddr).Reach Replica.Ascending s ∧
    (s.tables, s.executed) =
      (turnTables, [⟨false, 1, 7, 2⟩, ⟨true, 2, 7, 1⟩, ⟨true, 1, 7, 1⟩]) :=
  System.Reach.of_exec (fun s action => decide (s.Ascending action)) waitForTurn rfl
    (fun _ _ h => of_decide_eq_true h) (by decide +kernel)

/-- Repeating the `release` changes nothing. -/
theorem repetition_harmless_release : ∃ s, (replica plainAddr).Reach Replica.Ascending s ∧
    ⟨false, 1, 7, 2⟩ ∈ s.executed ∧
    s.tables.SameMaps (s.tables.serve plainAddr ⟨false, 1, 7, 2⟩ 0) := by
  obtain ⟨s, hreach, hview⟩ := reach_waitForTurn
  obtain ⟨htables, hexecuted⟩ := Prod.mk.inj hview
  have hmem : ⟨false, 1, 7, 2⟩ ∈ s.executed := by simp [hexecuted]
  refine ⟨s, hreach, hmem, (repetition_harmless_iff plainAddr_injective hreach hmem 0).mpr ?_⟩
  simp [LockTables.Retakes]

/-- Repeating the `acquire` of the waiting client marks the lock as taken, so that the retryer does
    not call the client any more. -/
theorem repeated_acquire_takes_the_lock :
    ¬ ∀ s, (replica plainAddr).Reach Replica.Ascending s → ∀ call ∈ s.executed, ∀ r,
      s.tables.SameMaps (s.tables.serve plainAddr call r) := by
  intro hclaim
  obtain ⟨s, hreach, hview⟩ := reach_waitForTurn
  obtain ⟨htables, hexecuted⟩ := Prod.mk.inj hview
  have hlocks := (hclaim s hreach ⟨true, 2, 7, 1⟩ (by simp [hexecuted]) 0).1
  rw [htables] at hlocks
  exact absurd hlocks (by decide +kernel)

end DistributedLab.Lock
