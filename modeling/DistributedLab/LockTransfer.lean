import DistributedLab.LockServer
import DistributedLab.WireFormat

/-!
# State transfer of the lock server

A replica that falls behind takes over the state of the primary: `marshal_state` writes the
three maps of `lock_server_cache_rsm` one after the other, and `unmarshal_state` reads them
at the replica.  Here the server is modelled with its maps as they are, since a transfer
moves the keys and not only what a missing key reads as.

`unmarshal_state` stores what it reads into the maps that the replica has and never clears
them, and neither function looks at `nacquire`.  So a transfer is exact just when the
replica has no key that the primary does not have, and has counted as many requests.
-/

namespace DistributedLab.Lock

open Wire

/-! ### The server and its maps -/

abbrev Lid := UInt64

abbrev Xid := UInt64

abbrev LockIds := OrderedMap Lid Xid

structure LockTables where
  nacquire : Int32
  locks : OrderedMap Lid Bool
  lockClientList : OrderedMap Lid (List (List UInt8))
  clientLockId : OrderedMap Int32 LockIds
deriving DecidableEq

namespace LockTables

def new : LockTables := ⟨0, .empty, .empty, .empty⟩

/-- `client_lock_id[clt]`. -/
def idsOf (s : LockTables) (clt : Int32) : LockIds := s.clientLockId.getD clt .empty

/-- `client_lock_id[clt][lid]`. -/
def lastXid (s : LockTables) (clt : Int32) (lid : Lid) : Xid := (s.idsOf clt).getD lid 0

def setXid (s : LockTables) (clt : Int32) (lid : Lid) (xid : Xid) : LockTables :=
  { s with clientLockId := s.clientLockId.insert clt ((s.idsOf clt).insert lid xid) }

/-- `lock_client_list[lid]`. -/
def listOf (s : LockTables) (lid : Lid) : List (List UInt8) := s.lockClientList.getD lid []

/-- A client that is new for the lock starts with xid 0. -/
def register (s : LockTables) (clt : Int32) (lid : Lid) : LockTables :=
  if s.clientLockId.Has clt ∧ (s.idsOf clt).Has lid then s else s.setXid clt lid 0

/-- `lock_client_list[lid]` after `push_back` of a client that is not in it. -/
def queue (s : LockTables) (lid : Lid) (dst : List UInt8) : List (List UInt8) :=
  if dst ∈ s.listOf lid then s.listOf lid else s.listOf lid ++ [dst]

/-- The reply parameter `r` keeps its value where the handler does not assign it. -/
def acquire (s : LockTables) (clt : Int32) (lid : Lid) (dst : List UInt8) (xid : Xid)
    (r : Int32) : LockTables × Status × Int32 :=
  let s := s.register clt lid
  if xid < s.lastXid clt lid then (s, .ok, r)
  else if xid = s.lastXid clt lid then (s, .ok, r)
  else
    let r := s.nacquire + 1
    let list := s.queue lid dst
    let s := { s with nacquire := r, lockClientList := s.lockClientList.insert lid list }
    if list.idxOf dst = 0 then ({ s with locks := s.locks.insert lid true }, .ok, r)
    else (s, .retry, r)

/-- Reading `client_lock_id[clt][lid]` and `lock_client_list[lid]` creates the entries. -/
def release (s : LockTables) (clt : Int32) (lid : Lid) (dst : List UInt8) (xid : Xid) :
    LockTables × Status × Int32 :=
  let r := s.nacquire
  let s := s.setXid clt lid (s.lastXid clt lid)
  if xid < s.lastXid clt lid then (s, .ok, r)
  else if xid = s.lastXid clt lid then (s, .ok, r)
  else
    let list := s.listOf lid
    let s := { s.setXid clt lid xid with nacquire := s.nacquire - 1 }
    if list.head? = some dst then
      ({ s with
        locks := s.locks.insert lid false
        lockClientList := s.lockClientList.insert lid list.tail }, .ok, r)
    else ({ s with lockClientList := s.lockClientList.insert lid list }, .ok, r)

/-- One round of the revoker (`held`) or the retryer over `locks`, at the primary.  Looking at the
    list of a lock creates its entry. -/
def visit (s : LockTables) (held : Bool) : LockTables :=
  s.locks.entries.foldl
    (fun s entry =>
      if entry.2 = held then
        { s with lockClientList := s.lockClientList.insert entry.1 (s.listOf entry.1) }
      else s) s

/-- The loops over the maps write each key and what it is mapped to. -/
def marshalState (memory : Nat → UInt8) (s : LockTables) : List UInt8 :=
  let rep := Marshall.new memory
  let rep := Codec.unsignedInt.put (UInt32.ofNat s.lockClientList.size) rep
  let rep := s.lockClientList.entries.foldl (fun rep entry =>
    Codec.string.vector.put entry.2 (Codec.unsignedLongLong.put entry.1 rep)) rep
  let rep := Codec.unsignedInt.put (UInt32.ofNat s.locks.size) rep
  let rep := s.locks.entries.foldl (fun rep entry =>
    Codec.bool.put entry.2 (Codec.unsignedLongLong.put entry.1 rep)) rep
  let rep := Codec.unsignedInt.put (UInt32.ofNat s.clientLockId.size) rep
  let rep := s.clientLockId.entries.foldl (fun rep client =>
    client.2.entries.foldl (fun rep entry =>
      Codec.unsignedLongLong.put entry.2 (Codec.unsignedLongLong.put entry.1 rep))
      (Codec.unsignedInt.put (UInt32.ofNat client.2.size) (Codec.int.put client.1 rep))) rep
  rep.getContent

end LockTables

/-- The inner loop: `client_lock_id[clt][name] = value`. -/
def getIds (clt : Int32) : Nat → OrderedMap Int32 LockIds →
    StateM Unmarshall (OrderedMap Int32 LockIds)
  | 0, ids => pure ids
  | n + 1, ids => do
      let name ← Codec.unsignedLongLong.get Codec.unsignedLongLong.fresh
      let value ← Codec.unsignedLongLong.get Codec.unsignedLongLong.fresh
      getIds clt n (ids.insert clt ((ids.getD clt .empty).insert name value))

def getClients : Nat → OrderedMap Int32 LockIds → StateM Unmarshall (OrderedMap Int32 LockIds)
  | 0, ids => pure ids
  | n + 1, ids => do
      let clt ← Codec.int.get Codec.int.fresh
      let size ← Codec.unsignedInt.get Codec.unsignedInt.fresh
      let ids ← getIds clt size.toNat ids
      getClients n ids

/-- The first two loops store into a map as `>>` does. -/
def LockTables.readState (t : LockTables) : StateM Unmarshall LockTables := do
  let size ← Codec.unsignedInt.get Codec.unsignedInt.fresh
  let lists ← getEntries .unsignedLongLong Codec.string.vector size.toNat t.lockClientList
  let size2 ← Codec.unsignedInt.get Codec.unsignedInt.fresh
  let locks ← getEntries .unsignedLongLong .bool size2.toNat t.locks
  let size3 ← Codec.unsignedInt.get Codec.unsignedInt.fresh
  let ids ← getClients size3.toNat t.clientLockId
  pure { t with lockClientList := lists, locks := locks, clientLockId := ids }

def LockTables.unmarshalState (memory : Nat → UInt8) (t : LockTables) (state : List UInt8) :
    LockTables :=
  (t.readState (Unmarshall.takeContent memory state)).1

/-- The states of a server: it serves requests, its threads go over the locks, and it takes over
    the state of another server. -/
inductive LockTables.Reachable : LockTables → Prop
  | new : Reachable .new
  | acquire {s : LockTables} (clt : Int32) (lid : Lid) (dst : List UInt8) (xid : Xid) (r : Int32)
      (hs : Reachable s) : Reachable (s.acquire clt lid dst xid r).1
  | release {s : LockTables} (clt : Int32) (lid : Lid) (dst : List UInt8) (xid : Xid)
      (hs : Reachable s) : Reachable (s.release clt lid dst xid).1
  | visit {s : LockTables} (held : Bool) (hs : Reachable s) : Reachable (s.visit held)
  | transfer {s t : LockTables} (memory memory' : Nat → UInt8) (hs : Reachable s)
      (ht : Reachable t) : Reachable (t.unmarshalState memory (s.marshalState memory'))

/-! ### The server of the lock protocol

The maps with their keys represent the server that serves the caching clients, in which a
missing key reads as a default. -/

/-- The number of a client. -/
def clientNo (clt : Int32) : Nat := clt.toUInt32.toNat

theorem clientNo_injective : Function.Injective clientNo := by
  intro a b h
  have hbits := congrArg UInt32.toInt32 (UInt32.toNat_inj.mp h)
  simpa using hbits

structure LockTables.Represents (name : List UInt8 → String) (s : LockTables) (a : LockServer) :
    Prop where
  locks (lid : Lid) : a.locks lid.toNat = s.locks.find? lid
  lists (lid : Lid) : a.lockClientList lid.toNat = (s.listOf lid).map name
  ids (clt : Int32) (lid : Lid) : a.clientLockId (clientNo clt) lid.toNat = (s.lastXid clt lid).toNat

namespace LockTables

theorem lastXid_setXid_self (s : LockTables) (clt : Int32) (lid : Lid) (xid : Xid) :
    (s.setXid clt lid xid).lastXid clt lid = xid := by
  simp [lastXid, idsOf, setXid]

theorem lastXid_setXid_of_ne (s : LockTables) {clt other : Int32} {lid lid' : Lid} (xid : Xid)
    (h : ¬ (other = clt ∧ lid' = lid)) :
    (s.setXid clt lid xid).lastXid other lid' = s.lastXid other lid' := by
  unfold lastXid idsOf setXid
  by_cases hclt : other = clt
  · subst hclt
    have hlid : lid' ≠ lid := fun heq => h ⟨rfl, heq⟩
    rw [OrderedMap.getD_insert_self, OrderedMap.getD_insert_of_ne _ _ _ hlid]
    rfl
  · rw [OrderedMap.getD_insert_of_ne _ _ _ hclt]

variable {name : List UInt8 → String} {s : LockTables} {a : LockServer}

/-- An entry that is created with what a missing one reads as is not noticed. -/
theorem lastXid_setXid_lastXid (s : LockTables) (clt other : Int32) (lid lid' : Lid) :
    (s.setXid clt lid (s.lastXid clt lid)).lastXid other lid' = s.lastXid other lid' := by
  by_cases h : other = clt ∧ lid' = lid
  · obtain ⟨rfl, rfl⟩ := h
    exact lastXid_setXid_self s other lid' _
  · exact lastXid_setXid_of_ne s _ h

theorem lastXid_register (s : LockTables) (clt other : Int32) (lid lid' : Lid) :
    (s.register clt lid).lastXid other lid' = s.lastXid other lid' := by
  unfold register
  split_ifs with h
  · rfl
  · have hzero : s.lastXid clt lid = 0 := by
      by_cases hclt : s.clientLockId.Has clt
      · have hlid : ¬ (s.idsOf clt).Has lid := fun hlid => h ⟨hclt, hlid⟩
        have hnone : (s.idsOf clt).find? lid = none := by simpa [OrderedMap.Has] using hlid
        simp [lastXid, OrderedMap.getD, hnone]
      · have hnone : s.clientLockId.find? clt = none := by simpa [OrderedMap.Has] using hclt
        simp [lastXid, idsOf, OrderedMap.getD, hnone]
    rw [← hzero]
    exact s.lastXid_setXid_lastXid clt other lid lid'

theorem listOf_insert (s : LockTables) (lid lid' : Lid) (list : List (List UInt8)) :
    ({ s with lockClientList := s.lockClientList.insert lid list } : LockTables).listOf lid' =
      if lid' = lid then list else s.listOf lid' := by
  unfold listOf
  split_ifs with h
  · rw [h, OrderedMap.getD_insert_self]
  · rw [OrderedMap.getD_insert_of_ne _ _ _ h]

theorem find?_insert_ite {ν : Type} (m : OrderedMap Lid ν) (lid lid' : Lid) (v : ν) :
    (m.insert lid v).find? lid' = if lid' = lid then some v else m.find? lid' := by
  split_ifs with h
  · rw [h, OrderedMap.find?_insert_self]
  · rw [OrderedMap.find?_insert_of_ne _ _ h]

theorem update_toNat {ν : Type} (f : Nat → ν) (lid lid' : Lid) (v : ν) :
    Function.update f lid.toNat v lid'.toNat = if lid' = lid then v else f lid'.toNat := by
  rw [Function.update_apply]
  simp only [UInt64.toNat_inj]

theorem enlist_map (hname : Function.Injective name) (list : List (List UInt8)) (dst : List UInt8) :
    enlist (list.map name) (name dst) = (if dst ∈ list then list else list ++ [dst]).map name := by
  unfold enlist
  by_cases h : dst ∈ list
  · rw [if_pos h, if_pos (List.mem_map_of_mem h)]
  · rw [if_neg h, if_neg, List.map_append, List.map_singleton]
    rwa [List.mem_map_of_injective hname]

theorem idxOf_map (hname : Function.Injective name) (list : List (List UInt8)) (dst : List UInt8) :
    (list.map name).idxOf (name dst) = list.idxOf dst := by
  induction list with
  | nil => rfl
  | cons first rest ih =>
      have hfirst : (name first == name dst) = (first == dst) := by simp [beq_eq_decide, hname.eq_iff]
      rw [List.map_cons, List.idxOf_cons, List.idxOf_cons, hfirst, ih]

theorem Represents.register (h : s.Represents name a) (clt : Int32) (lid : Lid) :
    (s.register clt lid).Represents name a := by
  refine ⟨?_, ?_, fun other lid' => ?_⟩
  · unfold LockTables.register
    split <;> exact h.locks
  · unfold LockTables.register
    split <;> exact h.lists
  · rw [lastXid_register]
    exact h.ids other lid'

theorem Represents.count (h : s.Represents name a) (n : Int32) :
    ({ s with nacquire := n } : LockTables).Represents name a :=
  ⟨h.locks, h.lists, h.ids⟩

theorem Represents.setLock (h : s.Represents name a) (lid : Lid) (held : Bool) :
    ({ s with locks := s.locks.insert lid held } : LockTables).Represents name
      { a with locks := Function.update a.locks lid.toNat (some held) } := by
  refine ⟨fun lid' => ?_, h.lists, h.ids⟩
  dsimp only
  rw [update_toNat, h.locks, find?_insert_ite]

theorem Represents.setList (h : s.Represents name a) (lid : Lid) (list : List (List UInt8)) :
    ({ s with lockClientList := s.lockClientList.insert lid list } : LockTables).Represents name
      { a with
        lockClientList := Function.update a.lockClientList lid.toNat (list.map name) } := by
  refine ⟨h.locks, fun lid' => ?_, h.ids⟩
  dsimp only
  rw [update_toNat, h.lists, listOf_insert]
  split_ifs <;> rfl

theorem Represents.setXid (h : s.Represents name a) (clt : Int32) (lid : Lid) (xid : Xid) :
    (s.setXid clt lid xid).Represents name
      { a with
        clientLockId := Function.update a.clientLockId (clientNo clt)
          (Function.update (a.clientLockId (clientNo clt)) lid.toNat xid.toNat) } := by
  refine ⟨h.locks, h.lists, fun other lid' => ?_⟩
  dsimp only
  by_cases hother : other = clt
  · subst hother
    rw [Function.update_self, update_toNat]
    split_ifs with hlid
    · rw [hlid, lastXid_setXid_self]
    · rw [lastXid_setXid_of_ne s xid fun heq => hlid heq.2, h.ids]
  · have hno : clientNo other ≠ clientNo clt := fun heq => hother (clientNo_injective heq)
    rw [Function.update_of_ne hno, lastXid_setXid_of_ne s xid fun heq => hother heq.1, h.ids]

/-- Creating the list of a lock that has none is not noticed. -/
theorem Represents.touchList (h : s.Represents name a) (lid : Lid) :
    ({ s with lockClientList := s.lockClientList.insert lid (s.listOf lid) } :
      LockTables).Represents name a := by
  refine ⟨h.locks, fun lid' => ?_, h.ids⟩
  rw [listOf_insert, h.lists]
  split_ifs with hlid
  · rw [hlid]
  · rfl

/-- What creating lists keeps holds after a round over the locks. -/
theorem visit_of_touch {P : LockTables → Prop} (held : Bool) (hs : P s)
    (htouch : ∀ (t : LockTables) (lid : Lid), P t →
      P { t with lockClientList := t.lockClientList.insert lid (t.listOf lid) }) :
    P (s.visit held) := by
  unfold visit
  generalize s.locks.entries = l
  induction l generalizing s with
  | nil => exact hs
  | cons entry l ih =>
      rw [List.foldl_cons]
      apply ih
      split
      · exact htouch s entry.1 hs
      · exact hs

theorem Represents.visit (h : s.Represents name a) (held : Bool) :
    (s.visit held).Represents name a :=
  visit_of_touch (P := (Represents name · a)) held h fun _ lid ht => ht.touchList lid

theorem represents_new (name : List UInt8 → String) : new.Represents name LockServer.new :=
  ⟨fun _ => rfl, fun _ => rfl, fun _ _ => rfl⟩

theorem Represents.acquire (hname : Function.Injective name) (h : s.Represents name a)
    (clt : Int32) (lid : Lid) (dst : List UInt8) (xid : Xid) (r : Int32) :
    (s.acquire clt lid dst xid r).1.Represents name
        (a.acquire (clientNo clt) lid.toNat (name dst) xid.toNat).1 ∧
      (s.acquire clt lid dst xid r).2.1 =
        (a.acquire (clientNo clt) lid.toNat (name dst) xid.toNat).2 := by
  have hs := h.register clt lid
  unfold LockTables.acquire LockServer.acquire
  generalize s.register clt lid = s at hs
  have hlist : enlist (a.lockClientList lid.toNat) (name dst) = (s.queue lid dst).map name := by
    rw [hs.lists, enlist_map hname]
    rfl
  simp only [hs.ids, UInt64.toNat_inj, ← UInt64.lt_iff_toNat_lt, hlist, idxOf_map hname]
  have hqueued := (hs.count (s.nacquire + 1)).setList lid (s.queue lid dst)
  split_ifs with hold hsame hfirst
  · exact ⟨hs, rfl⟩
  · exact ⟨hs, rfl⟩
  · exact ⟨hqueued.setLock lid true, rfl⟩
  · exact ⟨hqueued, rfl⟩

theorem Represents.release (hname : Function.Injective name) (h : s.Represents name a)
    (clt : Int32) (lid : Lid) (dst : List UInt8) (xid : Xid) :
    (s.release clt lid dst xid).1.Represents name
        (a.release (clientNo clt) lid.toNat (name dst) xid.toNat).1 ∧
      (s.release clt lid dst xid).2.1 =
        (a.release (clientNo clt) lid.toNat (name dst) xid.toNat).2 := by
  have hs : (s.setXid clt lid (s.lastXid clt lid)).Represents name a := by
    refine ⟨h.locks, h.lists, fun other lid' => ?_⟩
    rw [lastXid_setXid_lastXid]
    exact h.ids other lid'
  unfold LockTables.release LockServer.release
  generalize s.setXid clt lid (s.lastXid clt lid) = t at hs
  have hwritten := (hs.setXid clt lid xid).count (t.nacquire - 1)
  have hhead : (a.lockClientList lid.toNat).head? = some (name dst) ↔
      (t.listOf lid).head? = some dst := by
    rw [hs.lists, List.head?_map]
    constructor
    · intro heq
      obtain ⟨first, hfirst, heq⟩ := Option.map_eq_some_iff.mp heq
      rw [hfirst, hname heq]
    · intro heq
      rw [heq, Option.map_some]
  simp only [hs.ids, UInt64.toNat_inj, ← UInt64.lt_iff_toNat_lt, hhead]
  split_ifs with hold hsame hfront
  · exact ⟨hs, rfl⟩
  · exact ⟨hs, rfl⟩
  · have hpopped := (hwritten.setList lid (t.listOf lid).tail).setLock lid false
    rw [List.map_tail, ← hs.lists] at hpopped
    exact ⟨hpopped, rfl⟩
  · exact ⟨hwritten.touchList lid, rfl⟩

end LockTables

/-! ### What a transfer stores -/

/-- The entries of one client are stored. -/
def mergeRow (ids : OrderedMap Int32 LockIds) (clt : Int32) (l : List (Lid × Xid)) :
    OrderedMap Int32 LockIds :=
  l.foldl (fun ids entry =>
    ids.insert clt ((ids.getD clt .empty).insert entry.1 entry.2)) ids

def mergeRows (ids : OrderedMap Int32 LockIds) (rows : List (Int32 × LockIds)) :
    OrderedMap Int32 LockIds :=
  rows.foldl (fun ids row => mergeRow ids row.1 row.2.entries) ids

/-- What the replica has once it has stored the maps of the other server. -/
def LockTables.merge (t s : LockTables) : LockTables :=
  { t with
    lockClientList := t.lockClientList.insertAll s.lockClientList.entries
    locks := t.locks.insertAll s.locks.entries
    clientLockId := mergeRows t.clientLockId s.clientLockId.entries }

theorem sound_unsignedLongLong : Codec.unsignedLongLong.Sound := fun v =>
  ⟨_, Codec.carries_unsignedLongLong v⟩

theorem carries_ids (clt : Int32) (l : List (Lid × Xid)) : ∃ bytes : List UInt8,
    l.length ≤ bytes.length ∧
      Writes (fun rep => l.foldl (fun rep entry =>
        Codec.unsignedLongLong.put entry.2 (Codec.unsignedLongLong.put entry.1 rep)) rep) bytes ∧
      ∀ ids, Reads (getIds clt l.length ids) bytes (mergeRow ids clt l) := by
  induction l with
  | nil => exact ⟨[], Nat.le_refl _, .id, .pure⟩
  | cons entry l ih =>
      obtain ⟨name, hname⟩ := sound_unsignedLongLong entry.1
      obtain ⟨value, hvalue⟩ := sound_unsignedLongLong entry.2
      obtain ⟨more, hle, hwrites, hreads⟩ := ih
      refine ⟨_, ?_, hname.writes.comp (hvalue.writes.comp hwrites), fun ids => ?_⟩
      · have hpos := List.length_pos_iff.mpr hname.ne_nil
        rw [List.length_append, List.length_append, List.length_cons]
        omega
      · exact (hname.reads _).bind ((hvalue.reads _).bind (hreads _))

theorem carries_clients (rows : List (Int32 × LockIds)) : ∃ bytes : List UInt8,
    rows.length ≤ bytes.length ∧
      Writes (fun rep => rows.foldl (fun rep client =>
        client.2.entries.foldl (fun rep entry =>
          Codec.unsignedLongLong.put entry.2 (Codec.unsignedLongLong.put entry.1 rep))
          (Codec.unsignedInt.put (UInt32.ofNat client.2.size) (Codec.int.put client.1 rep))) rep)
        bytes ∧
      ∀ ids, Reads (getClients rows.length ids) bytes (mergeRows ids rows) := by
  induction rows with
  | nil => exact ⟨[], Nat.le_refl _, .id, .pure⟩
  | cons row rows ih =>
      have hclt := Codec.carries_int row.1
      have hsize := Codec.carries_unsignedInt (UInt32.ofNat row.2.size)
      obtain ⟨bytes, hle, hwrites, hreads⟩ := carries_ids row.1 row.2.entries
      obtain ⟨more, hmore, hwritesMore, hreadsMore⟩ := ih
      refine ⟨_, ?_, hclt.writes.comp (hsize.writes.comp (hwrites.comp hwritesMore)),
        fun ids => ?_⟩
      · have hpos := List.length_pos_iff.mpr hclt.ne_nil
        simp only [List.length_append, List.length_cons]
        omega
      · refine (hclt.reads _).bind ?_
        exact Reads.counted (fun n => getIds row.1 n ids) hle (hreads ids) (hreadsMore _)

theorem LockTables.carries_state (s : LockTables) : ∃ bytes : List UInt8,
    (∀ memory, s.marshalState memory = bytes) ∧
      ∀ t : LockTables, Reads t.readState bytes (t.merge s) := by
  have hstrings : Codec.string.vector.Sound :=
    Codec.Sound.vector fun v => ⟨_, Codec.carries_string v⟩
  have hbools : Codec.bool.Sound := fun v => ⟨_, Codec.carries_bool v⟩
  obtain ⟨lists, hlists, hwlists, hrlists⟩ :=
    sound_unsignedLongLong.entries hstrings s.lockClientList.entries
  obtain ⟨locks, hlocks, hwlocks, hrlocks⟩ := sound_unsignedLongLong.entries hbools s.locks.entries
  obtain ⟨ids, hids, hwids, hrids⟩ := carries_clients s.clientLockId.entries
  have hwrites := (Codec.carries_unsignedInt (UInt32.ofNat s.lockClientList.size)).writes.comp
    (hwlists.comp ((Codec.carries_unsignedInt (UInt32.ofNat s.locks.size)).writes.comp
      (hwlocks.comp ((Codec.carries_unsignedInt (UInt32.ofNat s.clientLockId.size)).writes.comp
        (hwids.comp .id)))))
  refine ⟨_, fun memory => hwrites.getContent memory, fun t => ?_⟩
  refine Reads.counted (fun n => getEntries _ _ n t.lockClientList) hlists (hrlists _) ?_
  refine Reads.counted (fun n => getEntries _ _ n t.locks) hlocks (hrlocks _) ?_
  refine Reads.counted (fun n => getClients n t.clientLockId) hids (hrids _) ?_
  exact .pure _

/-- The state that is written is what another replica stores. -/
theorem LockTables.unmarshalState_marshalState (s t : LockTables) (memory memory' : Nat → UInt8)
    (hfit : rpcHeaderSz + (s.marshalState memory).length < 2 ^ 31) :
    t.unmarshalState memory' (s.marshalState memory) = t.merge s := by
  obtain ⟨bytes, hstate, hreads⟩ := s.carries_state
  rw [hstate] at hfit ⊢
  have hholds := Unmarshall.holds_takeContent memory' hfit
  rw [← List.append_nil bytes] at hholds
  have hread := hreads t _ _ hholds
  rw [List.append_nil] at hread
  exact congrArg Prod.fst hread

theorem mergeRow_eq (ids : OrderedMap Int32 LockIds) (clt : Int32) {l : List (Lid × Xid)}
    (h : l ≠ []) :
    mergeRow ids clt l = ids.insert clt ((ids.getD clt .empty).insertAll l) := by
  induction l generalizing ids with
  | nil => exact absurd rfl h
  | cons entry rest ih =>
      let next := ids.insert clt ((ids.getD clt .empty).insert entry.1 entry.2)
      show mergeRow next clt rest = _
      by_cases hrest : rest = []
      · subst hrest
        rfl
      · have hnext : next.getD clt .empty = (ids.getD clt .empty).insert entry.1 entry.2 :=
          OrderedMap.getD_insert_self _ _ _ _
        rw [ih next hrest, hnext, OrderedMap.insert_insert]
        rfl

/-- No client has an empty map. -/
def Filled (ids : OrderedMap Int32 LockIds) : Prop := ∀ row ∈ ids.entries, row.2.entries ≠ []

theorem find?_mergeRows (ids : OrderedMap Int32 LockIds) {rows : List (Int32 × LockIds)}
    (hsorted : rows.Pairwise fun a b => compare a.1 b.1 = .lt)
    (hfilled : ∀ row ∈ rows, row.2.entries ≠ []) (clt : Int32) :
    (mergeRows ids rows).find? clt = ((OrderedMap.lookup clt rows).map
      fun row => (ids.getD clt .empty).insertAll row.entries).or (ids.find? clt) := by
  induction rows generalizing ids with
  | nil => rfl
  | cons row rest ih =>
      obtain ⟨hrow, hrest⟩ := List.pairwise_cons.mp hsorted
      show (mergeRows (mergeRow ids row.1 row.2.entries) rest).find? clt = _
      rw [mergeRow_eq ids row.1 (hfilled row List.mem_cons_self),
        ih _ hrest fun other hother => hfilled other (List.mem_cons_of_mem _ hother)]
      by_cases hclt : clt = row.1
      · subst hclt
        rw [OrderedMap.lookup_eq_none hrow, OrderedMap.find?_insert_self]
        simp [OrderedMap.lookup]
      · have hne : compare clt row.1 ≠ .eq := fun heq => hclt (Std.LawfulEqCmp.eq_of_compare heq)
        rw [OrderedMap.find?_insert_of_ne _ _ hclt, OrderedMap.getD_insert_of_ne _ _ _ hclt]
        simp only [OrderedMap.lookup, hne, if_false]

theorem find?_mergeRows_eq_iff (ids other : OrderedMap Int32 LockIds) (hfilled : Filled other)
    (clt : Int32) :
    (mergeRows ids other.entries).find? clt = other.find? clt ↔
      (ids.Has clt → other.Has clt) ∧
        ∀ lid, (ids.getD clt .empty).Has lid → (other.getD clt .empty).Has lid := by
  have hfind : (mergeRows ids other.entries).find? clt = ((other.find? clt).map
      fun row => (ids.getD clt .empty).insertAll row.entries).or (ids.find? clt) :=
    find?_mergeRows ids other.sorted hfilled clt
  rw [hfind]
  cases hother : other.find? clt with
  | none =>
      cases hids : ids.find? clt with
      | none => simp [OrderedMap.Has, OrderedMap.getD, hother, hids]
      | some row => simp [OrderedMap.Has, hother, hids]
  | some row =>
      have hhas : other.Has clt := by simp [OrderedMap.Has, hother]
      have hrow : other.getD clt .empty = row := by simp [OrderedMap.getD, hother]
      rw [hrow, ← OrderedMap.insertAll_eq_iff]
      simp [hhas]

/-- The replica has the ids of the other server exactly when it had no client and no lock of a
    client that the other server does not have. -/
theorem mergeRows_eq_iff (ids other : OrderedMap Int32 LockIds) (hfilled : Filled other) :
    mergeRows ids other.entries = other ↔
      (∀ clt, ids.Has clt → other.Has clt) ∧
        ∀ clt lid, (ids.getD clt .empty).Has lid → (other.getD clt .empty).Has lid := by
  rw [← forall_and]
  constructor
  · intro heq clt
    exact (find?_mergeRows_eq_iff ids other hfilled clt).mp (by rw [heq])
  · intro h
    apply OrderedMap.ext_find?
    intro clt
    exact (find?_mergeRows_eq_iff ids other hfilled clt).mpr (h clt)

/-! ### Maps of a running server -/

theorem Filled.insert {ids : OrderedMap Int32 LockIds} (h : Filled ids) (clt : Int32) {row : LockIds}
    (hrow : row.entries ≠ []) : Filled (ids.insert clt row) := by
  intro other hother
  rcases OrderedMap.mem_insertEntry hother with rfl | hmem
  · exact hrow
  · exact h other hmem

theorem LockTables.filled_setXid {s : LockTables} (h : Filled s.clientLockId) (clt : Int32)
    (lid : Lid) (xid : Xid) : Filled (s.setXid clt lid xid).clientLockId :=
  h.insert clt (OrderedMap.insertEntry_ne_nil _ _ _)

theorem LockTables.filled_acquire {s : LockTables} (h : Filled s.clientLockId) (clt : Int32)
    (lid : Lid) (dst : List UInt8) (xid : Xid) (r : Int32) :
    Filled (s.acquire clt lid dst xid r).1.clientLockId := by
  have hstart : Filled (s.register clt lid).clientLockId := by
    unfold register
    split
    · exact h
    · exact filled_setXid h clt lid 0
  unfold acquire
  generalize s.register clt lid = s at hstart
  dsimp only
  split_ifs <;> exact hstart

theorem LockTables.filled_release {s : LockTables} (h : Filled s.clientLockId) (clt : Int32)
    (lid : Lid) (dst : List UInt8) (xid : Xid) :
    Filled (s.release clt lid dst xid).1.clientLockId := by
  have hread := filled_setXid h clt lid (s.lastXid clt lid)
  have hwritten := filled_setXid hread clt lid xid
  unfold release
  dsimp only
  split_ifs
  · exact hread
  · exact hread
  · exact hwritten
  · exact hwritten

theorem LockTables.clientLockId_visit (s : LockTables) (held : Bool) :
    (s.visit held).clientLockId = s.clientLockId :=
  visit_of_touch (P := (clientLockId · = s.clientLockId)) held rfl fun _ _ ht => ht

/-- Whatever is read, an entry is stored in the map of each client that is touched. -/
theorem filled_getIds (clt : Int32) (n : Nat) {ids : OrderedMap Int32 LockIds} (h : Filled ids)
    (u : Unmarshall) : Filled (getIds clt n ids u).1 := by
  induction n generalizing ids u with
  | zero => exact h
  | succ n ih =>
      rw [getIds, bind_apply, bind_apply]
      exact ih (h.insert clt (OrderedMap.insertEntry_ne_nil _ _ _)) _

theorem filled_getClients (n : Nat) {ids : OrderedMap Int32 LockIds} (h : Filled ids)
    (u : Unmarshall) : Filled (getClients n ids u).1 := by
  induction n generalizing ids u with
  | zero => exact h
  | succ n ih =>
      rw [getClients, bind_apply, bind_apply, bind_apply]
      exact ih (filled_getIds _ _ h _) _

theorem LockTables.Reachable.filled {s : LockTables} (h : Reachable s) : Filled s.clientLockId := by
  induction h with
  | new => exact nofun
  | acquire clt lid dst xid r _ ih => exact filled_acquire ih clt lid dst xid r
  | release clt lid dst xid _ ih => exact filled_release ih clt lid dst xid
  | visit held _ ih =>
      rw [clientLockId_visit]
      exact ih
  | transfer memory memory' _ _ _ ih =>
      unfold unmarshalState readState
      simp only [bind_apply, pure_apply]
      exact filled_getClients _ ih _

/-! ### When a transfer is exact -/

/-- The replica takes over the state of the other server exactly when it has no key that the other
    one does not have, and has the same count. -/
theorem LockTables.unmarshalState_eq_iff {s : LockTables} (hs : Reachable s) (t : LockTables)
    (memory memory' : Nat → UInt8)
    (hfit : rpcHeaderSz + (s.marshalState memory).length < 2 ^ 31) :
    t.unmarshalState memory' (s.marshalState memory) = s ↔
      (∀ lid, t.locks.Has lid → s.locks.Has lid) ∧
      (∀ lid, t.lockClientList.Has lid → s.lockClientList.Has lid) ∧
      (∀ clt, t.clientLockId.Has clt → s.clientLockId.Has clt) ∧
      (∀ clt lid, (t.idsOf clt).Has lid → (s.idsOf clt).Has lid) ∧
      t.nacquire = s.nacquire := by
  rw [unmarshalState_marshalState s t memory memory' hfit]
  have hids := mergeRows_eq_iff t.clientLockId s.clientLockId hs.filled
  have hlocks := OrderedMap.insertAll_eq_iff t.locks s.locks
  have hlists := OrderedMap.insertAll_eq_iff t.lockClientList s.lockClientList
  constructor
  · intro heq
    obtain ⟨hclients, hlids⟩ := hids.mp (congrArg clientLockId heq)
    have hnacquire : (t.merge s).nacquire = s.nacquire := congrArg nacquire heq
    exact ⟨hlocks.mp (congrArg locks heq), hlists.mp (congrArg lockClientList heq), hclients, hlids,
      hnacquire⟩
  · rintro ⟨hl, hc, hclients, hlids, hn⟩
    have hmerge : t.merge s = ⟨t.nacquire, s.locks, s.lockClientList, s.clientLockId⟩ := by
      rw [merge, hlocks.mpr hl, hlists.mpr hc, hids.mpr ⟨hclients, hlids⟩]
    rw [hmerge, hn]

/-- Lock 7 has been acquired and released. -/
def releasedOnce : LockTables :=
  ((LockTables.new.acquire 1 7 [97] 1 0).1.release 1 7 [97] 1).1

/-- A new replica takes over this state, since the count is 0 again. -/
theorem unmarshalState_releasedOnce :
    rpcHeaderSz + (releasedOnce.marshalState fun _ => 0).length < 2 ^ 31 ∧
      LockTables.new.unmarshalState (fun _ => 0) (releasedOnce.marshalState fun _ => 0) =
        releasedOnce := by
  have hfit : rpcHeaderSz + (releasedOnce.marshalState fun _ => 0).length < 2 ^ 31 := by
    decide +kernel
  have hreach : releasedOnce.Reachable := .release 1 7 [97] 1 (.acquire 1 7 [97] 1 0 .new)
  refine ⟨hfit, (LockTables.unmarshalState_eq_iff hreach .new _ _ hfit).mpr ?_⟩
  refine ⟨?_, ?_, ?_, ?_, by decide +kernel⟩
  · intro lid h
    cases h
  · intro lid h
    cases h
  · intro clt h
    cases h
  · intro clt lid h
    cases h

/-- The primary has served one request, the replica one more that the primary has not. -/
def ahead : LockTables := (LockTables.new.acquire 1 7 [97] 1 0).1

def further : LockTables := (ahead.acquire 2 8 [98] 1 0).1

theorem transfer_keeps_old_state :
    ahead.Reachable ∧ further.Reachable ∧
      rpcHeaderSz + (ahead.marshalState fun _ => 0).length < 2 ^ 31 ∧
      (LockTables.new.unmarshalState (fun _ => 0) (ahead.marshalState fun _ => 0)).nacquire ≠
        ahead.nacquire ∧
      (further.unmarshalState (fun _ => 0) (ahead.marshalState fun _ => 0)).locks.find? 8 =
        some true ∧
      ahead.locks.find? 8 = none := by
  have hfit : rpcHeaderSz + (ahead.marshalState fun _ => 0).length < 2 ^ 31 := by decide +kernel
  have hahead : ahead.Reachable := .acquire 1 7 [97] 1 0 .new
  refine ⟨hahead, .acquire 2 8 [98] 1 0 hahead, hfit, ?_, ?_, by decide +kernel⟩
  · rw [LockTables.unmarshalState_marshalState _ _ _ _ hfit]
    decide +kernel
  · rw [LockTables.unmarshalState_marshalState _ _ _ _ hfit]
    decide +kernel

end DistributedLab.Lock
